import MailMerge.Batch
import MailMerge.Proofs.Chains

/-!
# Batches on files in memory

The log makes no difference to what a batch does, so that a batch is what it does to the files. It
first loads what it needs, which only looks at files, and then takes one record after another.
-/

namespace MailMerge.Batch

namespace Disk

variable {α β : Type}

/-- What a computation gives on a disk, and the disk after it. -/
def exec (x : ExceptT Error (StateM Disk) α) (d : Disk) : Except Error α × Disk := x.run.run d

/-- What a computation gives and which files it leaves, if nothing has been logged. -/
def effect (x : ExceptT Error (StateM Disk) α) (files : Files) : Except Error α × Files :=
  ((exec x ⟨files, []⟩).1, (exec x ⟨files, []⟩).2.files)

/-- What a computation gives, if nothing has been logged. -/
def look (x : ExceptT Error (StateM Disk) α) (files : Files) : Except Error α := (effect x files).1

theorem exec_lift (x : StateM Disk α) (d : Disk) :
    exec (monadLift x) d = (.ok (x.run d).1, (x.run d).2) := rfl

theorem exec_bind (x : ExceptT Error (StateM Disk) α) (f : α → ExceptT Error (StateM Disk) β)
    (d : Disk) : exec (x >>= f) d =
      match exec x d with
      | (.ok a, d') => exec (f a) d'
      | (.error e, d') => (.error e, d') := by
  unfold exec
  rw [ExceptT.run_bind, StateT.run_bind]
  change (match x.run.run d with | (r, d') => _) = _
  rcases x.run.run d with ⟨_ | _, _⟩
  · rfl
  · rfl

theorem exec_of_effect {x : ExceptT Error (StateM Disk) α} {files files' : Files}
    {r : Except Error α} (h : effect x files = (r, files')) :
    ∃ d', exec x ⟨files, []⟩ = (r, d') ∧ d'.files = files' := by
  cases h
  exact ⟨_, rfl, rfl⟩

theorem effect_pure (a : α) (files : Files) : effect (pure a) files = (.ok a, files) := rfl

/-- What a computation gives that begins with an operation which looks at files. -/
theorem look_lift_bind {y : StateM Disk α} {a : α} {files : Files}
    (h : y.run ⟨files, []⟩ = (a, ⟨files, []⟩)) (f : α → ExceptT Error (StateM Disk) β) :
    look (monadLift y >>= f) files = look (f a) files := by
  unfold look effect
  rw [exec_bind, exec_lift, h]

/-! ### Computations to which the log makes no difference -/

/-- The log makes no difference to what a computation gives and to the files it leaves. -/
def Blind (x : ExceptT Error (StateM Disk) α) : Prop :=
  ∀ d, ((exec x d).1, (exec x d).2.files) = effect x d.files

namespace Blind

variable {x : ExceptT Error (StateM Disk) α} {f : α → ExceptT Error (StateM Disk) β}

theorem pure (a : α) : Blind (Pure.pure a) := fun _ => rfl

theorem throw (e : Error) : Blind (MonadExcept.throw e : ExceptT Error (StateM Disk) α) :=
  fun _ => rfl

/-- What stands after a computation, but for the log. -/
theorem exec_eq (h : Blind x) (d : Disk) :
    exec x d = ((effect x d.files).1, ⟨(effect x d.files).2, (exec x d).2.log⟩) := by
  rw [← h d]

theorem bind (hx : Blind x) (hf : ∀ a, Blind (f a)) : Blind (x >>= f) := by
  intro d
  rw [effect, exec_bind, exec_bind, hx.exec_eq d, hx.exec_eq ⟨d.files, []⟩]
  cases (effect x d.files).1 with
  | error e => rfl
  | ok a => exact (hf a ⟨_, (exec x d).2.log⟩).trans (hf a ⟨_, (exec x ⟨d.files, []⟩).2.log⟩).symm

end Blind

/-- One computation after another. -/
theorem effect_bind {x : ExceptT Error (StateM Disk) α} {f : α → ExceptT Error (StateM Disk) β}
    (hf : ∀ a, Blind (f a)) (files : Files) : effect (x >>= f) files =
      match effect x files with
      | (.ok a, files') => effect (f a) files'
      | (.error e, files') => (.error e, files') := by
  unfold effect
  rw [exec_bind]
  rcases exec x ⟨files, []⟩ with ⟨_ | a, d⟩
  · rfl
  · exact hf a d

/-! ### Computations that look at files -/

/-- A computation that looks at files and leaves them as they are. -/
structure Looks (x : ExceptT Error (StateM Disk) α) : Prop where
  blind : Blind x
  files : ∀ files, (effect x files).2 = files

namespace Looks

variable {x : ExceptT Error (StateM Disk) α} {f : α → ExceptT Error (StateM Disk) β}

theorem pure (a : α) : Looks (Pure.pure a) := ⟨.pure a, fun _ => rfl⟩

theorem throw (e : Error) : Looks (MonadExcept.throw e : ExceptT Error (StateM Disk) α) :=
  ⟨.throw e, fun _ => rfl⟩

/-- An operation of the file system. -/
theorem lift {y : StateM Disk α} (r : Files → α) (g : Disk → List Note)
    (h : ∀ d, y.run d = (r d.files, ⟨d.files, g d⟩)) : Looks (monadLift y) := by
  refine ⟨fun d => ?_, fun files => ?_⟩
  · rw [effect, exec_lift, exec_lift, h, h]
  · rw [effect, exec_lift, h]

theorem effect_eq (h : Looks x) (files : Files) : effect x files = (look x files, files) :=
  Prod.ext rfl (h.files files)

theorem bind (hx : Looks x) (hf : ∀ a, Looks (f a)) : Looks (x >>= f) := by
  refine ⟨hx.blind.bind fun a => (hf a).blind, fun files => ?_⟩
  rw [effect_bind fun a => (hf a).blind, hx.effect_eq]
  cases look x files with
  | error e => rfl
  | ok a => exact (hf a).files files

end Looks

/-- Looking twice. -/
theorem look_bind {x : ExceptT Error (StateM Disk) α} {f : α → ExceptT Error (StateM Disk) β}
    (hx : Looks x) (hf : ∀ a, Looks (f a)) (files : Files) :
    look (x >>= f) files = (do let a ← look x files; look (f a) files) := by
  rw [look, effect_bind fun a => (hf a).blind, hx.effect_eq]
  cases look x files with
  | error e => rfl
  | ok a => rfl

/-! ### Loading -/

theorem looks_read (path : Text) : Looks (monadLift (system.read path)) :=
  .lift (fun files => files.read path) (·.log) fun _ => rfl

theorem looks_isFile (path : Text) : Looks (monadLift (system.isFile path)) :=
  .lift (fun files => files.isFile path) (·.log) fun _ => rfl

theorem looks_list (path : Text) : Looks (monadLift (system.list path)) :=
  .lift (fun files => files.list path) (·.log) fun _ => rfl

theorem looks_log (n : Note) : Looks (monadLift (system.log n)) :=
  .lift (fun _ => ()) (fun d => d.log ++ [n]) fun _ => rfl

theorem looks_logAll (level : Level) (ls : List Text) : Looks (logAll system level ls) := by
  induction ls with
  | nil => exact .pure ()
  | cons l ls ih => exact (looks_log _).bind fun _ => ih

theorem looks_readText (path : Text) : Looks (Source.readText system path) := by
  refine (looks_read path).bind fun r => ?_
  cases r with
  | error e => exact .throw _
  | ok contents =>
    dsimp only
    split
    · exact .pure _
    · exact .throw _

theorem looks_loadTemplate (path : Text) : Looks (loadTemplate system path) := by
  refine (looks_readText path).bind fun t => (looks_logAll _ _).bind fun _ => ?_
  split
  · exact .pure _
  · exact .throw _

theorem looks_jobFunctions {σ : Type} (loader : Loader σ) (path : Option Text) :
    Looks (jobFunctions system loader path) := by
  cases path with
  | none => exact .pure _
  | some path =>
    refine .bind ((looks_readText path).bind fun t => ?_) fun _ => .pure _
    split
    · exact .pure _
    · exact .throw _

theorem looks_filesIn (directory : Text) (keep : Text → Bool) :
    Looks (Source.filesIn system directory keep) := by
  refine (looks_list directory).bind fun r => ?_
  cases r with
  | error e => exact .throw _
  | ok names => exact .pure _

theorem looks_findFiles (path : Text) : Looks (Source.findFiles system path) := by
  unfold Source.findFiles
  split
  · exact looks_filesIn _ _
  · dsimp only
    split
    · exact looks_filesIn _ _
    · refine (looks_isFile path).bind fun r => ?_
      cases r with
      | true => exact .pure _
      | false => exact .throw _

/-- What listing a directory gives. -/
theorem look_filesIn (files : Files) (dir : Text) (keep : Text → Bool) :
    look (Source.filesIn system dir keep) files =
      match files.list dir with
      | .error e => .error (.cannotList dir e)
      | .ok names => .ok ((names.filter keep).map (Path.below dir)) := by
  have hl : (system.list dir).run ⟨files, []⟩ = (files.list dir, ⟨files, []⟩) := rfl
  rw [Source.filesIn, look_lift_bind hl]
  cases files.list dir with
  | error e => rfl
  | ok names => rfl

/-- What looking for files gives. -/
theorem look_findFiles (files : Files) (path : Text) :
    look (Source.findFiles system path) files =
      if path.getLast? = some '/' then look (Source.filesIn system path fun _ => true) files
      else
        let name := ((Path.ofText path).fileName?).getD []
        if Glob.isPattern name then
          let directory := (Path.ofText path).parent.toText
          look (Source.filesIn system (if directory.isEmpty then ['.'] else directory)
            (Glob.accepts name)) files
        else if files.isFile path then .ok [path]
        else .error (.noSuchFile path) := by
  have hl : (system.isFile path).run ⟨files, []⟩ = (files.isFile path, ⟨files, []⟩) := rfl
  unfold Source.findFiles
  dsimp only
  by_cases hlast : path.getLast? = some '/'
  · rw [if_pos hlast, if_pos hlast]
  · rw [if_neg hlast, if_neg hlast]
    by_cases hglob : Glob.isPattern (((Path.ofText path).fileName?).getD []) = true
    · rw [if_pos hglob, if_pos hglob]
    · rw [if_neg hglob, if_neg hglob]
      rw [look_lift_bind hl]
      cases files.isFile path with
      | true => rfl
      | false => rfl

theorem looks_load (path pattern : Text) : Looks (Source.load system path pattern) := by
  refine (looks_readText path).bind fun t => ?_
  dsimp only
  split
  · exact .throw _
  · refine .bind ?_ fun records => (looks_log _).bind fun _ => .pure _
    exact ⟨fun _ => rfl, fun _ => rfl⟩

theorem looks_loadAll (pattern : Text) (paths : List Text) :
    Looks (Source.loadAll system pattern paths) := by
  induction paths with
  | nil => exact .pure _
  | cons path paths ih =>
    exact (looks_load path pattern).bind fun _ => ih.bind fun _ => .pure _

theorem looks_discover (input : Text) : Looks (Source.discover system input) :=
  (looks_findFiles _).bind fun _ => looks_loadAll _ _

/-- The sources of an input, from the files that it names. -/
theorem look_discover (input : Text) (files : Files) :
    look (Source.discover system input) files = (do
      let paths ← look (Source.findFiles system (Source.splitInput input).1) files
      look (Source.loadAll system (Source.splitInput input).2 paths) files) :=
  look_bind (looks_findFiles _) (looks_loadAll _) files

end Disk

/-! ### A run -/

section Run

variable {m : Type → Type} [Monad m] (fs : FileSystem m) {σ : Type} (loader : Loader σ)

/-- The plan of a job, once its template and its functions are loaded. -/
def Job.plan (job : Job) (template : Template) (functions : Option (Script σ)) : Plan σ := {
  template, functions
  naming := Naming.ofOptions job.name job.output
  extension := Naming.extension job.template
  skipErrors := job.skipErrors }

/-- Loads what a job needs. -/
def loadJob (job : Job) : ExceptT Error m (Plan σ × List Source) := do
  let template ← loadTemplate fs job.template
  let functions ← jobFunctions fs loader job.functions
  let sources ← Source.discover fs job.input
  pure (job.plan template functions, sources)

/-- A run loads everything before it takes the first record. -/
theorem runWith_eq [LawfulMonad m] (job : Job) : runWith fs loader job = (do
    let (plan, sources) ← loadJob fs loader job
    let g ← takeSources fs plan sources (.start (loader.start plan.functions))
    finish fs plan g) := by
  simp only [loadJob, bind_assoc, pure_bind]
  rfl

end Run

namespace Disk

variable {σ : Type} (loader : Loader σ)

theorem looks_loadJob (job : Job) : Looks (loadJob system loader job) :=
  (looks_loadTemplate _).bind fun _ => (looks_jobFunctions _ _).bind fun _ =>
    (looks_discover _).bind fun _ => .pure _

/-- Loading a job, from what its template, its functions and its input give. -/
theorem look_loadJob (job : Job) (files : Files) : look (loadJob system loader job) files = (do
    let template ← look (loadTemplate system job.template) files
    let functions ← look (jobFunctions system loader job.functions) files
    let sources ← look (Source.discover system job.input) files
    pure (job.plan template functions, sources)) := by
  unfold loadJob
  rw [look_bind (looks_loadTemplate _) fun _ => (looks_jobFunctions _ _).bind fun _ =>
    (looks_discover _).bind fun _ => .pure _]
  refine congrArg _ (funext fun template => ?_)
  rw [look_bind (looks_jobFunctions _ _) fun _ => (looks_discover _).bind fun _ => .pure _]
  refine congrArg _ (funext fun functions => ?_)
  rw [look_bind (looks_discover _) fun _ => .pure _]
  rfl

theorem look_loadJob_ok {loader : Loader σ} {job : Job} {files : Files} {plan : Plan σ}
    {sources : List Source} (h : look (loadJob system loader job) files = .ok (plan, sources)) :
    (∃ template functions, plan = job.plan template functions) ∧
      look (Source.discover system job.input) files = .ok sources := by
  rw [look_loadJob] at h
  obtain ⟨template, -, h⟩ := Parsing.ok_of_bind h
  obtain ⟨functions, -, h⟩ := Parsing.ok_of_bind h
  obtain ⟨sources, hs, h⟩ := Parsing.ok_of_bind h
  cases h
  exact ⟨⟨template, functions, rfl⟩, hs⟩

end Disk

end MailMerge.Batch
