import MailMerge.Proofs.Documents
import MailMerge.Proofs.JsonRoundTrip
import MailMerge.Proofs.MacroLines
import MailMerge.Proofs.PlainRendering
import Mathlib.Control.Monad.Basic

/-!
# A batch over one record

A batch over a file that holds one document renders this document as it is written back without
blanks, and does with the text, or with the failure, what the job says. If all floats of the
document are read back from what they are written as, this is the rendering of the file itself.
-/

namespace MailMerge

namespace Batch

variable {σ : Type}

namespace Disk

variable {files : Files} {path t : Text} {d : Json}

/-! ### Loading one file -/

theorem look_readText_eq (files : Files) (path : Text) :
    look (Source.readText system path) files =
      match files.read path with
      | .error e => .error (.cannotRead path e)
      | .ok contents =>
        match Utf8.decode? contents with
        | some t => .ok t
        | none => .error (.cannotRead path .notUtf8) := by
  have hl : (system.read path).run ⟨files, []⟩ = (files.read path, ⟨files, []⟩) := rfl
  rw [Source.readText, look_lift_bind hl]
  cases files.read path with
  | error e => rfl
  | ok contents =>
    dsimp only
    cases Utf8.decode? contents with
    | none => rfl
    | some t => rfl

theorem look_readText (h : files.read path = .ok (Utf8.encode t)) :
    look (Source.readText system path) files = .ok t := by
  rw [look_readText_eq, h]
  dsimp only
  rw [Utf8.decode?_encode]

/-- A template is what its text is parsed to, with its macros expanded. -/
theorem look_loadTemplate_eq (files : Files) (path : Text) :
    look (loadTemplate system path) files = (do
      let t ← look (Source.readText system path) files
      (Template.parse (Macros.expand t)).mapError .template) := by
  unfold look effect loadTemplate
  rw [exec_bind, (looks_readText path).blind.exec_eq, (looks_readText path).effect_eq]
  cases look (Source.readText system path) files with
  | error e => rfl
  | ok t =>
    dsimp only
    rw [exec_bind, (looks_logAll _ _).blind.exec_eq, (looks_logAll _ _).effect_eq, look_logAll]
    change _ = (Template.parse (Macros.expand t)).mapError Error.template
    cases Template.parse (Macros.expand t) with
    | error e => rfl
    | ok t => rfl

/-- A template is loaded if it can be parsed with its macros expanded. -/
theorem look_loadTemplate (h : files.read path = .ok (Utf8.encode t)) :
    look (loadTemplate system path) files =
      (Template.parse (Macros.expand t)).mapError .template := by
  rw [look_loadTemplate_eq, look_readText h]
  rfl

/-- The records of a file are those that its document gives. -/
theorem look_load (h : files.read path = .ok (Utf8.encode t))
    (hd : Json.read (Utf8.encode t) = .ok d) (pattern : Text) :
    look (Source.load system path pattern) files = Source.select d pattern path := by
  unfold look effect Source.load
  rw [exec_bind, (looks_readText path).blind.exec_eq, (looks_readText path).effect_eq,
    look_readText h]
  dsimp only
  rw [hd]
  dsimp only
  cases Source.select d pattern path with
  | error e => rfl
  | ok records => rfl

/-- What a job without functions over one file with one document loads. -/
theorem look_loadJob_single {loader : Loader σ} {job : Job} {expression source : Text}
    (hfunctions : job.functions = none)
    (htemplate : files.read job.template = .ok (Utf8.encode source))
    (hinput : Source.splitInput job.input = (expression, []))
    (hfile : look (Source.findFiles system expression) files = .ok [path])
    (hdata : files.read path = .ok (Utf8.encode t)) (hd : Json.read (Utf8.encode t) = .ok d)
    (harray : ∀ items, d ≠ .array items) :
    look (loadJob system loader job) files =
      match Template.parse (Macros.expand source) with
      | .error e => .error (.template e)
      | .ok t => .ok (job.plan t none, [⟨path, [d.write]⟩]) := by
  have hrecords : Source.recordsOf d = [d.write] := by
    cases d with
    | array items => exact absurd rfl (harray items)
    | _ => rfl
  have hselect : Source.select d [] path = .ok [d.write] := by
    rw [← hrecords]
    rfl
  have hsources : look (Source.discover system job.input) files = .ok [⟨path, [d.write]⟩] := by
    rw [look_discover, hinput, hfile]
    change look (Source.loadAll system [] [path]) files = _
    rw [Source.loadAll, look_bind (looks_load path []) fun _ =>
      (looks_loadAll [] []).bind fun _ => .pure _, look_load hdata hd, hselect]
    rfl
  rw [look_loadJob, look_loadTemplate htemplate, hfunctions, hsources]
  cases Template.parse (Macros.expand source) with
  | error e => rfl
  | ok t => rfl

end Disk

/-! ### The run -/

/-- Where a job without a name pattern puts the document of the only record of a file. -/
def Job.target (job : Job) (path : Text) : Text :=
  match job.output with
  | some output => Naming.singlePath output (Naming.extension job.template)
  | none => Naming.numberedPath path 0 (Naming.extension job.template)

/-- Writes the only document of a job, which has skipped and rendered so many records. -/
def Job.deliver (job : Job) (path : Text) (files : Files) (text : Text) (skipped rendered : Nat) :
    Except Error Report × Files :=
  match files.write (job.target path) (Utf8.encode text) with
  | .error e => (.error (.cannotWrite (job.target path) e), files)
  | .ok files' => (.ok ⟨[job.target path], skipped, rendered⟩, files')

/-- What a job does with the rendering of the only record of a file. If that fails and errors are
skipped, only a single file is written, and it is empty. -/
def Job.conclude (job : Job) (path : Text) (files : Files) :
    Except (TemplateError ⊕ RenderError) Text → Except Error Report × Files
  | .error (.inl e) => (.error (.template e), files)
  | .error (.inr e) =>
    if job.skipErrors then
      if job.output = none then (.ok ⟨[], 1, 0⟩, files) else job.deliver path files [] 1 0
    else (.error (.record 0 path (.render e)), files)
  | .ok text => job.deliver path files text 0 1

/-- Without user functions their state makes no difference to what a record is rendered to. -/
theorem Plan.render_plain {p : Plan σ} (hp : p.functions = none) (record : Text)
    (state : σ) : (p.render record state).result =
      (p.template.render (.ofRecord (Utf8.encode record) none : Context Unit) ()).result := by
  unfold render
  rw [hp]
  exact p.template.render_same (fun _ => rfl) state ()

/-- Without a name pattern, a record gives its rendering, which goes to a numbered file of its own
unless there is a single file. -/
theorem Job.outcome_plain {job : Job} (hname : job.output = none → job.name = none)
    (template : Template) (path record : Text) (state : σ) :
    (job.plan template none).outcome ⟨path, 0, record⟩ state =
      match (template.render (.ofRecord (Utf8.encode record) none : Context Unit) ()).result with
      | .error e => .error (.render e)
      | .ok text => .ok (text, if job.output = none then some (job.target path) else none) := by
  have hrender : ((job.plan template none).render record state).result =
      (template.render (.ofRecord (Utf8.encode record) none : Context Unit) ()).result :=
    Plan.render_plain rfl record state
  unfold Plan.outcome Plan.document
  rw [hrender]
  cases (template.render (.ofRecord (Utf8.encode record) none : Context Unit) ()).result with
  | error e => rfl
  | ok text =>
    dsimp only
    unfold Plan.target Job.plan Job.target
    dsimp only
    cases ho : job.output with
    | some output => rfl
    | none =>
      rw [hname ho]
      rfl

namespace Disk

variable {files : Files} {path t : Text} {d : Json}

theorem effect_finish_numbered {job : Job} (hname : job.name = none) (houtput : job.output = none)
    (template : Template) (g : Progress σ) :
    effect (finish system (job.plan template none) g) files = (.ok g.report, files) := by
  have hp : (job.plan template (none : Option (Script σ))).naming = .numbered := by
    simp [Job.plan, Naming.ofOptions, houtput, hname]
  rw [finish_numbered system hp]
  rfl

theorem effect_finish_output {job : Job} (houtput : job.output ≠ none) (template : Template)
    {g : Progress σ} (hg : g.report.written = []) :
    effect (finish system (job.plan template none) g) files =
      job.deliver path files g.combined g.report.skipped g.report.rendered := by
  obtain ⟨output, houtput⟩ := Option.ne_none_iff_exists'.mp houtput
  have hp : (job.plan template (none : Option (Script σ))).naming = .single output := by
    simp [Job.plan, Naming.ofOptions, houtput]
  have htarget : job.target path = Naming.singlePath output (Naming.extension job.template) := by
    rw [Job.target, houtput]
  rw [effect_finish_single hp, hg, Job.deliver, htarget]
  rfl

/-- What becomes of the only record of a run without functions. -/
theorem effect_take_single {job : Job} (hname : job.output = none → job.name = none)
    (template : Template) (record : Text) (state : σ) :
    effect (takeEntries system (job.plan template none) [⟨path, 0, record⟩] (.start state) >>=
        finish system (job.plan template none)) files =
      job.conclude path files
        ((template.render (.ofRecord (Utf8.encode record) none : Context Unit) ()).result.mapError
          .inr) := by
  have hsingle : takeEntries system (job.plan template none) [⟨path, 0, record⟩] (.start state) =
      takeRecord system (job.plan template none) path 0 record (.start state) := bind_pure _
  have htakes := effect_takeRecord (job.plan template none) ⟨path, 0, record⟩ (.start state) files
  rw [Job.outcome_plain hname] at htakes
  rw [effect_bind (blind_finish _), hsingle]
  generalize effect (takeRecord system (job.plan template none) path 0 record (.start state))
    files = r at htakes ⊢
  generalize (template.render (.ofRecord (Utf8.encode record) none : Context Unit) ()).result =
    rendered at htakes ⊢
  obtain ⟨r, files'⟩ := r
  cases rendered with
  | error e =>
    dsimp only [Except.mapError, Job.conclude] at htakes ⊢
    cases htakes with
    | skipped hs =>
      have hs : job.skipErrors = true := hs
      rw [if_pos hs]
      by_cases ho : job.output = none
      · rw [if_pos ho]
        exact effect_finish_numbered (hname ho) ho template _
      · rw [if_neg ho]
        exact effect_finish_output ho template rfl
    | failed hs =>
      have hs : ¬ job.skipErrors = true := Bool.eq_false_iff.mp hs
      rw [if_neg hs]
  | ok text =>
    dsimp only [Except.mapError, Job.conclude] at htakes ⊢
    split at htakes
    · next ho =>
      rw [Job.deliver]
      cases htakes with
      | written hw =>
        rw [hw]
        exact effect_finish_numbered (hname ho) ho template _
      | unwritable hw => rw [hw]
    · next ho =>
      cases htakes with
      | kept => exact effect_finish_output ho template rfl

/-- What a job without functions over one file with one document does. -/
theorem effect_run_single {loader : Loader σ} {job : Job} {expression source : Text}
    (hfunctions : job.functions = none) (hname : job.output = none → job.name = none)
    (htemplate : files.read job.template = .ok (Utf8.encode source))
    (hinput : Source.splitInput job.input = (expression, []))
    (hfile : look (Source.findFiles system expression) files = .ok [path])
    (hdata : files.read path = .ok (Utf8.encode t)) (hd : Json.read (Utf8.encode t) = .ok d)
    (harray : ∀ items, d ≠ .array items) :
    effect (runWith system loader job) files =
      job.conclude path files (renderRecord (Macros.expand source) (Utf8.encode d.write)) := by
  rw [effect_run, look_loadJob_single hfunctions htemplate hinput hfile hdata hd harray,
    renderRecord]
  cases Template.parse (Macros.expand source) with
  | error e => rfl
  | ok template => exact effect_take_single hname template d.write loader.idle

end Disk

/-- A batch over one file with one document does with its rendering what the job says. What is
rendered is the document as it is written back, which renders like the file itself if the floats of
the document are read back. -/
theorem run_single_record {loader : Loader σ} {job : Job} {files : Files}
    {expression path source t : Text} {d : Json}
    (hfunctions : job.functions = none) (hname : job.output = none → job.name = none)
    (htemplate : files.read job.template = .ok (Utf8.encode source))
    (hmacros : ∀ line ∈ source.lines, Macros.definition? line = none)
    (hinput : Source.splitInput job.input = (expression, []))
    (hfile : Disk.look (Source.findFiles Disk.system expression) files = .ok [path])
    (hdata : files.read path = .ok (Utf8.encode t)) (hd : Json.read (Utf8.encode t) = .ok d)
    (harray : ∀ items, d ≠ .array items) :
    Disk.effect (runWith Disk.system loader job) files =
        job.conclude path files (renderRecord source (Utf8.encode d.write)) ∧
      (d.Faithful → Disk.effect (runWith Disk.system loader job) files =
        job.conclude path files (renderRecord source (Utf8.encode t))) := by
  have hrun : Disk.effect (runWith Disk.system loader job) files = _ :=
    Disk.effect_run_single hfunctions hname htemplate hinput hfile hdata hd harray
  rw [Macros.expand_of_plain hmacros] at hrun
  refine ⟨hrun, fun hfaithful => ?_⟩
  have hback := hfaithful.read_write (Json.read_readable hd)
  rw [hrun, renderRecord_same source hback hd]

/-! ### A float that is read back, and one that is not -/

/-- A job over one file. -/
def oneFile : Job := ⟨"d.json".toList, "t.md".toList, none, none, none, false⟩

/-- The files for that, with the given template and data. -/
def filesOf (template data : Text) : Files :=
  (Files.empty.addFile "d.json".toList (Utf8.encode data)).addFile "t.md".toList
    (Utf8.encode template)

/-- One half is rendered as the file has it. -/
theorem run_half :
    let half := Json.write (.object [(['x'], .real 0.5)])
    Disk.effect (run Disk.system oneFile) (filesOf "$x$".toList half) =
      oneFile.conclude "d.json".toList (filesOf "$x$".toList half)
        (renderRecord "$x$".toList (Utf8.encode half)) := by
  intro half
  have hmember : ∀ {P : Json → Prop}, P (.real 0.5) →
      ∀ m ∈ [(['x'], Json.real 0.5)], P m.2 := by
    rintro P h m hm
    rw [List.mem_singleton.mp hm]
    exact h
  have hfaithful : Json.Faithful (.object [(['x'], .real 0.5)]) :=
    .object (hmember (.real (by decide +kernel)))
  have hreadable : Json.Readable 0 Json.depthLimit (.object [(['x'], .real 0.5)]) :=
    .object (by decide) (hmember (.real _))
  have htemplate : (filesOf "$x$".toList half).read oneFile.template =
      .ok (Utf8.encode "$x$".toList) := by decide +kernel
  have hmacros : ∀ line ∈ Text.lines "$x$".toList, Macros.definition? line = none := by
    decide +kernel
  have hinput : Source.splitInput oneFile.input = ("d.json".toList, []) := by decide +kernel
  have hfile : Disk.look (Source.findFiles Disk.system "d.json".toList)
      (filesOf "$x$".toList half) = .ok ["d.json".toList] := by decide +kernel
  have hdata : (filesOf "$x$".toList half).read "d.json".toList =
      .ok (Utf8.encode half) := by decide +kernel
  exact (run_single_record rfl (fun _ => rfl) htemplate hmacros hinput hfile hdata
    (hfaithful.read_write hreadable) nofun).2 hfaithful

/-- A float that is written back is not always the one that was read, so that a batch can write
something else than the rendering of its file; and a number that is out of range only matters to a
batch. -/
theorem rewritten_number_differs :
    let number := "\x7b\"x\":9862.342966827694\x7d".toList
    let large := "\x7b\"x\":1e999\x7d".toList
    renderRecord "$x$".toList (Utf8.encode number) = .ok "9862.342966827695".toList ∧
      Disk.effect (run Disk.system oneFile) (filesOf "$x$".toList number) =
        (.ok ⟨["d0.md".toList], 0, 1⟩, (filesOf "$x$".toList number).addFile "d0.md".toList
          (Utf8.encode "9862.342966827697".toList)) ∧
      renderRecord "x".toList (Utf8.encode large) = .ok "x".toList ∧
      Disk.effect (run Disk.system oneFile) (filesOf "x".toList large) =
        (.error (.invalidJson "d.json".toList "number out of range at line 1 column 10".toList),
          filesOf "x".toList large) := by
  decide +kernel

end Batch
end MailMerge
