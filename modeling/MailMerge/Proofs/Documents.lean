import MailMerge.Proofs.Disk

/-!
# The documents of a batch

A batch takes its records in order of their files. `Takes` says all that one record can do to the
batch and to the files, and a run does that for every record: its documents are those of the records
that give one, and each of them is written where it goes or kept for the single file.
-/

namespace MailMerge.Batch

variable {σ : Type}

/-- A record, the file it comes from and its number there. -/
structure Entry where
  source : Text
  index : Nat
  record : Text
deriving DecidableEq, Repr

/-- The text of a record, and where it goes if it has a file of its own. -/
structure Document where
  entry : Entry
  text : Text
  target : Option Text
deriving DecidableEq, Repr

/-! ### The order of records -/

section Order

variable {m : Type → Type} [Monad m] (fs : FileSystem m)

/-- The records of a source, numbered from `index` on. -/
def Source.entriesFrom (path : Text) (index : Nat) (records : List Text) : List Entry :=
  (records.zipIdx index).map fun r => ⟨path, r.2, r.1⟩

/-- The records of sources, in order. -/
def Source.entries (sources : List Source) : List Entry :=
  sources.flatMap fun s => entriesFrom s.path 0 s.records

/-- Takes records in order. -/
def takeEntries (p : Plan σ) : List Entry → Progress σ → ExceptT Error m (Progress σ)
  | [], g => pure g
  | e :: es, g => do
    let g ← takeRecord fs p e.source e.index e.record g
    takeEntries p es g

theorem takeEntries_append [LawfulMonad m] (p : Plan σ) (es fs' : List Entry) (g : Progress σ) :
    takeEntries fs p (es ++ fs') g = (do
      let g ← takeEntries fs p es g
      takeEntries fs p fs' g) := by
  induction es generalizing g with
  | nil => exact (pure_bind _ _).symm
  | cons e es ih => simp only [List.cons_append, takeEntries, ih, bind_assoc]

theorem takeRecords_eq (p : Plan σ) (path : Text) (index : Nat) (records : List Text)
    (g : Progress σ) : takeRecords fs p path index records g =
      takeEntries fs p (Source.entriesFrom path index records) g := by
  induction records generalizing index g with
  | nil => rfl
  | cons r rs ih =>
    simp only [takeRecords, ih]
    rfl

theorem takeSources_eq [LawfulMonad m] (p : Plan σ) (sources : List Source) (g : Progress σ) :
    takeSources fs p sources g = takeEntries fs p (Source.entries sources) g := by
  induction sources generalizing g with
  | nil => rfl
  | cons s ss ih =>
    simp only [Source.entries, List.flatMap_cons, takeEntries_append] at ih ⊢
    simp only [takeSources, ih, takeRecords_eq]

/-- Documents with files of their own are all written in the end. -/
theorem finish_numbered {p : Plan σ} (hp : p.naming = .numbered) (g : Progress σ) :
    finish fs p g = pure g.report := by
  unfold finish
  rw [hp]

/-- Documents named after a field are all written in the end. -/
theorem finish_field {p : Plan σ} {directory pattern : Text}
    (hp : p.naming = .field directory pattern) (g : Progress σ) :
    finish fs p g = pure g.report := by
  unfold finish
  rw [hp]

/-- The single file is written in the end. -/
theorem finish_single {p : Plan σ} {output : Text} (hp : p.naming = .single output)
    (g : Progress σ) :
    finish fs p g = (do
      write fs (Naming.singlePath output p.extension) g.combined
      pure { g.report with
        written := g.report.written ++ [Naming.singlePath output p.extension] }) := by
  unfold finish
  rw [hp]

end Order

/-! ### One record -/

/-- What a record can do to a batch and to the files, if rendering it leaves the functions in the
given state. -/
inductive Takes (p : Plan σ) (e : Entry) (g : Progress σ) (state : σ) (files : Files) :
    Except RecordError (Text × Option Text) → Except Error (Progress σ) → Files → Prop where
  /-- Its document is written. -/
  | written {text path : Text} {files' : Files}
      (h : files.write path (Utf8.encode text) = .ok files') :
      Takes p e g state files (.ok (text, some path))
        (.ok ⟨⟨g.report.written ++ [path], g.report.skipped, g.report.rendered + 1⟩, g.combined,
          state⟩) files'
  /-- Its document cannot be written. -/
  | unwritable {text path : Text} {err : FileError}
      (h : files.write path (Utf8.encode text) = .error err) :
      Takes p e g state files (.ok (text, some path)) (.error (.cannotWrite path err)) files
  /-- Its document is kept for the single file. -/
  | kept {text : Text} :
      Takes p e g state files (.ok (text, none))
        (.ok ⟨⟨g.report.written, g.report.skipped, g.report.rendered + 1⟩, g.combined ++ text,
          state⟩) files
  /-- It gives no document and is left out. -/
  | skipped {err : RecordError} (h : p.skipErrors = true) :
      Takes p e g state files (.error err)
        (.ok ⟨⟨g.report.written, g.report.skipped + 1, g.report.rendered⟩, g.combined, state⟩)
        files
  /-- It gives no document, which stops the batch. -/
  | failed {err : RecordError} (h : p.skipErrors = false) :
      Takes p e g state files (.error err) (.error (.record e.index e.source err)) files

/-- The document that a record gives if the functions are in the given state. -/
def Plan.outcome (p : Plan σ) (e : Entry) (state : σ) :
    Except RecordError (Text × Option Text) :=
  p.document e.source e.index e.record (p.render e.record state).result

namespace Disk

theorem look_logAll (level : Level) (ls : List Text) (files : Files) :
    look (logAll system level ls) files = .ok () := by
  induction ls with
  | nil => rfl
  | cons l ls ih =>
    rw [logAll, look_bind (looks_log _) fun _ => looks_logAll level ls]
    exact ih

/-- The file system decides on a write, and a success is noted. -/
theorem exec_write (path text : Text) (d : Disk) : exec (write system path text) d =
    match d.files.write path (Utf8.encode text) with
    | .error e => (.error (.cannotWrite path e), d)
    | .ok files => (.ok (), ⟨files, d.log ++ [⟨.info, "Wrote ".toList ++ path⟩]⟩) := by
  have hw : (system.write path (Utf8.encode text)).run d =
      match d.files.write path (Utf8.encode text) with
      | .error e => (.error e, d)
      | .ok files => (.ok (), ⟨files, d.log⟩) := by
    cases h : d.files.write path (Utf8.encode text) with
    | error e =>
      simp [system, h]
      rfl
    | ok files =>
      simp [system, h]
      rfl
  unfold write
  rw [exec_bind, exec_lift, hw]
  cases d.files.write path (Utf8.encode text) with
  | error e => rfl
  | ok files => rfl

theorem effect_write (path text : Text) (files : Files) : effect (write system path text) files =
    match files.write path (Utf8.encode text) with
    | .error e => (.error (.cannotWrite path e), files)
    | .ok files' => (.ok (), files') := by
  rw [effect, exec_write]
  dsimp only
  cases files.write path (Utf8.encode text) with
  | error e => rfl
  | ok files' => rfl

theorem blind_write (path text : Text) : Blind (write system path text) := by
  intro d
  rw [effect_write, exec_write]
  cases d.files.write path (Utf8.encode text) with
  | error e => rfl
  | ok files => rfl

theorem blind_takeRecord (p : Plan σ) (source : Text) (index : Nat) (record : Text)
    (g : Progress σ) :
    Blind (takeRecord system p source index record g) := by
  refine (looks_logAll _ _).blind.bind fun _ => ?_
  dsimp only
  split
  · exact (blind_write _ _).bind fun _ => .pure _
  · exact .pure _
  · split
    · exact (looks_log _).blind.bind fun _ => .pure _
    · exact .throw _

theorem blind_takeEntries (p : Plan σ) (es : List Entry) (g : Progress σ) :
    Blind (takeEntries system p es g) := by
  induction es generalizing g with
  | nil => exact .pure _
  | cons e es ih => exact (blind_takeRecord _ _ _ _ _).bind ih

theorem blind_finish (p : Plan σ) (g : Progress σ) : Blind (finish system p g) := by
  unfold finish
  split
  · exact (blind_write _ _).bind fun _ => .pure _
  · exact .pure _

/-- The single file is written with all texts. -/
theorem effect_finish_single {p : Plan σ} {output : Text} (hp : p.naming = .single output)
    (g : Progress σ) (files : Files) : effect (finish system p g) files =
      match files.write (Naming.singlePath output p.extension) (Utf8.encode g.combined) with
      | .error e => (.error (.cannotWrite (Naming.singlePath output p.extension) e), files)
      | .ok files' => (.ok { g.report with
          written := g.report.written ++ [Naming.singlePath output p.extension] }, files') := by
  rw [finish_single system hp, effect_bind fun _ => .pure _, effect_write]
  cases files.write (Naming.singlePath output p.extension) (Utf8.encode g.combined) with
  | error e => rfl
  | ok files' => rfl

/-- A record does one of the things that records can do. -/
theorem effect_takeRecord (p : Plan σ) (e : Entry) (g : Progress σ) (files : Files) :
    Takes p e g (p.render e.record g.state).state files (p.outcome e g.state)
      (effect (takeRecord system p e.source e.index e.record g) files).1
      (effect (takeRecord system p e.source e.index e.record g) files).2 := by
  unfold effect takeRecord Plan.outcome
  rw [exec_bind, (looks_logAll _ _).blind.exec_eq, (looks_logAll _ _).effect_eq, look_logAll]
  dsimp only
  split
  · next text path h =>
    rw [h, exec_bind, exec_write]
    dsimp only
    cases hw : files.write path (Utf8.encode text) with
    | ok files' => exact .written hw
    | error err => exact .unwritable hw
  · next text h =>
    rw [h]
    exact .kept
  · next err h =>
    rw [h]
    split
    · next hs => exact .skipped hs
    · next hs => exact .failed (Bool.eq_false_iff.mpr hs)

end Disk

/-! ### All records -/

/-- The documents that records give, from a state of the functions on. -/
def Plan.documents (p : Plan σ) : List Entry → σ → List Document
  | [], _ => []
  | e :: es, state =>
    let rest := p.documents es (p.render e.record state).state
    match p.outcome e state with
    | .ok (text, target) => ⟨e, text, target⟩ :: rest
    | .error _ => rest

/-- A document is what its record gives in some state of the functions. -/
theorem Plan.outcome_of_mem_documents {p : Plan σ} {es : List Entry} {state : σ}
    {doc : Document} (h : doc ∈ p.documents es state) :
    doc.entry ∈ es ∧ ∃ before, p.outcome doc.entry before = .ok (doc.text, doc.target) := by
  induction es generalizing state with
  | nil => cases h
  | cons e es ih =>
    have hrest : doc ∈ p.documents es (p.render e.record state).state →
        doc.entry ∈ e :: es ∧ ∃ before, p.outcome doc.entry before = .ok (doc.text, doc.target) :=
      fun h => ⟨List.mem_cons_of_mem _ (ih h).1, (ih h).2⟩
    rw [documents] at h
    split at h
    · next text target hout =>
      rcases List.mem_cons.mp h with rfl | h
      · exact ⟨List.mem_cons_self, state, hout⟩
      · exact hrest h
    · exact hrest h

/-- A record that gives a document is rendered and has a target. -/
theorem Plan.target_of_outcome {p : Plan σ} {e : Entry} {state : σ} {text : Text}
    {target : Option Text} (h : p.outcome e state = .ok (text, target)) :
    p.target e.source e.index e.record = .ok target := by
  unfold outcome document at h
  split at h
  · cases h
  · obtain ⟨found, hfound, h⟩ := Parsing.ok_of_map h
    cases h
    exact hfound

/-- The path and the text of a document with a file of its own. -/
def Document.file? (d : Document) : Option (Text × Text) := d.target.map fun path => (path, d.text)

/-- The paths of documents with files of their own. -/
theorem Document.map_fst_files (docs : List Document) :
    (docs.filterMap Document.file?).map Prod.fst = docs.filterMap Document.target := by
  have hpath : ∀ doc : Document, doc.file?.map Prod.fst = doc.target := by
    intro doc
    rw [Document.file?, Option.map_map]
    exact Option.map_id'
  rw [List.map_filterMap]
  exact congrArg (docs.filterMap ·) (funext hpath)

/-- The files after texts have been written to paths, one after the other. -/
inductive Written : Files → List (Text × Text) → Files → Prop where
  | nil (files : Files) : Written files [] files
  | cons {files files' files'' : Files} {path text : Text} {rest : List (Text × Text)}
      (h : files.write path (Utf8.encode text) = .ok files') (hr : Written files' rest files'') :
      Written files ((path, text) :: rest) files''

theorem Written.append {files files' : Files} {front back : List (Text × Text)}
    (h : Written files (front ++ back) files') :
    ∃ between, Written files front between ∧ Written between back files' := by
  induction front generalizing files with
  | nil => exact ⟨files, .nil _, h⟩
  | cons w front ih =>
    cases h with
    | cons hw hr =>
      obtain ⟨between, hf, hb⟩ := ih hr
      exact ⟨between, .cons hw hf, hb⟩

/-- However taking records ends, what has been written by then are the first of their documents. If
they are all taken, it is all of them, and the report says so. -/
theorem Disk.written_takeEntries {p : Plan σ} {es : List Entry} {g : Progress σ}
    {files files' : Files} {r : Except Error (Progress σ)}
    (h : effect (takeEntries system p es g) files = (r, files')) :
    ∃ writes, writes <+: (p.documents es g.state).filterMap Document.file? ∧
      Written files writes files' ∧
      ∀ g', r = .ok g' → writes = (p.documents es g.state).filterMap Document.file? ∧
        g'.report.written =
          g.report.written ++ (p.documents es g.state).filterMap Document.target := by
  induction es generalizing g files with
  | nil =>
    cases h
    refine ⟨[], List.nil_prefix, .nil _, fun g' hg => ?_⟩
    cases hg
    exact ⟨rfl, (List.append_nil _).symm⟩
  | cons e es ih =>
    have htakes := effect_takeRecord p e g files
    rw [takeEntries, effect_bind (blind_takeEntries p es)] at h
    generalize effect (takeRecord system p e.source e.index e.record g) files = r' at h htakes
    obtain ⟨r', between⟩ := r'
    generalize hout : p.outcome e g.state = out at htakes
    cases htakes with
    | written hw =>
      obtain ⟨writes, hfirst, hfiles, hall⟩ := ih h
      simp only [Plan.documents, hout]
      refine ⟨_ :: writes, (List.prefix_cons_inj _).mpr hfirst, .cons hw hfiles, fun g' hg => ?_⟩
      obtain ⟨rfl, hwritten⟩ := hall g' hg
      exact ⟨rfl, by rw [hwritten, List.append_assoc]; rfl⟩
    | kept =>
      simp only [Plan.documents, hout]
      exact ih h
    | skipped hs =>
      simp only [Plan.documents, hout]
      exact ih h
    | unwritable hw =>
      cases h
      exact ⟨[], List.nil_prefix, .nil _, nofun⟩
    | failed hs =>
      cases h
      exact ⟨[], List.nil_prefix, .nil _, nofun⟩

/-- Records that are all taken have the documents of those that give one written, and nothing
else. -/
theorem Disk.effect_takeEntries {p : Plan σ} {es : List Entry} {g g' : Progress σ}
    {files files' : Files} (h : effect (takeEntries system p es g) files = (.ok g', files')) :
    g'.report.written =
        g.report.written ++ (p.documents es g.state).filterMap Document.target ∧
      Written files ((p.documents es g.state).filterMap Document.file?) files' := by
  obtain ⟨writes, -, hfiles, hall⟩ := written_takeEntries h
  obtain ⟨rfl, hwritten⟩ := hall g' rfl
  exact ⟨hwritten, hfiles⟩

/-! ### A run -/

namespace Disk

variable (loader : Loader σ)

/-- A run takes all records in order, unless it cannot load what it needs. -/
theorem effect_run (job : Job) (files : Files) : effect (runWith system loader job) files =
    match look (loadJob system loader job) files with
    | .error e => (.error e, files)
    | .ok (plan, sources) =>
      effect (takeEntries system plan (Source.entries sources)
        (.start (loader.start plan.functions)) >>= finish system plan) files := by
  have hblind : ∀ loaded : Plan σ × List Source,
      Blind (takeSources system loaded.1 loaded.2 (.start (loader.start loaded.1.functions)) >>=
        finish system loaded.1) := by
    intro loaded
    rw [takeSources_eq]
    exact (blind_takeEntries _ _ _).bind fun _ => blind_finish _ _
  rw [runWith_eq]
  rw [effect_bind hblind, (looks_loadJob loader job).effect_eq]
  cases look (loadJob system loader job) files with
  | error e => rfl
  | ok loaded =>
    dsimp only
    rw [takeSources_eq]

theorem blind_run (job : Job) : Blind (runWith system loader job) := by
  rw [runWith_eq]
  refine (looks_loadJob loader job).blind.bind fun loaded => ?_
  dsimp only
  rw [takeSources_eq]
  exact (blind_takeEntries _ _ _).bind fun _ => blind_finish _ _

/-- What a run that succeeds has done: it has loaded what it needs, taken all records and then
finished. -/
theorem effect_run_ok {loader : Loader σ} {job : Job} {files files' : Files} {report : Report}
    (h : effect (runWith system loader job) files = (.ok report, files')) :
    ∃ plan sources g between, look (loadJob system loader job) files = .ok (plan, sources) ∧
      effect (takeEntries system plan (Source.entries sources)
        (.start (loader.start plan.functions))) files = (.ok g, between) ∧
      effect (finish system plan g) between = (.ok report, files') := by
  rw [effect_run] at h
  cases hload : look (loadJob system loader job) files with
  | error e =>
    rw [hload] at h
    cases h
  | ok loaded =>
    obtain ⟨plan, sources⟩ := loaded
    rw [hload] at h
    dsimp only at h
    rw [effect_bind (blind_finish plan)] at h
    cases htake : effect (takeEntries system plan (Source.entries sources)
        (.start (loader.start plan.functions))) files with
    | mk r between =>
      rw [htake] at h
      cases r with
      | error e => cases h
      | ok g => exact ⟨plan, sources, g, between, rfl, htake, h⟩

end Disk

end MailMerge.Batch
