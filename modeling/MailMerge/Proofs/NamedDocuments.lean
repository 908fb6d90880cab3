import MailMerge.Proofs.NumberedDocuments
import Mathlib.Data.List.Infix

/-!
# Named documents

With a name pattern, the documents of a batch are named after a field of their records. The pattern
up to its last slash is a directory, and what follows it, with the text of the field, is one name in
that directory: separators in the text are replaced, and texts that stand for no file are refused.
So a batch changes nothing but files that lie directly in the directory.
-/

namespace MailMerge

namespace Path

/-- Below a directory that is empty or ends with a slash, a name comes next. -/
theorem below_of_ends {directory : Text} (h : directory = [] ∨ ∃ above, directory = above ++ ['/'])
    (name : Text) : below directory name = directory ++ name := by
  rcases h with rfl | ⟨above, rfl⟩
  · rfl
  · simp [below]

end Path

namespace Batch

/-! ### The name of a document -/

namespace Naming

/-- A name pattern is a directory, which is empty or ends with a slash, and a field without any. -/
structure Cut (pattern directory field : Text) : Prop where
  whole : pattern = directory ++ field
  ends : directory = [] ∨ ∃ above, directory = above ++ ['/']
  no_slash : '/' ∉ field

theorem exists_cut (pattern : Text) : ∃ directory field, Cut pattern directory field := by
  by_cases h : '/' ∈ pattern
  · obtain ⟨above, field, rfl, hf⟩ := Text.exists_last h
    exact ⟨above ++ ['/'], field, by simp, .inr ⟨above, rfl⟩, hf⟩
  · exact ⟨[], pattern, rfl, .inl rfl, h⟩

theorem ofOptions_of_cut {pattern directory field : Text} (h : Cut pattern directory field) :
    ofOptions (some pattern) none = .field directory field := by
  rw [Naming.ofOptions, h.whole, Text.cutAfterLast_append h.ends h.no_slash]

theorem no_slash_fileName (value : Text) : '/' ∉ fileName value := by
  intro h
  obtain ⟨c, -, hc⟩ := List.mem_map.mp h
  split at hc
  · cases hc
  · next hs => exact hs (.inl hc)

/-- Points are no replaced separators, so replacing gives points only where they stood before. -/
theorem fileName_eq_points {value : Text} {n : Nat} :
    fileName value = List.replicate n '.' ↔ value = List.replicate n '.' := by
  have hpoint : ∀ c : Char, (if c = '/' ∨ c = '\\' then '_' else c) = '.' ↔ c = '.' := by
    intro c
    split
    · next hs =>
      rcases hs with rfl | rfl
      · decide
      · decide
    · exact Iff.rfl
  simp only [List.eq_replicate_iff, fileName, List.length_map, List.forall_mem_map, hpoint]

theorem fileName_mem_points_iff {value : Text} :
    fileName value ∈ [[], ['.'], ['.', '.']] ↔ value ∈ [[], ['.'], ['.', '.']] := by
  simp only [List.mem_cons, List.not_mem_nil, or_false]
  exact or_congr (fileName_eq_points (n := 0))
    (or_congr (fileName_eq_points (n := 1)) (fileName_eq_points (n := 2)))

/-- The names that stand for no file are the prefixes of the way up. -/
theorem isUnusable_iff {name : Text} : isUnusable name = true ↔ name <+: ['.', '.'] := by
  rw [← List.mem_inits]
  simp [isUnusable, or_assoc]

theorem isUnusable_eq_false_iff {name : Text} :
    isUnusable name = false ↔ name ∉ [[], ['.'], ['.', '.']] := by
  simp [isUnusable, and_assoc]

/-- A usable name is the name of a file with any extension after it. -/
theorem isName_append {name : Text} (h : isUnusable name = false) (hs : '/' ∉ name)
    (template : Text) : Path.IsName (name ++ extension template) := by
  have hne : ∀ t, t <+: ['.', '.'] → name ++ extension template ≠ t := by
    rintro t ht rfl
    rw [isUnusable_iff.mpr ((List.prefix_append name _).trans ht)] at h
    cases h
  refine ⟨hne _ (by decide), ?_, hne _ (by decide), hne _ (by decide)⟩
  rw [List.mem_append, not_or]
  exact ⟨hs, no_slash_extension template⟩

end Naming

/-! ### Where documents go -/

variable {σ : Type}

section Target

variable {p : Plan σ} {directory field : Text} (hp : p.naming = .field directory field)
include hp

/-- A document goes where the text of the field says, if the field is found and the text usable. -/
theorem Plan.target_iff_of_field {source record : Text} {index : Nat} {target : Option Text} :
    p.target source index record = .ok target ↔
      ∃ value kind, Record.get (Utf8.encode record) field = .ok (value, kind) ∧
        Naming.isUnusable (Naming.fileName value) = false ∧
        target = some (directory ++ (Naming.fileName value ++ p.extension)) := by
  unfold Plan.target
  rw [hp]
  dsimp only
  cases hg : Record.get (Utf8.encode record) field with
  | error e => exact ⟨nofun, nofun⟩
  | ok found =>
    obtain ⟨value, kind⟩ := found
    cases hu : Naming.isUnusable (Naming.fileName value) with
    | true =>
      simp only [Naming.fieldPath?, hu, if_true]
      refine ⟨nofun, ?_⟩
      rintro ⟨_, _, h, hu', -⟩
      cases h
      cases hu.symm.trans hu'
    | false =>
      simp only [Naming.fieldPath?, hu, Bool.false_eq_true, if_false, List.append_assoc]
      constructor
      · intro h
        cases h
        exact ⟨value, kind, rfl, hu, rfl⟩
      · rintro ⟨_, _, h, -, rfl⟩
        cases h
        rfl

/-- The document of a record goes to a name directly in the directory. -/
theorem Plan.isName_of_target {template : Text} (hx : p.extension = Naming.extension template)
    {source record : Text} {index : Nat} {target : Option Text}
    (h : p.target source index record = .ok target) :
    ∃ name, Path.IsName name ∧ target = some (directory ++ name) := by
  obtain ⟨value, kind, -, hu, rfl⟩ := (target_iff_of_field hp).mp h
  rw [hx]
  exact ⟨_, Naming.isName_append hu (Naming.no_slash_fileName value) template, rfl⟩

end Target

/-! ### What a run writes -/

/-- What is written for a record goes to its target. -/
theorem Plan.target_of_mem_files {p : Plan σ} {es : List Entry} {state : σ}
    {w : Text × Text} (h : w ∈ (p.documents es state).filterMap Document.file?) :
    ∃ e ∈ es, p.target e.source e.index e.record = .ok (some w.1) := by
  obtain ⟨doc, hd, hw⟩ := List.mem_filterMap.mp h
  obtain ⟨path, htarget, rfl⟩ := Option.map_eq_some_iff.mp hw
  obtain ⟨he, before, hout⟩ := outcome_of_mem_documents hd
  exact ⟨doc.entry, he, htarget ▸ target_of_outcome hout⟩

/-- However a run with named documents ends, what it has written are documents of records, and it
reports them all if it succeeds. -/
theorem Disk.written_run {loader : Loader σ} {job : Job} {directory field : Text}
    (hn : Naming.ofOptions job.name job.output = .field directory field) {files files' : Files}
    {r : Except Error Report} (h : effect (runWith system loader job) files = (r, files')) :
    ∃ writes, Written files writes files' ∧
      (∀ w ∈ writes, ∃ (template : Template) (functions : Option (Script σ)) (e : Entry),
        (job.plan template functions).target e.source e.index e.record = .ok (some w.1)) ∧
      ∀ report, r = .ok report → report.written = writes.map Prod.fst := by
  rw [effect_run] at h
  cases hload : look (loadJob system loader job) files with
  | error e =>
    rw [hload] at h
    cases h
    exact ⟨[], .nil _, nofun, nofun⟩
  | ok loaded =>
    obtain ⟨plan, sources⟩ := loaded
    obtain ⟨⟨template, functions, rfl⟩, -⟩ := look_loadJob_ok hload
    rw [hload] at h
    dsimp only at h
    rw [effect_bind (blind_finish _)] at h
    cases htake : effect (takeEntries system (job.plan template functions)
        (Source.entries sources) (.start (loader.start (job.plan template functions).functions)))
        files with
    | mk taken between =>
      obtain ⟨writes, hfirst, hw, hall⟩ := written_takeEntries htake
      have htargets : ∀ w ∈ writes, ∃ template, ∃ functions : Option (Script σ), ∃ e : Entry,
          (job.plan template functions).target e.source e.index e.record = .ok (some w.1) := by
        intro w hm
        obtain ⟨e, -, he⟩ := Plan.target_of_mem_files (hfirst.subset hm)
        exact ⟨template, functions, e, he⟩
      rw [htake] at h
      cases taken with
      | error e =>
        cases h
        exact ⟨writes, hw, htargets, nofun⟩
      | ok g =>
        dsimp only at h
        rw [finish_field system (p := job.plan template functions) hn, effect_pure] at h
        cases h
        refine ⟨writes, hw, htargets, fun report hr => ?_⟩
        obtain ⟨rfl, hwritten⟩ := hall g rfl
        cases hr
        rw [hwritten, Document.map_fst_files]
        rfl

/-- What is written below a directory changes nothing but entries of that directory. -/
theorem Written.place_of_change {directory : Text} {files files' : Files}
    {writes : List (Text × Text)} (h : Written files writes files')
    (hw : ∀ w ∈ writes, ∃ name, Path.IsName name ∧ w.1 = Path.below directory name)
    {place : List Text} (hp : files'.at? place ≠ files.at? place) :
    ∃ base name, files.walk [] (directory.pieces '/') = .ok base ∧ Path.IsName name ∧
      place = base ++ [name] := by
  induction h with
  | nil => exact absurd rfl hp
  | @cons files _ _ path text rest hwrite _ ih =>
    obtain ⟨name, hn, rfl⟩ := hw (path, text) List.mem_cons_self
    obtain ⟨q, hl, hd, rfl⟩ := Files.write_ok hwrite
    obtain ⟨base, hbase, rfl⟩ := Files.locate_below hn hl
    by_cases hq : place = base ++ [name]
    · exact ⟨base, name, hbase, hn, hq⟩
    · -- the directory is still where it was for the texts that follow
      rw [← Files.at?_set_ne files (.file (Utf8.encode text)) hq] at hp
      obtain ⟨base', name', hbase', hn', hplace⟩ :=
        ih (fun w hm => hw w (List.mem_cons_of_mem _ hm)) hp
      rw [Files.walk_congr (Files.at?_write hd) hbase] at hbase'
      cases hbase'
      exact ⟨base, name', hbase, hn', hplace⟩

/-- Named documents stay in their directory, which is what the name pattern holds up to its last
slash. A record is accepted exactly if its field is found and the text, with separators replaced, is
neither empty nor one of the points that stand for directories, which no other text becomes; and its
path is the directory with one name of a file after it. However a run ends, it has written texts to
such paths, and nothing has changed but what lies directly in the directory. -/
theorem named_run {loader : Loader σ} {job : Job} {pattern : Text}
    (hname : job.name = some pattern) (houtput : job.output = none) :
    ∃ directory field, Naming.Cut pattern directory field ∧
      (∀ value, Naming.fileName value ∈ [[], ['.'], ['.', '.']] ↔
        value ∈ [[], ['.'], ['.', '.']]) ∧
      (∀ (template : Template) (functions : Option (Script σ)) (e : Entry),
        let target := (job.plan template functions).target e.source e.index e.record
        ((∃ path, target = .ok (some path)) ↔
          ∃ value kind, Record.get (Utf8.encode e.record) field = .ok (value, kind) ∧
            Naming.fileName value ∉ [[], ['.'], ['.', '.']]) ∧
        ∀ document, target = .ok document →
          ∃ name, Path.IsName name ∧ document = some (directory ++ name)) ∧
      ∀ d r d', Disk.exec (runWith Disk.system loader job) d = (r, d') →
        (∃ writes, Written d.files writes d'.files ∧
          (∀ w ∈ writes, ∃ name, Path.IsName name ∧ w.1 = directory ++ name) ∧
          ∀ report, r = .ok report → report.written = writes.map Prod.fst) ∧
        ∀ place, d'.files.at? place ≠ d.files.at? place →
          ∃ base name, d.files.walk [] (directory.pieces '/') = .ok base ∧ Path.IsName name ∧
            place = base ++ [name] := by
  obtain ⟨directory, field, hcut⟩ := Naming.exists_cut pattern
  have hn : Naming.ofOptions job.name job.output = .field directory field := by
    rw [hname, houtput, Naming.ofOptions_of_cut hcut]
  have hstays : ∀ {template} {functions : Option (Script σ)} {e : Entry} {document : Option Text},
      (job.plan template functions).target e.source e.index e.record = .ok document →
        ∃ name, Path.IsName name ∧ document = some (directory ++ name) :=
    fun h => Plan.isName_of_target hn rfl h
  refine ⟨directory, field, hcut, fun _ => Naming.fileName_mem_points_iff,
    fun template functions e => ⟨?_, fun _ h => hstays h⟩, ?_⟩
  · simp only [Plan.target_iff_of_field (p := job.plan template functions) hn,
      ← Naming.isUnusable_eq_false_iff]
    constructor
    · rintro ⟨_, value, kind, hg, hu, -⟩
      exact ⟨value, kind, hg, hu⟩
    · rintro ⟨value, kind, hg, hu⟩
      exact ⟨_, value, kind, hg, hu, rfl⟩
  · intro d r d' h
    have heffect : Disk.effect (runWith Disk.system loader job) d.files = (r, d'.files) := by
      rw [← Disk.blind_run loader job d, h]
    obtain ⟨writes, hw, htargets, hreport⟩ := Disk.written_run hn heffect
    have hpaths : ∀ w ∈ writes, ∃ name, Path.IsName name ∧ w.1 = directory ++ name := by
      intro w hm
      obtain ⟨template, functions, e, he⟩ := htargets w hm
      obtain ⟨name, hname, hpath⟩ := hstays he
      exact ⟨name, hname, Option.some.inj hpath⟩
    refine ⟨⟨writes, hw, hpaths, hreport⟩, fun place hplace => hw.place_of_change ?_ hplace⟩
    intro w hm
    obtain ⟨name, hname, hpath⟩ := hpaths w hm
    exact ⟨name, hname, hpath.trans (Path.below_of_ends hcut.ends name).symm⟩

/-! ### Texts full of separators and points -/

/-- Three people, a template with an empty extension, and a directory for the badges. -/
def people : Files :=
  ((Files.empty.addDirectory "out".toList).addFile "people.json".toList
      (Utf8.encode ("[\x7b\"id\": \"../escape\"\x7d, \x7b\"id\": \".\"\x7d, ".toList ++
        "\x7b\"id\": \"...\"\x7d]".toList))).addFile "badge.".toList (Utf8.encode "$id$".toList)

/-- A badge for every person who can have one. -/
def badges : Job :=
  ⟨"people.json".toList, "badge.".toList, some "out/id".toList, none, none, true⟩

/-- Neither a way up nor a point with the bare point of the extension leads out of the directory. -/
theorem named_run_badges : badges.name = some "out/id".toList ∧ badges.output = none ∧
    ∃ report d', Disk.exec (run Disk.system badges) ⟨people, []⟩ = (.ok report, d') ∧
      report.written = ["out/.._escape.".toList, "out/....".toList] ∧ report.skipped = 1 ∧
      ∀ place, d'.files.at? place ≠ people.at? place →
        ∃ name, Path.IsName name ∧ place = ["out".toList, name] := by
  have heffect : ∃ files, Disk.effect (run Disk.system badges) people =
      (.ok ⟨["out/.._escape.".toList, "out/....".toList], 1, 2⟩, files) := by
    refine ⟨(people.addFile "out/.._escape.".toList (Utf8.encode "../escape".toList)).addFile
      "out/....".toList (Utf8.encode "...".toList), ?_⟩
    decide +kernel
  obtain ⟨files, heffect⟩ := heffect
  obtain ⟨d', hrun, -⟩ := Disk.exec_of_effect heffect
  obtain ⟨directory, field, hcut, -, -, hruns⟩ := named_run (rfl : badges.name = _) rfl
  have hdirectory : "out/".toList = directory := by
    have h := Naming.ofOptions_of_cut hcut
    injection h
  refine ⟨rfl, rfl, _, d', hrun, rfl, rfl, fun place hplace => ?_⟩
  obtain ⟨base, name, hbase, hn, rfl⟩ := (hruns _ _ _ hrun).2 place hplace
  have hout : people.walk [] (directory.pieces '/') = .ok ["out".toList] := by
    rw [← hdirectory]
    decide +kernel
  cases hbase.symm.trans hout
  exact ⟨name, hn, rfl⟩

end Batch
end MailMerge
