import MailMerge.Proofs.Documents
import MailMerge.Proofs.FileWriting
import Mathlib.Data.List.Nodup

/-!
# Numbered documents

Without a name pattern and without a single file, the documents of a batch are numbered after the
files of their records. All of them go into the directory of these files, under the name of the file
up to its first point with the number of the record after it, so that two documents have the same
path exactly if these names are the same. The last document of every name is on the disk after the
run.
-/

namespace MailMerge

namespace Path

theorem mem_of_mem_trimNames {n : Text} {names : List Text} (h : n ∈ trimNames names) :
    n ∈ names := by
  rw [trimNames, List.mem_reverse] at h
  exact List.mem_reverse.mp (List.dropWhile_sublist _ |>.subset h)

theorem trimNames_concat {name : Text} (h : IsName name) (pre : List Text) :
    trimNames (pre ++ [name]) = pre ++ [name] := by
  rw [trimNames, List.reverse_append, List.reverse_singleton, List.singleton_append,
    List.dropWhile_cons_of_neg (by simp [h.not_void]), List.reverse_cons, List.reverse_reverse]

/-- No name of a path holds a slash. -/
theorem no_slash_of_mem_names {t n : Text} (h : n ∈ (ofText t).names) : '/' ∉ n := by
  unfold ofText at h
  split at h
  · exact Text.not_mem_of_mem_pieces (mem_of_mem_trimNames h)
  · cases h
  · exact Text.not_mem_of_mem_pieces (mem_of_mem_trimNames h)
  · exact Text.not_mem_of_mem_pieces (mem_of_mem_trimNames h)

theorem no_slash_of_fileName? {t n : Text} (h : (ofText t).fileName? = some n) : '/' ∉ n :=
  no_slash_of_mem_names (List.mem_of_getLast? (Option.filter_eq_some_iff.mp h).1)

/-- A path that ends with a slash and a name, taken apart. -/
theorem ofText_slash (w : Text) :
    ∃ lead pre, ∀ name, IsName name → ofText (w ++ '/' :: name) = ⟨lead, pre ++ [name]⟩ := by
  have hpieces : ∀ (u name : Text), IsName name →
      trimNames (Text.pieces '/' (u ++ '/' :: name)) = Text.pieces '/' u ++ [name] := by
    intro u name hn
    rw [Text.pieces_mark, Text.pieces_of_not_mem hn.no_slash, trimNames_concat hn]
  rcases w with _ | ⟨c, w⟩
  · refine ⟨['/'], [], fun name hn => ?_⟩
    rw [List.nil_append, ofText, Text.pieces_of_not_mem hn.no_slash]
    exact congrArg _ (trimNames_concat hn [])
  · by_cases hc : c = '/'
    · subst hc
      exact ⟨['/'], _, fun name hn => congrArg _ (hpieces w name hn)⟩
    · by_cases hp : c = '.'
      · subst hp
        rcases w with _ | ⟨d, w⟩
        · exact ⟨['.'], _, fun name hn => congrArg _ (hpieces [] name hn)⟩
        · by_cases hd : d = '/'
          · subst hd
            exact ⟨['.'], _, fun name hn => congrArg _ (hpieces ('/' :: w) name hn)⟩
          · refine ⟨[], Text.pieces '/' ('.' :: d :: w), fun name hn => ?_⟩
            rw [← hpieces ('.' :: d :: w) name hn]
            simp [ofText, hd]
      · refine ⟨[], Text.pieces '/' (c :: w), fun name hn => ?_⟩
        rw [← hpieces (c :: w) name hn]
        simp [ofText, hc, hp]

/-- A name below a directory, taken apart. -/
theorem ofText_below {directory : Text} (h : directory ≠ []) :
    ∃ lead pre, ∀ name, IsName name → ofText (below directory name) = ⟨lead, pre ++ [name]⟩ := by
  obtain ⟨w, hw⟩ : ∃ w, ∀ name, below directory name = w ++ '/' :: name := by
    obtain ⟨w, c, rfl⟩ := List.eq_nil_or_concat directory |>.resolve_left h
    by_cases hc : c = '/'
    · exact ⟨w, fun name => by simp [below, hc]⟩
    · exact ⟨w ++ [c], fun name => by simp [below, hc]⟩
  simp only [hw]
  exact ofText_slash w

end Path

namespace Batch

open Parsing (ok_of_bind)

/-! ### The name of a document -/

namespace Naming

/-- The directory into which the documents of a file go. -/
def directory (source : Text) : Text :=
  if (Path.ofText source).fileName?.isSome then (Path.ofText source).parent.toText else source

/-- The name of a file up to its first point, with a number after it. -/
def number (source : Text) (index : Nat) : Text :=
  ((Path.ofText source).fileName?.getD []).takeWhile (· ≠ '.') ++ Text.ofNat index

theorem numberedPath_eq (source : Text) (index : Nat) (extension : Text) :
    numberedPath source index extension =
      Path.below (directory source) (number source index ++ extension) := by
  unfold numberedPath Path.withFileName directory number
  split
  · rfl
  · rfl

theorem below_inj {directory a b : Text} :
    Path.below directory a = Path.below directory b ↔ a = b := by
  unfold Path.below
  split
  · rfl
  · split
    · exact List.append_right_inj directory
    · simp

/-- The documents of all files of a directory go into the same one. -/
theorem directory_below {dir : Text} (h : dir ≠ []) :
    ∃ d, ∀ name, Path.IsName name → directory (Path.below dir name) = d := by
  obtain ⟨lead, pre, hp⟩ := Path.ofText_below h
  refine ⟨Path.toText ⟨lead, Path.trimNames pre⟩, fun name hn => ?_⟩
  have hname : (Path.mk lead (pre ++ [name])).fileName? = some name := by
    simp [Path.fileName?, hn.ne_up]
  rw [directory, hp name hn, hname, Path.parent, List.dropLast_concat]
  rfl

theorem no_slash_extension (template : Text) : '/' ∉ extension template := by
  unfold extension
  split
  · next e he =>
    obtain ⟨name, hname, he⟩ := Option.bind_eq_some_iff.mp he
    have hsub : e ⊆ name := by
      unfold Path.extensionOf? at he
      split at he
      · cases he
      · cases he
      · cases he
        intro c hc
        exact List.mem_reverse.mp ((List.takeWhile_sublist _).subset (List.mem_reverse.mp hc))
    have hslash := Path.no_slash_of_fileName? hname
    simpa using fun h => hslash (hsub h)
  · exact List.not_mem_nil

theorem no_slash_number (source : Text) (index : Nat) : '/' ∉ number source index := by
  rw [number, List.mem_append, not_or]
  constructor
  · intro h
    have h := (List.takeWhile_sublist _).subset h
    cases hname : (Path.ofText source).fileName? with
    | none =>
      rw [hname] at h
      cases h
    | some name =>
      rw [hname] at h
      exact Path.no_slash_of_fileName? hname h
  · intro h
    cases Nat.isDigit_of_mem_toDigits (by decide) (by decide) h

/-- A numbered name with the extension of a template is the name of a file. -/
theorem isName_number (source : Text) (index : Nat) (template : Text) :
    Path.IsName (number source index ++ extension template) := by
  obtain ⟨c, hc, hdigit⟩ : ∃ c ∈ number source index ++ extension template, c.isDigit = true := by
    obtain ⟨c, r, hr⟩ := List.exists_cons_of_ne_nil
      (Nat.toDigits_ne_nil : Nat.toDigits 10 index ≠ [])
    have hc : c ∈ Nat.toDigits 10 index := hr ▸ List.mem_cons_self
    exact ⟨c, List.mem_append_left _ (List.mem_append_right _ hc),
      Nat.isDigit_of_mem_toDigits (by decide) (by decide) hc⟩
  have hpoint : ∀ t : Text, (∀ d ∈ t, d = '.') → number source index ++ extension template ≠ t := by
    rintro t ht rfl
    rw [ht c hc] at hdigit
    cases hdigit
  refine ⟨hpoint [] (by simp), ?_, hpoint _ (by simp), hpoint _ (by simp)⟩
  rw [List.mem_append, not_or]
  exact ⟨no_slash_number source index, no_slash_extension template⟩

end Naming

/-! ### The files of a run -/

namespace Disk

variable {files : Files} {path pattern input : Text} {paths : List Text} {sources : List Source}

/-- The files of a directory that are chosen have names below it. -/
theorem filesIn_ok (hf : files.WellNamed) {dir : Text} {keep : Text → Bool}
    (h : look (Source.filesIn system dir keep) files = .ok paths) :
    ∃ names : List Text, (∀ n ∈ names, Path.IsName n) ∧ paths = names.map (Path.below dir) := by
  rw [look_filesIn] at h
  split at h
  · cases h
  · next names hl =>
    cases h
    exact ⟨_, fun n hn => Files.isName_of_mem_list hf hl ((List.mem_filter.mp hn).1), rfl⟩

/-- The files that a path names are one, or lie in one directory. -/
theorem findFiles_ok (hf : files.WellNamed)
    (h : look (Source.findFiles system path) files = .ok paths) :
    paths = [path] ∨ ∃ (dir : Text) (names : List Text), dir ≠ [] ∧ (∀ n ∈ names, Path.IsName n) ∧
      paths = names.map (Path.below dir) := by
  rw [look_findFiles] at h
  dsimp only at h
  split at h
  · next hlast =>
    obtain ⟨names, hn, hp⟩ := filesIn_ok hf h
    refine .inr ⟨path, names, ?_, hn, hp⟩
    rintro rfl
    cases hlast
  · split at h
    · obtain ⟨names, hn, hp⟩ := filesIn_ok hf h
      refine .inr ⟨_, names, ?_, hn, hp⟩
      split
      · exact List.cons_ne_nil _ _
      · next hd =>
        intro he
        rw [he] at hd
        exact hd rfl
    · split at h
      · cases h
        exact .inl rfl
      · cases h

theorem loadAll_ok (h : look (Source.loadAll system pattern paths) files = .ok sources) :
    sources.map Source.path = paths := by
  induction paths generalizing sources with
  | nil =>
    cases h
    rfl
  | cons path paths ih =>
    rw [Source.loadAll, look_bind (looks_load path pattern) fun _ =>
      (looks_loadAll pattern paths).bind fun _ => .pure _] at h
    obtain ⟨records, -, h⟩ := ok_of_bind h
    rw [look_bind (looks_loadAll pattern paths) fun _ => .pure _] at h
    obtain ⟨rest, hr, h⟩ := ok_of_bind h
    cases h
    exact congrArg (path :: ·) (ih hr)

/-- The documents of all files of a run go into one directory. -/
theorem directory_of_discover (hf : files.WellNamed)
    (h : look (Source.discover system input) files = .ok sources) :
    ∃ d, ∀ s ∈ sources, Naming.directory s.path = d := by
  rw [look_discover] at h
  obtain ⟨paths, hp, h⟩ := ok_of_bind h
  have hpaths := loadAll_ok h
  have hmem : ∀ s ∈ sources, s.path ∈ paths := fun s hs => hpaths ▸ List.mem_map_of_mem hs
  rcases findFiles_ok hf hp with rfl | ⟨dir, names, hdir, hn, rfl⟩
  · exact ⟨_, fun s hs => congrArg _ (List.mem_singleton.mp (hmem s hs))⟩
  · obtain ⟨d, hd⟩ := Naming.directory_below hdir
    refine ⟨d, fun s hs => ?_⟩
    obtain ⟨n, hm, he⟩ := List.mem_map.mp (hmem s hs)
    rw [← he, hd n (hn n hm)]

end Disk

/-! ### The documents of a run -/

variable {σ : Type}

/-- The numbered name of the document of a record, without the extension. -/
def Entry.number (e : Entry) : Text := Naming.number e.source e.index

/-- The numbered path of the document of a record. -/
def Entry.path (e : Entry) (extension : Text) : Text :=
  Naming.numberedPath e.source e.index extension

theorem source_of_mem_entries {sources : List Source} {e : Entry}
    (h : e ∈ Source.entries sources) : ∃ s ∈ sources, e.source = s.path := by
  obtain ⟨s, hs, he⟩ := List.mem_flatMap.mp h
  obtain ⟨r, -, rfl⟩ := List.mem_map.mp he
  exact ⟨s, hs, rfl⟩

/-- Every document of a numbered batch has the numbered path of its record. -/
theorem Plan.target_of_mem_documents {p : Plan σ} (hp : p.naming = .numbered) {es : List Entry}
    {state : σ} {doc : Document} (h : doc ∈ p.documents es state) :
    doc.entry ∈ es ∧ doc.target = some (doc.entry.path p.extension) := by
  obtain ⟨hentry, before, hout⟩ := outcome_of_mem_documents h
  refine ⟨hentry, ?_⟩
  have htarget := target_of_outcome hout
  rw [target, hp] at htarget
  exact (Except.ok.inj htarget).symm

theorem Plan.targets_documents {p : Plan σ} (hp : p.naming = .numbered) (es : List Entry)
    (state : σ) : (p.documents es state).filterMap Document.target =
      (p.documents es state).map (·.entry.path p.extension) := by
  rw [← List.filterMap_eq_map]
  exact List.filterMap_congr fun doc hd => (target_of_mem_documents hp hd).2

theorem Plan.files_documents {p : Plan σ} (hp : p.naming = .numbered) (es : List Entry)
    (state : σ) : (p.documents es state).filterMap Document.file? =
      (p.documents es state).map fun doc => (doc.entry.path p.extension, doc.text) := by
  rw [← List.filterMap_eq_map]
  refine List.filterMap_congr fun doc hd => ?_
  rw [Document.file?, (target_of_mem_documents hp hd).2]
  rfl

/-- The documents of a numbered run lie in one directory, under their numbered names. -/
theorem Disk.path_below {loader : Loader σ} {job : Job} {files : Files} {plan : Plan σ}
    {sources : List Source} (hf : files.WellNamed)
    (h : look (loadJob system loader job) files = .ok (plan, sources)) :
    ∃ dir, ∀ e ∈ Source.entries sources, ∀ extension,
      e.path extension = Path.below dir (e.number ++ extension) := by
  obtain ⟨dir, hdir⟩ := directory_of_discover hf (look_loadJob_ok h).2
  refine ⟨dir, fun e he extension => ?_⟩
  obtain ⟨s, hs, hpath⟩ := source_of_mem_entries he
  rw [Entry.path, Naming.numberedPath_eq, hpath, hdir s hs, ← hpath]
  rfl

/-- A text stays if only other names are written to in its directory. -/
theorem Written.read_beside {directory name : Text} {files files' : Files} {c : Bytes}
    {writes : List (Text × Text)} (hn : Path.IsName name)
    (hothers : ∀ w ∈ writes, ∃ other, Path.IsName other ∧ other ≠ name ∧
      w.1 = Path.below directory other)
    (h : Written files writes files') (hr : files.read (Path.below directory name) = .ok c) :
    files'.read (Path.below directory name) = .ok c := by
  induction h with
  | nil => exact hr
  | cons hw _ ih =>
    obtain ⟨other, ho, hne, rfl⟩ := hothers _ List.mem_cons_self
    exact ih (fun w hmem => hothers w (List.mem_cons_of_mem _ hmem))
      (Files.read_write_beside ho hn hne hw hr)

/-- The last of the texts written to one name of a directory can be read afterwards. -/
theorem Written.read_last {directory name text : Text} {files files' : Files}
    {front back : List (Text × Text)} (hn : Path.IsName name)
    (hback : ∀ w ∈ back, ∃ other, Path.IsName other ∧ other ≠ name ∧
      w.1 = Path.below directory other)
    (h : Written files (front ++ (Path.below directory name, text) :: back) files') :
    files'.read (Path.below directory name) = .ok (Utf8.encode text) := by
  obtain ⟨between, -, h⟩ := h.append
  cases h with
  | cons hw hr => exact hr.read_beside hn hback (Files.read_write hw)

/-- What a run with numbered documents leaves: every record that gives a document has it written to
its numbered path, no path comes twice exactly if no numbered name does, and a document whose
numbered name no later one has can be read from its path. -/
theorem numbered_run {loader : Loader σ} {job : Job} {d d' : Disk} {report : Report}
    (hname : job.name = none) (houtput : job.output = none) (hf : d.files.WellNamed)
    (h : Disk.exec (runWith Disk.system loader job) d = (.ok report, d')) :
    ∃ plan sources, Disk.look (loadJob Disk.system loader job) d.files = .ok (plan, sources) ∧
      let docs := plan.documents (Source.entries sources) (loader.start plan.functions)
      report.written = docs.map (·.entry.path plan.extension) ∧
      (report.written.Nodup ↔ (docs.map (·.entry.number)).Nodup) ∧
      ∀ front doc back, docs = front ++ doc :: back →
        (∀ later ∈ back, later.entry.number ≠ doc.entry.number) →
        d'.files.read (doc.entry.path plan.extension) = .ok (Utf8.encode doc.text) := by
  have h : Disk.effect (runWith Disk.system loader job) d.files = (.ok report, d'.files) := by
    rw [← Disk.blind_run loader job d, h]
  obtain ⟨plan, sources, g, between, hload, htake, hfinish⟩ := Disk.effect_run_ok h
  obtain ⟨⟨template, functions, rfl⟩, -⟩ := Disk.look_loadJob_ok hload
  obtain ⟨dir, hdir⟩ := Disk.path_below hf hload
  refine ⟨_, sources, hload, ?_⟩
  intro docs
  have hp : (job.plan template functions).naming = .numbered := by
    simp [Job.plan, hname, houtput, Naming.ofOptions]
  obtain ⟨hwritten, hfiles⟩ := Disk.effect_takeEntries htake
  rw [Plan.targets_documents hp] at hwritten
  rw [Plan.files_documents hp] at hfiles
  have hdone : g.report = report ∧ between = d'.files := by
    rw [finish_numbered Disk.system hp, Disk.effect_pure] at hfinish
    cases hfinish
    exact ⟨rfl, rfl⟩
  obtain ⟨rfl, rfl⟩ := hdone
  have hpaths : g.report.written = docs.map (·.entry.path (Naming.extension job.template)) :=
    hwritten
  have hentry : ∀ doc ∈ docs, doc.entry ∈ Source.entries sources :=
    fun doc hd => (Plan.target_of_mem_documents hp hd).1
  -- below one directory, the paths are the same as the names
  have hbelow : docs.map (·.entry.path (Naming.extension job.template)) =
      (docs.map (·.entry.number)).map fun n =>
        Path.below dir (n ++ Naming.extension job.template) := by
    rw [List.map_map]
    exact List.map_congr_left fun doc hd => hdir _ (hentry doc hd) _
  refine ⟨hpaths, ?_, ?_⟩
  · rw [hpaths, hbelow]
    refine List.nodup_map_iff fun a b hab => ?_
    exact List.append_cancel_right (Naming.below_inj.mp hab)
  · intro front doc back hdocs hback
    have hd : ∀ other ∈ doc :: back, other.entry ∈ Source.entries sources := fun other ho =>
      hentry other (hdocs ▸ List.mem_append_right front ho)
    change Written d.files (docs.map _) d'.files at hfiles
    rw [hdocs, List.map_append, List.map_cons, hdir _ (hd doc List.mem_cons_self)] at hfiles
    rw [hdir _ (hd doc List.mem_cons_self)]
    refine hfiles.read_last (Naming.isName_number _ _ _) fun w hw => ?_
    obtain ⟨later, hl, rfl⟩ := List.mem_map.mp hw
    exact ⟨_, Naming.isName_number _ _ _, fun h => hback later hl (List.append_cancel_right h),
      hdir _ (hd later (List.mem_cons_of_mem _ hl)) _⟩

/-! ### Two files with one numbered name -/

/-- Two files with a person each, and a template. -/
def versions : Files :=
  ((Files.empty.addFile "data/people.v1.json".toList
      (Utf8.encode "\x7b\"name\": \"Ada\"\x7d".toList)).addFile "data/people.v2.json".toList
      (Utf8.encode "\x7b\"name\": \"Bob\"\x7d".toList)).addFile "card.md".toList
    (Utf8.encode "Dear $name$".toList)

/-- A card for every person. -/
def cards : Job := ⟨"data/".toList, "card.md".toList, none, none, none, false⟩

theorem findFiles_versions : Disk.look (Source.findFiles Disk.system "data/".toList) versions =
    .ok ["data/people.v1.json".toList, "data/people.v2.json".toList] := by
  have hdir : versions.locate "data/".toList = .ok ["data".toList] := by decide +kernel
  have hlist : versions.list "data/".toList =
      .ok ["people.v1.json".toList, "people.v2.json".toList] :=
    (Files.list_of_sorted hdir (by decide +kernel) (by decide +kernel)).trans (by decide +kernel)
  rw [Disk.look_findFiles, if_pos (by decide +kernel), Disk.look_filesIn, hlist]
  decide +kernel

/-- The run gives both documents the same path. -/
theorem effect_run_cards : Disk.effect (run Disk.system cards) versions =
    (.ok ⟨["data/people0.md".toList, "data/people0.md".toList], 0, 2⟩,
      versions.addFile "data/people0.md".toList (Utf8.encode "Dear Bob".toList)) := by
  have hinput : Source.splitInput cards.input = ("data/".toList, []) := by decide +kernel
  rw [run, Disk.effect_run, Disk.look_loadJob, Disk.look_discover, hinput, findFiles_versions]
  decide +kernel

/-- Of two documents with one numbered name, the second one stays. -/
theorem numbered_run_cards : ∃ report d',
    Disk.exec (run Disk.system cards) ⟨versions, []⟩ = (.ok report, d') ∧
      d'.files.read "data/people0.md".toList = .ok (Utf8.encode "Dear Bob".toList) := by
  have hinput : Source.splitInput cards.input = ("data/".toList, []) := by decide +kernel
  -- the documents of the run, in order
  have hdocs : (Disk.look (loadJob Disk.system Functions.loader cards) versions).map
        (fun loaded => (loaded.1.extension, loaded.1.documents (Source.entries loaded.2)
          (Functions.loader.start loaded.1.functions))) =
      .ok (".md".toList, [
        ⟨⟨"data/people.v1.json".toList, 0, "\x7b\"name\":\"Ada\"\x7d".toList⟩, "Dear Ada".toList,
          some "data/people0.md".toList⟩,
        ⟨⟨"data/people.v2.json".toList, 0, "\x7b\"name\":\"Bob\"\x7d".toList⟩, "Dear Bob".toList,
          some "data/people0.md".toList⟩]) := by
    rw [Disk.look_loadJob, Disk.look_discover, hinput, findFiles_versions]
    decide +kernel
  obtain ⟨d', hrun, -⟩ := Disk.exec_of_effect effect_run_cards
  obtain ⟨plan, sources, hload, -, -, hread⟩ :=
    numbered_run (rfl : cards.name = none) rfl (by decide +kernel) hrun
  rw [hload] at hdocs
  obtain ⟨hextension, hdocs⟩ := Prod.mk.inj (Except.ok.inj hdocs)
  have hlast := hread [_] _ [] hdocs fun _ h => absurd h List.not_mem_nil
  rw [hextension] at hlast
  exact ⟨_, d', hrun, hlast⟩

/-- A run can write two documents to one path, so that the first one is lost. -/
theorem versions_share_a_document : ∃ report d',
    Disk.exec (run Disk.system cards) ⟨versions, []⟩ = (.ok report, d') ∧
      report.rendered = 2 ∧ ¬ report.written.Nodup ∧
      ∀ path ∈ report.written, d'.files.read path = .ok (Utf8.encode "Dear Bob".toList) := by
  obtain ⟨d', hrun, hfiles⟩ := Disk.exec_of_effect effect_run_cards
  refine ⟨_, d', hrun, rfl, by decide +kernel, ?_⟩
  rw [hfiles]
  decide +kernel

end Batch
end MailMerge
