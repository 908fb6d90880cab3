import MailMerge.Proofs.NumberedDocuments
import MailMerge.Proofs.SingleRecord

/-!
# Batches without user functions

Without user functions a record gives in a batch what it gives alone. If failures are skipped, a
batch writes what the records give that do not fail, and counts the others; else it stops at the
first record that fails, and what is written by then are the documents of the records before it.
-/

namespace MailMerge.Batch

variable {σ : Type}

/-! ### A record alone -/

/-- The document that a record gives alone, without user functions. -/
def Plan.alone (p : Plan σ) (e : Entry) : Except RecordError Document :=
  (p.document e.source e.index e.record
      (p.template.render (.ofRecord (Utf8.encode e.record) none : Context Unit) ()).result).map
    fun d => ⟨e, d.1, d.2⟩

/-- Where a document goes: to its numbered path, to the path that a field of its record names, or
into the single file. -/
def Plan.Placed (p : Plan σ) (doc : Document) : Prop :=
  match p.naming with
  | .numbered => doc.target = some (doc.entry.path p.extension)
  | .field directory pattern => ∃ value kind path,
      Record.get (Utf8.encode doc.entry.record) pattern = .ok (value, kind) ∧
        Naming.fieldPath? directory value p.extension = some path ∧ doc.target = some path
  | .single _ => doc.target = none

/-- The documents of the records that give one alone. -/
def Plan.documentsAlone (p : Plan σ) (es : List Entry) : List Document :=
  es.filterMap fun e => (p.alone e).toOption

/-- What a batch writes while it takes records: documents with files of their own. -/
def Plan.early (p : Plan σ) (docs : List Document) : List (Text × Text) :=
  match p.naming with
  | .single _ => []
  | _ => docs.filterMap Document.file?

/-- What a batch writes in the end: the single file, with all texts. -/
def Plan.late (p : Plan σ) (docs : List Document) : List (Text × Text) :=
  match p.naming with
  | .single output => [(Naming.singlePath output p.extension, docs.flatMap Document.text)]
  | _ => []

namespace Plan

variable {p : Plan σ}

/-- Without user functions their state makes no difference to a record. -/
theorem outcome_eq_alone (hp : p.functions = none) (e : Entry) (state : σ) :
    (p.outcome e state).map (fun d => ⟨e, d.1, d.2⟩) = p.alone e := by
  rw [outcome, render_plain hp, alone]

/-- Where the document of a record goes. -/
theorem placed_of_alone {e : Entry} {doc : Document} (h : p.alone e = .ok doc) :
    doc.entry = e ∧ p.Placed doc := by
  unfold alone document target at h
  unfold Placed
  split at h
  · cases h
  · cases hn : p.naming with
    | numbered =>
      rw [hn] at h
      cases h
      exact ⟨rfl, rfl⟩
    | single output =>
      rw [hn] at h
      cases h
      exact ⟨rfl, rfl⟩
    | field directory pattern =>
      rw [hn] at h
      dsimp only at h ⊢
      split at h
      · cases h
      · next value kind hget =>
        split at h
        · next path hpath =>
          cases h
          exact ⟨rfl, value, kind, path, hget, hpath, rfl⟩
        · cases h

/-- In a single file no document has a file of its own. -/
theorem target_of_single {output : Text} (hp : p.naming = .single output) {e : Entry}
    {doc : Document} (h : p.alone e = .ok doc) : doc.target = none := by
  have hplaced := (placed_of_alone h).2
  unfold Placed at hplaced
  rwa [hp] at hplaced

theorem alone_of_mem_documentsAlone {es : List Entry} {doc : Document}
    (h : doc ∈ p.documentsAlone es) : ∃ e ∈ es, p.alone e = .ok doc := by
  obtain ⟨e, he, hdoc⟩ := List.mem_filterMap.mp h
  cases ha : p.alone e with
  | error err =>
    rw [ha] at hdoc
    cases hdoc
  | ok d =>
    rw [ha] at hdoc
    cases hdoc
    exact ⟨e, he, ha⟩

theorem documentsAlone_append (p : Plan σ) (es fs : List Entry) :
    p.documentsAlone (es ++ fs) = p.documentsAlone es ++ p.documentsAlone fs :=
  List.filterMap_append

theorem documentsAlone_ok {e : Entry} {doc : Document} (h : p.alone e = .ok doc) :
    p.documentsAlone [e] = [doc] := by
  rw [documentsAlone, List.filterMap_cons, h]
  rfl

theorem documentsAlone_error {e : Entry} {err : RecordError} (h : p.alone e = .error err) :
    p.documentsAlone [e] = [] := by
  rw [documentsAlone, List.filterMap_cons, h]
  rfl

/-- The documents with files of their own are what is written while records are taken. -/
theorem early_documentsAlone (es : List Entry) :
    p.early (p.documentsAlone es) = (p.documentsAlone es).filterMap Document.file? := by
  unfold early
  split
  · next output hp =>
    refine (List.filterMap_eq_nil_iff.mpr fun doc hd => ?_).symm
    obtain ⟨e, -, he⟩ := alone_of_mem_documentsAlone hd
    rw [Document.file?, target_of_single hp he]
    rfl
  · rfl

theorem map_early_documentsAlone (es : List Entry) :
    (p.early (p.documentsAlone es)).map Prod.fst =
      (p.documentsAlone es).filterMap Document.target := by
  rw [early_documentsAlone, Document.map_fst_files]

/-- Of records that do not all give a document alone, one is the first that does not. -/
theorem exists_first_failure {es : List Entry} (h : ¬ ∀ e ∈ es, (p.alone e).isOk = true) :
    ∃ front e back err, es = front ++ e :: back ∧ (∀ f ∈ front, (p.alone f).isOk = true) ∧
      p.alone e = .error err := by
  have hfound : (es.find? fun e => !(p.alone e).isOk).isSome = true := by
    rw [List.find?_isSome]
    simpa using h
  obtain ⟨e, he⟩ := Option.isSome_iff_exists.mp hfound
  obtain ⟨hfails, front, back, hes, hfront⟩ := List.find?_eq_some_iff_append.mp he
  cases ha : p.alone e with
  | ok doc =>
    rw [ha] at hfails
    cases hfails
  | error err => exact ⟨front, e, back, err, hes, fun f hf => by simpa using hfront f hf, ha⟩

end Plan

/-! ### All records -/

/-- What a batch has gathered from records if it takes them all. -/
structure Gathers (p : Plan σ) (es : List Entry) (g g' : Progress σ) : Prop where
  written : g'.report.written =
    g.report.written ++ (p.documentsAlone es).filterMap Document.target
  rendered : g'.report.rendered = g.report.rendered + (p.documentsAlone es).length
  counted : g'.report.rendered + g'.report.skipped =
    g.report.rendered + g.report.skipped + es.length
  combined : ∀ output, p.naming = .single output →
    g'.combined = g.combined ++ (p.documentsAlone es).flatMap Document.text

namespace Gathers

variable {p : Plan σ} {e : Entry} {es : List Entry} {g g' g'' : Progress σ}

theorem nil (p : Plan σ) (g : Progress σ) : Gathers p [] g g where
  written := (List.append_nil _).symm
  rendered := rfl
  counted := rfl
  combined _ _ := (List.append_nil _).symm

theorem cons (h : Gathers p [e] g g') (hs : Gathers p es g' g'') : Gathers p (e :: es) g g'' := by
  have hdocs := p.documentsAlone_append [e] es
  rw [List.singleton_append] at hdocs
  refine ⟨?_, ?_, ?_, fun output hp => ?_⟩
  · rw [hs.written, h.written, hdocs, List.filterMap_append, List.append_assoc]
  · rw [hs.rendered, h.rendered, hdocs, List.length_append, Nat.add_assoc]
  · rw [hs.counted, h.counted]
    simp only [List.length_cons, List.length_nil]
    omega
  · rw [hs.combined output hp, h.combined output hp, hdocs, List.flatMap_append, List.append_assoc]

/-- A record whose document has been written. -/
theorem written_one {text path : Text} (h : p.alone e = .ok ⟨e, text, some path⟩)
    (state : σ) :
    Gathers p [e] g ⟨⟨g.report.written ++ [path], g.report.skipped, g.report.rendered + 1⟩,
      g.combined, state⟩ := by
  have hdocs := p.documentsAlone_ok h
  refine ⟨by rw [hdocs]; rfl, by rw [hdocs]; rfl, Nat.add_right_comm _ _ _, fun output hp => ?_⟩
  cases Plan.target_of_single hp h

/-- A record whose text has been kept for the single file. -/
theorem kept_one {text : Text} (h : p.alone e = .ok ⟨e, text, none⟩) (state : σ) :
    Gathers p [e] g ⟨⟨g.report.written, g.report.skipped, g.report.rendered + 1⟩,
      g.combined ++ text, state⟩ := by
  have hdocs := p.documentsAlone_ok h
  refine ⟨by rw [hdocs]; exact (List.append_nil _).symm, by rw [hdocs]; rfl,
    Nat.add_right_comm _ _ _, fun output hp => ?_⟩
  rw [hdocs]
  exact congrArg (g.combined ++ ·) (List.append_nil text).symm

/-- A record that has been left out. -/
theorem skipped_one {err : RecordError} (h : p.alone e = .error err) (state : σ) :
    Gathers p [e] g ⟨⟨g.report.written, g.report.skipped + 1, g.report.rendered⟩, g.combined,
      state⟩ := by
  have hdocs := p.documentsAlone_error h
  exact ⟨by rw [hdocs]; exact (List.append_nil _).symm, by rw [hdocs]; rfl, rfl,
    fun output hp => by rw [hdocs]; exact (List.append_nil _).symm⟩

end Gathers

namespace Disk

variable {p : Plan σ} {e : Entry} {files files' : Files}

/-- A record that does not fail, or may fail, and whose document can be written. -/
theorem effect_takeRecord_ok (hp : p.functions = none) (g : Progress σ)
    (hgo : p.skipErrors = true ∨ (p.alone e).isOk = true)
    (hw : Written files ((p.documentsAlone [e]).filterMap Document.file?) files') :
    ∃ g', effect (takeRecord system p e.source e.index e.record g) files = (.ok g', files') ∧
      Gathers p [e] g g' := by
  have htakes := effect_takeRecord p e g files
  have halone := Plan.outcome_eq_alone hp e g.state
  generalize effect (takeRecord system p e.source e.index e.record g) files = r at htakes ⊢
  obtain ⟨r, after⟩ := r
  generalize p.outcome e g.state = out at htakes halone
  cases htakes with
  | written hw' =>
    rw [p.documentsAlone_ok halone.symm] at hw
    obtain - | ⟨h, hr⟩ := hw
    cases hr
    cases hw'.symm.trans h
    exact ⟨_, rfl, .written_one halone.symm _⟩
  | unwritable hw' =>
    rw [p.documentsAlone_ok halone.symm] at hw
    obtain - | ⟨h, hr⟩ := hw
    cases hw'.symm.trans h
  | kept =>
    rw [p.documentsAlone_ok halone.symm] at hw
    cases hw
    exact ⟨_, rfl, .kept_one halone.symm _⟩
  | skipped hs =>
    rw [p.documentsAlone_error halone.symm] at hw
    cases hw
    exact ⟨_, rfl, .skipped_one halone.symm _⟩
  | failed hs =>
    rw [hs, ← halone] at hgo
    exact absurd hgo (by simp [Except.map, Except.isOk, Except.toBool])

/-- A record that fails and may not. -/
theorem effect_takeRecord_error (hp : p.functions = none) (g : Progress σ) {err : RecordError}
    (hs : p.skipErrors = false) (h : p.alone e = .error err) :
    effect (takeRecord system p e.source e.index e.record g) files =
      (.error (.record e.index e.source err), files) := by
  have htakes := effect_takeRecord p e g files
  have halone := Plan.outcome_eq_alone hp e g.state
  generalize effect (takeRecord system p e.source e.index e.record g) files = r at htakes ⊢
  obtain ⟨r, after⟩ := r
  generalize p.outcome e g.state = out at htakes halone
  rw [h] at halone
  cases htakes with
  | written hw => cases halone
  | unwritable hw => cases halone
  | kept => cases halone
  | skipped hs' => cases hs.symm.trans hs'
  | failed hs' =>
    cases halone
    rfl

/-- Records are all taken if none of them fails, or failures are skipped, and their documents can be
written. -/
theorem effect_takeEntries_ok (hp : p.functions = none) {es : List Entry} (g : Progress σ)
    (hgo : p.skipErrors = true ∨ ∀ e ∈ es, (p.alone e).isOk = true)
    (hw : Written files ((p.documentsAlone es).filterMap Document.file?) files') :
    ∃ g', effect (takeEntries system p es g) files = (.ok g', files') ∧ Gathers p es g g' := by
  induction es generalizing g files with
  | nil =>
    cases hw
    exact ⟨g, rfl, .nil p g⟩
  | cons e es ih =>
    rw [← List.singleton_append, p.documentsAlone_append, List.filterMap_append] at hw
    obtain ⟨between, hfirst, hrest⟩ := hw.append
    obtain ⟨g', heff, hone⟩ := effect_takeRecord_ok hp g
      (hgo.imp_right fun h => h e List.mem_cons_self) hfirst
    obtain ⟨g'', hlater, hall⟩ := ih g'
      (hgo.imp_right fun h e he => h e (List.mem_cons_of_mem _ he)) hrest
    refine ⟨g'', ?_, hone.cons hall⟩
    rw [takeEntries, effect_bind (blind_takeEntries p es), heff]
    exact hlater

/-- The first record that fails ends a batch. -/
theorem effect_takeEntries_error (hp : p.functions = none) {front : List Entry}
    (back : List Entry) (g : Progress σ) {err : RecordError} (hs : p.skipErrors = false)
    (hfront : ∀ e ∈ front, (p.alone e).isOk = true) (h : p.alone e = .error err)
    (hw : Written files ((p.documentsAlone front).filterMap Document.file?) files') :
    effect (takeEntries system p (front ++ e :: back) g) files =
      (.error (.record e.index e.source err), files') := by
  obtain ⟨g', heff, -⟩ := effect_takeEntries_ok hp g (.inr hfront) hw
  rw [takeEntries_append, effect_bind (blind_takeEntries p _), heff]
  dsimp only
  rw [takeEntries, effect_bind (blind_takeEntries p _), effect_takeRecord_error hp g' hs h]

/-- The plan of a job without functions. -/
theorem plan_of_loadJob {loader : Loader σ} {job : Job} {plan : Plan σ} {sources : List Source}
    (hfunctions : job.functions = none)
    (h : look (loadJob system loader job) files = .ok (plan, sources)) :
    ∃ template, plan = job.plan template none := by
  rw [look_loadJob, hfunctions] at h
  obtain ⟨template, -, h⟩ := Parsing.ok_of_bind h
  obtain ⟨functions, hf, h⟩ := Parsing.ok_of_bind h
  obtain ⟨sources, -, h⟩ := Parsing.ok_of_bind h
  cases hf
  cases h
  exact ⟨template, rfl⟩

/-- What is written in the end follows what has been written. -/
theorem effect_finish_ok {g : Progress σ} {docs : List Document}
    (hc : ∀ output, p.naming = .single output → g.combined = docs.flatMap Document.text)
    (hw : Written files (p.late docs) files') : effect (finish system p g) files =
      (.ok { g.report with written := g.report.written ++ (p.late docs).map Prod.fst },
        files') := by
  unfold Plan.late at hw ⊢
  cases hn : p.naming with
  | single output =>
    rw [hn] at hw
    obtain - | ⟨hwrite, hr⟩ := hw
    cases hr
    rw [effect_finish_single hn, hc output hn, hwrite]
    rfl
  | numbered =>
    rw [hn] at hw
    cases hw
    rw [finish_numbered system hn, effect_pure, List.map_nil, List.append_nil]
  | field directory pattern =>
    rw [hn] at hw
    cases hw
    rw [finish_field system hn, effect_pure, List.map_nil, List.append_nil]

end Disk

/-! ### The run -/

/-- Without user functions, a batch gives what its records give alone. If failures are skipped, or
there are none, it writes the documents of the records that do not fail and counts all records, and
otherwise it fails at the first record that does, when the documents of the records before it have
been written, unless they are to go into a single file. The number in the name of a document is
that of its record among all records of its file. -/
theorem run_without_functions {loader : Loader σ} {job : Job} {files : Files} {plan : Plan σ}
    {sources : List Source} (hfunctions : job.functions = none)
    (hload : Disk.look (loadJob Disk.system loader job) files = .ok (plan, sources)) :
    let es := Source.entries sources
    let docs := plan.documentsAlone es
    (∀ doc ∈ docs, doc.entry ∈ es ∧ plan.Placed doc) ∧
    ((job.skipErrors = true ∨ ∀ e ∈ es, (plan.alone e).isOk = true) → ∀ files',
      Written files (plan.early docs ++ plan.late docs) files' → ∃ report,
        Disk.effect (runWith Disk.system loader job) files = (.ok report, files') ∧
        report.rendered = docs.length ∧ report.rendered + report.skipped = es.length ∧
        report.written = (plan.early docs ++ plan.late docs).map Prod.fst) ∧
    (job.skipErrors = false → (¬ ∀ e ∈ es, (plan.alone e).isOk = true) →
      ∃ front e back err, es = front ++ e :: back ∧ (∀ f ∈ front, (plan.alone f).isOk = true) ∧
        plan.alone e = .error err ∧
        ∀ files', Written files (plan.early (plan.documentsAlone front)) files' →
          Disk.effect (runWith Disk.system loader job) files =
            (.error (.record e.index e.source err), files')) := by
  intro es docs
  obtain ⟨template, hp⟩ := Disk.plan_of_loadJob hfunctions hload
  have hskip : plan.skipErrors = job.skipErrors := by rw [hp]; rfl
  have hplain : plan.functions = none := by rw [hp]; rfl
  refine ⟨fun doc hd => ?_, fun hgo files' hw => ?_, fun hs hfail => ?_⟩
  · obtain ⟨e, hmem, he⟩ := Plan.alone_of_mem_documentsAlone hd
    obtain ⟨rfl, hplaced⟩ := Plan.placed_of_alone he
    exact ⟨hmem, hplaced⟩
  · obtain ⟨between, hearly, hlate⟩ := hw.append
    rw [plan.early_documentsAlone] at hearly
    obtain ⟨g, htake, hg⟩ := Disk.effect_takeEntries_ok hplain
      (.start (loader.start plan.functions)) (hskip ▸ hgo) hearly
    have hfinish := Disk.effect_finish_ok hg.combined hlate
    refine ⟨{ g.report with written := g.report.written ++ (plan.late docs).map Prod.fst }, ?_,
      hg.rendered.trans (Nat.zero_add _), hg.counted.trans (Nat.zero_add _), ?_⟩
    · rw [Disk.effect_run, hload]
      dsimp only
      rw [Disk.effect_bind (Disk.blind_finish plan), htake]
      exact hfinish
    · rw [hg.written, List.map_append, plan.map_early_documentsAlone]
      rfl
  · obtain ⟨front, e, back, err, hes, hfront, he⟩ := plan.exists_first_failure hfail
    refine ⟨front, e, back, err, hes, hfront, he, fun files' hw => ?_⟩
    rw [plan.early_documentsAlone] at hw
    have htake := Disk.effect_takeEntries_error hplain back
      (.start (loader.start plan.functions)) (hskip.trans hs) hfront he hw
    rw [← hes] at htake
    rw [Disk.effect_run, hload]
    dsimp only
    rw [Disk.effect_bind (Disk.blind_finish plan), htake]

/-! ### Three records, one of which fails -/

namespace ThreeRecords

/-- Three records, the second one without the member that the template asks for. -/
def files : Files :=
  filesOf "$x$".toList "[\x7b\"x\":\"a\"\x7d,\x7b\x7d,\x7b\"x\":\"b\"\x7d]".toList

/-- The first record. -/
def first : Entry := ⟨"d.json".toList, 0, "\x7b\"x\":\"a\"\x7d".toList⟩

/-- The second record. -/
def second : Entry := ⟨"d.json".toList, 1, "\x7b\x7d".toList⟩

/-- The third record. -/
def third : Entry := ⟨"d.json".toList, 2, "\x7b\"x\":\"b\"\x7d".toList⟩

/-- What is loaded, and what the records give alone. -/
theorem loaded (skipErrors : Bool) :
    ∃ plan sources,
      Disk.look (loadJob Disk.system Functions.loader { oneFile with skipErrors }) files =
          .ok (plan, sources) ∧
        plan.naming = .numbered ∧ Source.entries sources = [first, second, third] ∧
        plan.alone first = .ok ⟨first, "a".toList, some "d0.md".toList⟩ ∧
        plan.alone second = .error (.render (.invalidAccess "x".toList)) ∧
        plan.alone third = .ok ⟨third, "b".toList, some "d2.md".toList⟩ := by
  have h : (Disk.look (loadJob Disk.system Functions.loader { oneFile with skipErrors }) files).map
      (fun l => (l.1.naming, Source.entries l.2, [first, second, third].map l.1.alone)) =
      .ok (.numbered, [first, second, third], [.ok ⟨first, "a".toList, some "d0.md".toList⟩,
        .error (.render (.invalidAccess "x".toList)),
        .ok ⟨third, "b".toList, some "d2.md".toList⟩]) := by
    cases skipErrors with
    | true => decide +kernel
    | false => decide +kernel
  obtain ⟨⟨plan, sources⟩, hload, h⟩ := Parsing.ok_of_map h
  simp only [List.map_cons, List.map_nil, Prod.mk.injEq, List.cons.injEq, and_true] at h
  exact ⟨plan, sources, hload, h⟩

/-- The files after the document of the first record. -/
def written : Files := files.addFile "d0.md".toList (Utf8.encode "a".toList)

/-- The record that fails is left out, or stops the batch. -/
theorem run_skips_or_stops :
    Disk.effect (run Disk.system { oneFile with skipErrors := true }) files =
        (.ok ⟨["d0.md".toList, "d2.md".toList], 1, 2⟩,
          written.addFile "d2.md".toList (Utf8.encode "b".toList)) ∧
      Disk.effect (run Disk.system oneFile) files =
        (.error (.record 1 "d.json".toList (.render (.invalidAccess "x".toList))), written) := by
  have hfirst : files.write "d0.md".toList (Utf8.encode "a".toList) = .ok written := by
    decide +kernel
  have hsecond : written.write "d2.md".toList (Utf8.encode "b".toList) =
      .ok (written.addFile "d2.md".toList (Utf8.encode "b".toList)) := by
    decide +kernel
  constructor
  · obtain ⟨plan, sources, hload, hnaming, hentries, ha, herr, hb⟩ := loaded true
    have hrun := (run_without_functions rfl hload).2.1 (.inl rfl)
    have hdocs : plan.documentsAlone (Source.entries sources) =
        [⟨first, "a".toList, some "d0.md".toList⟩, ⟨third, "b".toList, some "d2.md".toList⟩] := by
      rw [hentries, Plan.documentsAlone]
      simp only [List.filterMap_cons, ha, herr, hb]
      rfl
    rw [hdocs, hentries, Plan.early, Plan.late, hnaming] at hrun
    obtain ⟨⟨paths, skipped, rendered⟩, heff, rfl, hcount, rfl⟩ := hrun _
      (.cons hfirst (.cons hsecond (.nil _)))
    cases Nat.add_left_cancel (hcount : 2 + skipped = 2 + 1)
    exact heff
  · obtain ⟨plan, sources, hload, hnaming, hentries, ha, herr, -⟩ := loaded false
    have hfails : ¬ (plan.alone second).isOk = true := by
      rw [herr]
      exact Bool.false_ne_true
    obtain ⟨front, e, back, err, hes, hfront, he, hrun⟩ :=
      (run_without_functions rfl hload).2.2 rfl fun h => hfails (h _ (by rw [hentries]; decide))
    rw [hentries] at hes
    rcases front with _ | ⟨x, _ | ⟨y, front⟩⟩
    · cases hes
      cases ha.symm.trans he
    · cases hes
      cases herr.symm.trans he
      rw [Plan.documentsAlone_ok ha, Plan.early, hnaming] at hrun
      exact hrun _ (.cons hfirst (.nil _))
    · have hy : second = y := (List.cons.inj (List.cons.inj hes).2).1
      exact absurd (hfront y (by simp)) (hy ▸ hfails)

end ThreeRecords
end MailMerge.Batch
