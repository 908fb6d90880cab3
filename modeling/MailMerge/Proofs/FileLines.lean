import MailMerge.Proofs.ErrorPlaces
import MailMerge.Proofs.MacroTables
import MailMerge.Proofs.SingleRecord

/-!
# Errors of template files

A template file is parsed when its macros have been expanded. Each line that defines no macro is
still one line then, but the lines that do define one are gone, and their line breaks with them. So
an error carries the line of the file on which it is, less the definition lines above: the right one
exactly if there are none.
-/

namespace MailMerge

/-- A line has no line feed before its last character. -/
theorem Text.AreLines.not_mem_dropLast {ls : List Text} (h : AreLines ls) :
    ∀ l ∈ ls, '\n' ∉ l.dropLast := by
  induction h with
  | nil => exact fun l hl => absurd hl List.not_mem_nil
  | last h _ =>
    rw [List.forall_mem_singleton]
    exact fun hm => h (List.dropLast_subset _ hm)
  | cons h _ ih =>
    refine List.forall_mem_cons.mpr ⟨?_, ih⟩
    rwa [List.dropLast_concat]

namespace Macros

/-! ### Lines of the expanded text -/

variable {table : Table} {ls above : List Text} {front : Text}

/-- A line that is rewritten is still one line. -/
theorem not_mem_dropLast_apply (ht : OnLines table) {l : Text} (hl : '\n' ∉ l.dropLast) :
    '\n' ∉ (apply table l).dropLast := by
  rcases List.eq_nil_or_concat l with rfl | ⟨k, c, rfl⟩
  · exact fun hm => not_mem_apply ht List.not_mem_nil (List.dropLast_subset _ hm)
  · rw [List.concat_eq_append] at hl ⊢
    rw [List.dropLast_concat] at hl
    by_cases hc : c = '\n'
    · rw [hc, apply_break ht, List.dropLast_concat]
      exact not_mem_apply ht hl
    · have hline : '\n' ∉ k ++ [c] := List.not_mem_append hl (by simpa using Ne.symm hc)
      exact fun hm => not_mem_apply ht hline (List.dropLast_subset _ hm)

/-- Lines that are no definitions keep their line breaks, and no others come in. -/
theorem lineFeeds_expandLines (ht : OnLines table)
    (hls : ∀ l ∈ ls, ∃ k, '\n' ∉ k ∧ l = k ++ ['\n']) :
    (expandLines table ls).lineFeeds = ls.countP fun l => (definition? l).isNone := by
  induction ls generalizing table with
  | nil => rfl
  | cons l ls ih =>
    obtain ⟨⟨k, hk, rfl⟩, hrest⟩ := List.forall_mem_cons.mp hls
    rw [List.countP_cons]
    cases hl : definition? (k ++ ['\n']) with
    | some d =>
      have hcontent : '\n' ∉ content (k ++ ['\n']) := by
        rw [content_lineFeed]
        exact fun hm => hk ((content_isPrefix k).subset hm)
      rw [expandLines_definition hl, ih (ht.learnLine hcontent) hrest]
      rfl
    | none =>
      have hline : Text.lineFeeds (apply table (k ++ ['\n'])) = 1 := by
        rw [apply_break ht, Text.lineFeeds_append]
        exact congrArg (· + 1) (List.count_eq_zero_of_not_mem (not_mem_apply ht hk))
      rw [expandLines_plain hl, Text.lineFeeds_append, hline, ih ht hrest]
      exact Nat.add_comm _ _

/-- In what the lines `ls` expand to, the text behind `front` comes from the line below the lines
`above`. -/
inductive ComesFrom (table : Table) (above : List Text) : List Text → Text → Prop where
  /-- It stands in what this line expands to, and that is no definition. -/
  | intro {line before behind : Text} {below : List Text} (plain : definition? line = none)
      (expanded : apply (learned table above) line = before ++ behind) (more : behind ≠ [])
      (same : '\n' ∉ before) :
      ComesFrom table above (above ++ line :: below) (expandLines table above ++ before)

namespace ComesFrom

/-- Below the lines above comes a line that is no definition. -/
theorem exists_line (h : ComesFrom table above ls front) :
    ∃ line below, ls = above ++ line :: below ∧ definition? line = none := by
  cases h with
  | intro plain _ _ _ => exact ⟨_, _, rfl, plain⟩

/-- One more definition above. -/
theorem definition {l d : Text} (hl : definition? l = some d)
    (h : ComesFrom (learnLine table l) above ls front) :
    ComesFrom table (l :: above) (l :: ls) front := by
  cases h with
  | intro plain expanded more same =>
    rw [← expandLines_definition hl]
    exact .intro plain expanded more same

/-- One more line above that is no definition. -/
theorem plain {l : Text} (hl : definition? l = none) (h : ComesFrom table above ls front) :
    ComesFrom table (l :: above) (l :: ls) (apply table l ++ front) := by
  cases h with
  | intro plain expanded more same =>
    rw [← List.append_assoc, ← expandLines_plain hl]
    refine .intro plain ?_ more same
    rwa [learned, List.foldl_cons, learnLine_of_plain hl]

/-- The lines above count, but for the definitions. -/
theorem lineFeeds_eq (ht : OnLines table) (hls : Text.AreLines ls)
    (h : ComesFrom table above ls front) :
    front.lineFeeds = above.countP fun l => (definition? l).isNone := by
  cases h with
  | intro plain expanded more same =>
    rw [Text.lineFeeds_append, lineFeeds_expandLines ht hls.break_of_mem]
    exact congrArg _ (List.count_eq_zero_of_not_mem same)

end ComesFrom

/-- Whatever stands in the expanded text comes from some line. -/
theorem exists_comesFrom {c : Char} {back : Text} (ht : OnLines table)
    (hls : ∀ l ∈ ls, '\n' ∉ content l ∧ '\n' ∉ l.dropLast)
    (h : expandLines table ls = front ++ c :: back) : ∃ above, ComesFrom table above ls front := by
  induction ls generalizing table front with
  | nil => simp [expandLines] at h
  | cons l ls ih =>
    obtain ⟨⟨hcontent, hlast⟩, hls⟩ := List.forall_mem_cons.mp hls
    cases hl : definition? l with
    | some d =>
      rw [expandLines_definition hl] at h
      obtain ⟨above, habove⟩ := ih (ht.learnLine hcontent) hls h
      exact ⟨l :: above, habove.definition hl⟩
    | none =>
      rw [expandLines_plain hl] at h
      -- it stands in what the first line expands to, or behind that
      have hcases : (∃ more, more ≠ [] ∧ apply table l = front ++ more) ∨
          ∃ rest, front = apply table l ++ rest ∧ expandLines table ls = rest ++ c :: back := by
        rcases List.append_eq_append_iff.mp h with ⟨rest, hfront, hrest⟩ | ⟨more, hline, hrest⟩
        · exact .inr ⟨rest, hfront, hrest⟩
        · by_cases hmore : more = []
          · subst hmore
            exact .inr ⟨[], by simpa using hline.symm, hrest.symm⟩
          · exact .inl ⟨more, hmore, hline⟩
      rcases hcases with ⟨more, hmore, hline⟩ | ⟨rest, rfl, hrest⟩
      · have hfeed := not_mem_dropLast_apply ht hlast
        rw [hline, List.dropLast_append_of_ne_nil hmore, List.mem_append, not_or] at hfeed
        exact ⟨[], .intro hl hline hmore hfeed.1⟩
      · obtain ⟨above, habove⟩ := ih ht hls hrest
        exact ⟨l :: above, habove.plain hl⟩

/-- A text in an expanded template stands on a line that definitions do not count for. -/
theorem exists_comesFrom_expand {source front back : Text} {c : Char}
    (h : expand source = front ++ c :: back) :
    ∃ above, ComesFrom [] above source.lines front ∧
      front.lineFeeds = above.countP fun l => (definition? l).isNone := by
  have hlines := Text.areLines_lines source
  obtain ⟨above, habove⟩ := exists_comesFrom .nil
    (fun l hl => ⟨not_mem_content hlines l hl, hlines.not_mem_dropLast l hl⟩) h
  exact ⟨above, habove, habove.lineFeeds_eq .nil hlines⟩

end Macros

namespace Batch

open Disk

/-! ### Loading a template -/

variable {files : Files} {path : Text} {e : TemplateError}

/-- A template file with a syntax error has been read, and its text with the macros expanded is no
template. -/
theorem parse_of_loadTemplate
    (h : look (loadTemplate system path) files = .error (.template e)) :
    ∃ contents source, files.read path = .ok contents ∧ Utf8.decode? contents = some source ∧
      Template.parse (Macros.expand source) = .error e := by
  rw [look_loadTemplate_eq, look_readText_eq] at h
  cases hr : files.read path with
  | error e' =>
    rw [hr] at h
    cases h
  | ok contents =>
    rw [hr] at h
    dsimp only at h
    cases hd : Utf8.decode? contents with
    | none =>
      rw [hd] at h
      cases h
    | some source =>
      rw [hd] at h
      refine ⟨contents, source, rfl, hd, ?_⟩
      change (Template.parse (Macros.expand source)).mapError Error.template = _ at h
      cases hp : Template.parse (Macros.expand source) with
      | error e' =>
        rw [hp] at h
        cases h
        rfl
      | ok t =>
        rw [hp] at h
        cases h

/-- A syntax error in a template file is about a place in the expanded text that comes from a line
of the file which defines no macro. The line that it carries and the definition lines above that
line make up the number of the line in the file; so the error carries this number exactly if no
macro is defined above. -/
theorem loadTemplate_error_line
    (h : look (loadTemplate system path) files = .error (.template e)) :
    ∃ contents source front above, files.read path = .ok contents ∧
      Utf8.decode? contents = some source ∧
      Template.Reported (Macros.expand source) e front ∧
      Macros.ComesFrom [] above source.lines front ∧
      e.line + above.countP (fun l => (Macros.definition? l).isSome) = above.length + 1 ∧
      (e.line = above.length + 1 ↔ ∀ l ∈ above, Macros.definition? l = none) := by
  obtain ⟨contents, source, hread, hdecode, hparse⟩ := parse_of_loadTemplate h
  obtain ⟨front, c, back, hsource, hreported, hline⟩ := Template.reported_of_parse hparse
  obtain ⟨above, habove, hfeeds⟩ := Macros.exists_comesFrom_expand hsource
  have hcount : above.length = above.countP (fun l => (Macros.definition? l).isNone) +
      above.countP (fun l => (Macros.definition? l).isSome) := by
    rw [List.length_eq_countP_add_countP fun l => (Macros.definition? l).isNone]
    simp only [Bool.not_eq_true, Option.isNone_eq_false_iff, Bool.decide_eq_true]
  have hsum : e.line + above.countP (fun l => (Macros.definition? l).isSome) =
      above.length + 1 := by
    rw [hline, hfeeds, hcount]
    omega
  refine ⟨contents, source, front, above, hread, hdecode, hreported, habove, hsum, ?_⟩
  have hnone : (∀ l ∈ above, Macros.definition? l = none) ↔
      above.countP (fun l => (Macros.definition? l).isSome) = 0 := by
    rw [List.countP_eq_zero]
    simp
  rw [hnone]
  omega

/-- A block that begins on the fourth line of a file, with definitions on the first and the third
one: what is wrong with it stands on the fifth line, and the error says it is the third. -/
theorem loadTemplate_error_fifth_line :
    let source : Text := "$$$ n x\nHi $n$\n$$$ m y\n$if a\nis list$$end$\n".toList
    let files := Files.empty.addFile "t.md".toList (Utf8.encode source)
    let e : TemplateError := ⟨.unknownKind "list".toList, 3⟩
    look (loadTemplate system "t.md".toList) files = .error (.template e) ∧
      ∃ front above, Template.Reported (Macros.expand source) e front ∧
        Macros.ComesFrom [] above source.lines front ∧
        e.line + above.countP (fun l => (Macros.definition? l).isSome) = above.length + 1 ∧
        (e.line = above.length + 1 ↔ ∀ l ∈ above, Macros.definition? l = none) := by
  intro source files e
  have hread : files.read "t.md".toList = .ok (Utf8.encode source) := by decide +kernel
  have hparse : Template.parse (Macros.expand source) = .error e := by rfl
  have h : look (loadTemplate system "t.md".toList) files = .error (.template e) := by
    rw [look_loadTemplate hread, hparse]
    rfl
  obtain ⟨contents, source', front, above, hcontents, hsource, hplace⟩ := loadTemplate_error_line h
  rw [hread] at hcontents
  cases hcontents
  rw [Utf8.decode?_encode] at hsource
  cases hsource
  exact ⟨h, front, above, hplace⟩

/-- So the line that an error carries is not always the one on which its place is in the file: here
it is that of the definition above. -/
theorem macro_lines_not_counted :
    ¬ ∀ (files : Files) (path : Text) (e : TemplateError),
      look (loadTemplate system path) files = .error (.template e) →
      ∃ contents source front above, files.read path = .ok contents ∧
        Utf8.decode? contents = some source ∧
        Template.Reported (Macros.expand source) e front ∧
        Macros.ComesFrom [] above source.lines front ∧ e.line = above.length + 1 := by
  intro h
  let source : Text := "$$$ a b\n$end$".toList
  let files := Files.empty.addFile "t.md".toList (Utf8.encode source)
  let e : TemplateError := ⟨.unmatchedBlock "end".toList, 1⟩
  have hread : files.read "t.md".toList = .ok (Utf8.encode source) := by decide +kernel
  have hparse : Template.parse (Macros.expand source) = .error e := by rfl
  have hload : look (loadTemplate system "t.md".toList) files = .error (.template e) := by
    rw [look_loadTemplate hread, hparse]
    rfl
  obtain ⟨contents, source', front, above, hcontents, hsource, -, hfrom, hline⟩ := h _ _ _ hload
  rw [hread] at hcontents
  cases hcontents
  rw [Utf8.decode?_encode] at hsource
  cases hsource
  have habove : above = [] := List.length_eq_zero_iff.mp (Nat.succ.inj hline).symm
  obtain ⟨line, below, hlines, hplain⟩ := hfrom.exists_line
  rw [habove] at hlines
  have hfirst : source.lines = ["$$$ a b\n".toList, "$end$".toList] := by decide +kernel
  rw [hfirst] at hlines
  cases hlines
  exact absurd hplain (by decide +kernel)

end Batch
end MailMerge
