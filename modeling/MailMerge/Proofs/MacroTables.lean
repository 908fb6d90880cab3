import MailMerge.Proofs.MacroUses

/-!
# The table of macros along the lines of a template

Definition lines change the table of macros, and every other line is rewritten by the table that
stands before it. A table of definitions holds no line feeds, so a line that is rewritten is one
line again.
-/

namespace MailMerge

namespace Text

/-! ### Lines -/

/-- Lines of a text: each one ends with its only line feed, which the last one may lack. -/
inductive AreLines : List Text → Prop where
  | nil : AreLines []
  | last {l : Text} (h : '\n' ∉ l) (hne : l ≠ []) : AreLines [l]
  | cons {l : Text} {ls : List Text} (h : '\n' ∉ l) (hs : AreLines ls) :
      AreLines ((l ++ ['\n']) :: ls)

theorem areLines_lines (t : Text) : AreLines t.lines := by
  induction hlen : t.length using Nat.strong_induction_on generalizing t with
  | _ n ih =>
    by_cases hfeed : '\n' ∈ t
    · obtain ⟨l, r, rfl, hl⟩ := List.eq_append_cons_of_mem hfeed
      rw [lines_break hl]
      refine .cons hl (ih r.length ?_ r rfl)
      rw [← hlen, List.length_append, List.length_cons]
      omega
    · cases t with
      | nil => exact .nil
      | cons c t =>
        rw [lines_of_not_mem hfeed (List.cons_ne_nil c t)]
        exact .last hfeed (List.cons_ne_nil c t)

namespace AreLines

variable {ls a b : List Text} {l : Text}

/-- Lines are the lines of the text that they make up. -/
theorem lines_flatten (h : AreLines ls) : lines ls.flatten = ls := by
  induction h with
  | nil => rfl
  | last h hne => rw [List.flatten_singleton, lines_of_not_mem h hne]
  | @cons l ls h _ ih =>
    rw [List.flatten_cons, List.append_assoc, List.singleton_append, lines_break h, ih]

theorem behind (h : AreLines (a ++ b)) : AreLines b := by
  induction a with
  | nil => exact h
  | cons l a ih =>
    rw [List.cons_append] at h
    generalize hr : a ++ b = r at h ih
    cases h with
    | last _ _ => exact ih .nil
    | cons _ hs => exact ih hs

/-- A line before another one ends with its only line feed. -/
theorem break_of_mem (h : AreLines (a ++ l :: b)) : ∀ m ∈ a, ∃ k, '\n' ∉ k ∧ m = k ++ ['\n'] := by
  induction a with
  | nil => exact fun m hm => absurd hm List.not_mem_nil
  | cons x a ih =>
    rw [List.cons_append] at h
    generalize hr : a ++ l :: b = r at h ih
    cases h with
    | last _ _ => simp at hr
    | @cons k _ hk hs => exact List.forall_mem_cons.mpr ⟨⟨k, hk, rfl⟩, ih hs⟩

/-- A line can be left out. -/
theorem erase (h : AreLines (a ++ l :: b)) : AreLines (a ++ b) := by
  induction a with
  | nil => exact behind (a := [l]) h
  | cons x a ih =>
    rw [List.cons_append] at h ⊢
    generalize hr : a ++ l :: b = r at h ih
    cases h with
    | last _ _ => simp at hr
    | cons hk hs => exact .cons hk (ih hs)

end AreLines

/-- A cut puts what is before the mark and what is after it apart. -/
theorem eq_append_of_cutAt? {mark : Char} {t p q : Text} (h : cutAt? mark t = some (p, q)) :
    t = p ++ mark :: q := by
  unfold cutAt? at h
  split at h
  · cases h
  · next c rest hd =>
    cases h
    have hc : c = mark := by
      have hhead := List.head?_dropWhile_not (fun c => decide (c ≠ mark)) t
      rw [hd] at hhead
      simpa using hhead
    subst hc
    rw [← hd, List.takeWhile_append_dropWhile]

/-- A character that is in neither text does not come in by a replacement. -/
theorem not_mem_replaceFrom {c : Char} {value : Text} (hv : c ∉ value) (needle : Text) {t : Text}
    (ht : c ∉ t) (skip : Nat) : c ∉ replaceFrom needle value skip t := by
  induction t generalizing skip with
  | nil => cases skip <;> exact ht
  | cons d t ih =>
    rw [List.mem_cons, not_or] at ht
    cases skip with
    | succ skip => exact ih ht.2 skip
    | zero =>
      rw [replaceFrom]
      split
      · exact List.not_mem_append hv (ih ht.2 _)
      · exact List.not_mem_cons_of_ne_of_not_mem ht.1 (ih ht.2 0)

end Text

namespace Macros

/-! ### The table after some lines -/

/-- The name that a line defines and its value. -/
def named? (line : Text) : Option (Text × Text) := (definition? line).bind (Text.cutAt? ' ')

/-- The table after a line. -/
def learnLine (table : Table) (line : Text) : Table :=
  match named? line with
  | some (name, value) => define (useOf name) value table
  | none => table

/-- The table after some lines. -/
def learned (table : Table) (ls : List Text) : Table := ls.foldl learnLine table

variable {table : Table} {line : Text}

theorem learnLine_of_definition {d : Text} (h : definition? line = some d) :
    learnLine table line = learn table d := by
  have hnamed : named? line = Text.cutAt? ' ' d := by rw [named?, h, Option.bind_some]
  cases hcut : Text.cutAt? ' ' d with
  | none => simp only [learnLine, learn, hnamed, hcut]
  | some m => simp only [learnLine, learn, hnamed, hcut]

theorem learnLine_of_plain (h : definition? line = none) : learnLine table line = table := by
  rw [learnLine, named?, h]
  rfl

theorem learnLine_of_named {name value : Text} (h : named? line = some (name, value)) :
    learnLine table line = define (useOf name) value table := by
  rw [learnLine, h]

theorem learned_append (table : Table) (a b : List Text) :
    learned table (a ++ b) = learned (learned table a) b :=
  List.foldl_append

theorem expandLines_definition {d : Text} (h : definition? line = some d) (ls : List Text) :
    expandLines table (line :: ls) = expandLines (learnLine table line) ls := by
  rw [expandLines, h, learnLine_of_definition h]

theorem expandLines_plain (h : definition? line = none) (ls : List Text) :
    expandLines table (line :: ls) = apply table line ++ expandLines table ls := by
  rw [expandLines, h]

/-- What some lines expand to, and then what the others do with the table after them. -/
theorem expandLines_append (table : Table) (a b : List Text) :
    expandLines table (a ++ b) = expandLines table a ++ expandLines (learned table a) b := by
  induction a generalizing table with
  | nil => rfl
  | cons l a ih =>
    cases h : definition? l with
    | none =>
      rw [List.cons_append, expandLines_plain h, expandLines_plain h, ih, List.append_assoc,
        learned, learned, List.foldl_cons, learnLine_of_plain h]
    | some d =>
      rw [List.cons_append, expandLines_definition h, expandLines_definition h, ih]
      rfl

/-- Definitions alone leave nothing behind. -/
theorem expandLines_definitions {ls : List Text} (h : ∀ l ∈ ls, (definition? l).isSome) :
    expandLines table ls = [] := by
  induction ls generalizing table with
  | nil => rfl
  | cons l ls ih =>
    obtain ⟨hl, hls⟩ := List.forall_mem_cons.mp h
    obtain ⟨d, hd⟩ := Option.isSome_iff_exists.mp hl
    rw [expandLines_definition hd, ih hls]

/-! ### Tables that keep lines apart -/

/-- No use is empty, and there is no line feed in uses and values. -/
def OnLines (table : Table) : Prop := ∀ m ∈ table, m.1 ≠ [] ∧ '\n' ∉ m.1 ∧ '\n' ∉ m.2

theorem OnLines.nil : OnLines [] := fun _ hm => absurd hm List.not_mem_nil

theorem mem_define {use value : Text} {m : Text × Text} (h : m ∈ define use value table) :
    m = (use, value) ∨ m ∈ table := by
  fun_induction define use value table with
  | case1 => exact .inl (List.mem_singleton.mp h)
  | case2 v r =>
    rcases List.mem_cons.mp h with rfl | h
    · exact .inl rfl
    · exact .inr (List.mem_cons_of_mem _ h)
  | case3 u v r _ ih =>
    rcases List.mem_cons.mp h with rfl | h
    · exact .inr List.mem_cons_self
    · exact (ih h).imp_right (List.mem_cons_of_mem _)

/-- A line is without line feeds but for the one at its end. -/
theorem not_mem_content {ls : List Text} (h : Text.AreLines ls) : ∀ l ∈ ls, '\n' ∉ content l := by
  induction h with
  | nil => exact fun l hl => absurd hl List.not_mem_nil
  | last h _ =>
    rw [List.forall_mem_singleton]
    exact fun hm => h ((content_isPrefix _).subset hm)
  | cons h _ ih =>
    refine List.forall_mem_cons.mpr ⟨fun hm => ?_, ih⟩
    rw [content_lineFeed] at hm
    exact h ((content_isPrefix _).subset hm)

theorem not_mem_of_named? {name value : Text} (hl : '\n' ∉ content line)
    (h : named? line = some (name, value)) : '\n' ∉ name ∧ '\n' ∉ value := by
  obtain ⟨d, hd, hcut⟩ := Option.bind_eq_some_iff.mp h
  rw [Text.eq_append_of_after? hd, Text.eq_append_of_cutAt? hcut] at hl
  simp only [List.mem_append, List.mem_cons, not_or] at hl
  exact ⟨hl.2.1, hl.2.2.2⟩

theorem OnLines.learnLine (ht : OnLines table) (hl : '\n' ∉ content line) :
    OnLines (learnLine table line) := by
  cases h : named? line with
  | none => rwa [Macros.learnLine, h]
  | some m =>
    obtain ⟨name, value⟩ := m
    obtain ⟨hname, hvalue⟩ := not_mem_of_named? hl h
    rw [learnLine_of_named h]
    intro m hm
    rcases mem_define hm with rfl | hm
    · exact ⟨useOf_ne_nil name, by simp [useOf, hname], hvalue⟩
    · exact ht m hm

theorem OnLines.learned (ht : OnLines table) {ls : List Text} (h : ∀ l ∈ ls, '\n' ∉ content l) :
    OnLines (learned table ls) := by
  induction ls generalizing table with
  | nil => exact ht
  | cons l ls ih =>
    obtain ⟨hl, hls⟩ := List.forall_mem_cons.mp h
    exact ih (ht.learnLine hl) hls

/-- The line break of a line stays where it is. -/
theorem apply_break (ht : OnLines table) (l : Text) :
    apply table (l ++ ['\n']) = apply table l ++ ['\n'] := by
  induction table generalizing l with
  | nil => rfl
  | cons m table ih =>
    obtain ⟨⟨hne, huse, -⟩, ht⟩ := List.forall_mem_cons.mp ht
    have hline : Text.replaceAll m.1 m.2 (l ++ ['\n']) = Text.replaceAll m.1 m.2 l ++ ['\n'] :=
      Text.replaceFrom_break huse hne m.2 l [] (Nat.zero_le _)
    rw [apply, List.foldl_cons, hline]
    exact ih ht _

/-- No line break comes in. -/
theorem not_mem_apply (ht : OnLines table) {l : Text} (hl : '\n' ∉ l) : '\n' ∉ apply table l := by
  induction table generalizing l with
  | nil => exact hl
  | cons m table ih =>
    obtain ⟨⟨-, -, hvalue⟩, ht⟩ := List.forall_mem_cons.mp ht
    exact ih ht (Text.not_mem_replaceFrom hvalue m.1 hl 0)

end Macros
end MailMerge
