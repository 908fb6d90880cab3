import MailMerge.Macros
import Mathlib.Data.List.DropRight

/-!
# The lines of a template with macros

A line of a template either defines a macro, and then begins with the lead, or is kept with the
names in it replaced. A template none of whose lines defines a macro is its own expansion.
-/

namespace MailMerge

/-! ### Lines -/

namespace Text

/-- The first line ends with the first line feed. -/
theorem lines_break {l : Text} (h : '\n' ∉ l) (r : Text) :
    lines (l ++ '\n' :: r) = (l ++ ['\n']) :: lines r := by
  induction l with
  | nil => rfl
  | cons c l ih =>
    rw [List.mem_cons, not_or] at h
    rw [List.cons_append, lines, if_neg (Ne.symm h.1), ih h.2]
    rfl

/-- A text without line feeds is its only line. -/
theorem lines_of_not_mem {t : Text} (h : '\n' ∉ t) (hne : t ≠ []) : lines t = [t] := by
  induction t with
  | nil => exact absurd rfl hne
  | cons c t ih =>
    rw [List.mem_cons, not_or] at h
    rw [lines, if_neg (Ne.symm h.1)]
    cases t with
    | nil => rfl
    | cons d t => rw [ih h.2 (List.cons_ne_nil d t)]

end Text

namespace Macros

/-! ### The content of a line -/

/-- The line break comes after every other character. -/
theorem content_append (a : Text) {c : Char} (h : (c == '\r' || c == '\n') = false) (r : Text) :
    content (a ++ c :: r) = a ++ c :: content r := by
  unfold content
  rw [List.reverse_append, List.reverse_cons, List.append_assoc, List.dropWhile_append]
  split
  · next he =>
    rw [List.isEmpty_iff.mp he, List.singleton_append, List.dropWhile_cons_of_neg (by simp [h]),
      List.reverse_cons, List.reverse_reverse]
    rfl
  · rw [List.reverse_append, List.reverse_append, List.reverse_reverse, List.append_assoc]
    rfl

theorem content_lineFeed (l : Text) : content (l ++ ['\n']) = content l := by
  unfold content
  rw [List.reverse_concat, List.dropWhile_cons_of_pos rfl]

theorem content_isPrefix (line : Text) : content line <+: line :=
  List.rdropWhile_prefix _ line

/-- A line that defines a macro begins with the lead. -/
theorem lead_prefix {line d : Text} (h : definition? line = some d) : lead <+: line :=
  (List.prefix_append lead d).trans
    (Text.eq_append_of_after? h ▸ content_isPrefix line)

/-! ### Expansion -/

/-- Lines that define nothing are kept, with the names in them replaced. -/
theorem expandLines_of_plain (table : Table) {ls : List Text}
    (h : ∀ line ∈ ls, definition? line = none) :
    expandLines table ls = (ls.map (apply table)).flatten := by
  induction ls with
  | nil => rfl
  | cons l ls ih =>
    rw [expandLines, h l List.mem_cons_self, ih fun l hl => h l (List.mem_cons_of_mem _ hl)]
    rfl

/-- A template without definitions is its own expansion. -/
theorem expand_of_plain {source : Text}
    (h : ∀ line ∈ source.lines, definition? line = none) : expand source = source := by
  have happly : apply [] = id := rfl
  rw [expand, expandLines_of_plain [] h, happly, List.map_id, Text.flatten_lines]

end Macros
end MailMerge
