/-!
Text as the list of its characters, and the few cuts and replacements that templates, patterns and
file names need. A mark cuts a text into pieces, which joined by the mark give the text back.
-/

namespace MailMerge

/-- Text is a list of Unicode characters. -/
abbrev Text := List Char

namespace Text

/-- How many line feeds `t` holds. -/
def lineFeeds (t : Text) : Nat := t.count '\n'

theorem lineFeeds_append (s t : Text) : lineFeeds (s ++ t) = s.lineFeeds + t.lineFeeds :=
  List.count_append

theorem lineFeeds_cons_of_ne {c : Char} (h : c ≠ '\n') (t : Text) :
    lineFeeds (c :: t) = t.lineFeeds :=
  List.count_cons_of_ne h

/-! ### Runs of characters -/

section Runs

variable {p : Char → Bool} {run rest : Text} (hrun : run.all p = true)
  (hrest : rest.takeWhile p = [])
include hrun hrest

/-- A run of characters of a class ends where none of them follows. -/
theorem takeWhile_run : (run ++ rest).takeWhile p = run := by
  rw [List.takeWhile_append_of_pos (List.all_eq_true.mp hrun), hrest, List.append_nil]

theorem dropWhile_run : (run ++ rest).dropWhile p = rest := by
  have h := List.takeWhile_append_dropWhile (p := p) (l := run ++ rest)
  rw [takeWhile_run hrun hrest] at h
  exact List.append_cancel_left h

end Runs

/-! ### Cuts and replacements -/

/-- What follows `start`, if `t` starts with it. -/
def after? (start t : Text) : Option Text := start.isPrefixOf? t

theorem after?_cons (c d : Char) (s r : Text) :
    after? (c :: s) (d :: r) = if c == d then after? s r else none := rfl

theorem after?_append (start rest : Text) : after? start (start ++ rest) = some rest := by
  induction start with
  | nil => rfl
  | cons c s ih => rw [List.cons_append, after?_cons, beq_self_eq_true, if_pos rfl, ih]

theorem eq_append_of_after? {start t rest : Text} (h : after? start t = some rest) :
    t = start ++ rest := by
  induction start generalizing t with
  | nil =>
    cases h
    rfl
  | cons c s ih =>
    cases t with
    | nil => cases h
    | cons d r =>
      rw [after?_cons] at h
      split at h
      · next hc => rw [ih h, eq_of_beq hc, List.cons_append]
      · cases h

/-- What precedes `stop`, if `t` ends with it. -/
def before? (stop t : Text) : Option Text := (after? stop.reverse t.reverse).map List.reverse

theorem before?_append (t stop : Text) : before? stop (t ++ stop) = some t := by
  rw [before?, List.reverse_append, after?_append, Option.map_some, List.reverse_reverse]

/-- The pieces of `t` between the occurrences of `mark`: always one more than there are marks. -/
def pieces (mark : Char) : Text → List Text
  | [] => [[]]
  | c :: r =>
    match pieces mark r with
    | [] => [[c]]
    | p :: ps => if c = mark then [] :: p :: ps else (c :: p) :: ps

/-- The part of `t` before the first `mark` and the part after it, if there is one. -/
def cutAt? (mark : Char) (t : Text) : Option (Text × Text) :=
  match t.dropWhile (· ≠ mark) with
  | [] => none
  | _ :: rest => some (t.takeWhile (· ≠ mark), rest)

/-- The part of `t` up to and including the last `mark`, and the part after it. -/
def cutAfterLast (mark : Char) (t : Text) : Text × Text :=
  ((t.reverse.dropWhile (· ≠ mark)).reverse, (t.reverse.takeWhile (· ≠ mark)).reverse)

/-- A text in which a mark occurs falls into what precedes the last one and what follows it. -/
theorem exists_last {mark : Char} {t : Text} (h : mark ∈ t) :
    ∃ before after, t = before ++ mark :: after ∧ mark ∉ after := by
  induction t with
  | nil => cases h
  | cons c r ih =>
    by_cases hr : mark ∈ r
    · obtain ⟨before, after, rfl, ha⟩ := ih hr
      exact ⟨c :: before, after, rfl, ha⟩
    · rcases List.mem_cons.mp h with rfl | h
      · exact ⟨[], r, rfl, hr⟩
      · exact absurd h hr

/-- A text is cut where a part that is empty or ends with the mark meets one without marks. -/
theorem cutAfterLast_append {mark : Char} {front back : Text}
    (hf : front = [] ∨ ∃ t, front = t ++ [mark]) (hb : mark ∉ back) :
    cutAfterLast mark (front ++ back) = (front, back) := by
  have hrun : back.reverse.all (· ≠ mark) = true := by
    rw [List.all_reverse, List.all_eq_true]
    intro c hc
    exact decide_eq_true fun h => hb (h ▸ hc)
  have hrest : front.reverse.takeWhile (· ≠ mark) = [] := by
    rcases hf with rfl | ⟨t, rfl⟩
    · rfl
    · rw [List.reverse_append, List.reverse_singleton, List.singleton_append,
        List.takeWhile_cons_of_neg (by simp)]
  rw [cutAfterLast, List.reverse_append, takeWhile_run hrun hrest, dropWhile_run hrun hrest,
    List.reverse_reverse, List.reverse_reverse]

/-- The lines of `t`, each with its line feed; the last one may lack it. -/
def lines : Text → List Text
  | [] => []
  | c :: r =>
    if c = '\n' then [c] :: lines r
    else
      match lines r with
      | [] => [[c]]
      | l :: ls => (c :: l) :: ls

/-- The lines of a text are the text. -/
theorem flatten_lines (t : Text) : (lines t).flatten = t := by
  fun_induction lines t <;> simp_all

/-- Replaces `needle`, found from the left and without overlaps; `skip` characters are passed over
before the next one is looked for. -/
def replaceFrom (needle value : Text) : Nat → Text → Text
  | _, [] => []
  | skip + 1, _ :: r => replaceFrom needle value skip r
  | 0, c :: r =>
    if needle.isPrefixOf (c :: r) then value ++ replaceFrom needle value (needle.length - 1) r
    else c :: replaceFrom needle value 0 r

/-- `t` with every occurrence of the non-empty text `needle` replaced by `value`. -/
def replaceAll (needle value t : Text) : Text := replaceFrom needle value 0 t

/-- Whether every character of `t` is a decimal digit and there is at least one. -/
def isNumeral (t : Text) : Bool := !t.isEmpty && t.all Char.isDigit

/-- The number that decimal digits write, leading zeros allowed. -/
def numeralValue (t : Text) : Nat := Nat.ofDigitChars 10 t 0

/-- A natural number in decimal digits. -/
def ofNat (n : Nat) : Text := Nat.toDigits 10 n

/-- An integer in decimal digits, with a minus sign if it is negative. -/
def ofInt (i : Int) : Text := if i < 0 then '-' :: ofNat i.natAbs else ofNat i.natAbs

/-- A truth value as its word. -/
def ofBool : Bool → Text
  | true => "true".toList
  | false => "false".toList

/-- The order of texts: by the first character in which they differ, a shorter text first. -/
def compare : Text → Text → Ordering
  | [], [] => .eq
  | [], _ :: _ => .lt
  | _ :: _, [] => .gt
  | a :: r, b :: s => if a = b then compare r s else if a.val < b.val then .lt else .gt

/-- The texts of a list, with `separator` between two neighbours. -/
def join (separator : Text) (ts : List Text) : Text := separator.intercalate ts

theorem pieces_ne_nil (mark : Char) (t : Text) : pieces mark t ≠ [] := by
  fun_induction pieces mark t <;> simp_all

/-- The pieces of a text, joined by the mark, are the text. -/
theorem join_pieces (mark : Char) (t : Text) : join [mark] (pieces mark t) = t := by
  induction t with
  | nil => rfl
  | cons c r ih =>
    unfold pieces
    split
    · next h => exact absurd h (pieces_ne_nil mark r)
    · next p ps h =>
      rw [h] at ih
      split
      · next hc => subst hc; rw [join, List.intercalate_cons_cons]; simpa [join] using ih
      · cases ps <;> simp_all [join, List.intercalate]

/-- The pieces of two texts with a mark between them. -/
theorem pieces_mark (mark : Char) (s t : Text) :
    pieces mark (s ++ mark :: t) = pieces mark s ++ pieces mark t := by
  induction s with
  | nil =>
    obtain ⟨p, ps, hp⟩ := List.exists_cons_of_ne_nil (pieces_ne_nil mark t)
    simp [pieces, hp]
  | cons c s ih =>
    obtain ⟨p, ps, hp⟩ := List.exists_cons_of_ne_nil (pieces_ne_nil mark s)
    rw [List.cons_append, pieces, ih, pieces, hp]
    by_cases hc : c = mark <;> simp [hc]

/-- A text without marks is its only piece. -/
theorem pieces_of_not_mem {mark : Char} {t : Text} (h : mark ∉ t) : pieces mark t = [t] := by
  induction t with
  | nil => rfl
  | cons c t ih =>
    simp only [List.mem_cons, not_or] at h
    obtain ⟨hc, ht⟩ := h
    rw [pieces, ih ht]
    exact if_neg (Ne.symm hc)

/-- No piece holds the mark. -/
theorem not_mem_of_mem_pieces {mark : Char} {t p : Text} (h : p ∈ pieces mark t) : mark ∉ p := by
  induction t generalizing p with
  | nil =>
    rw [List.mem_singleton.mp h]
    exact List.not_mem_nil
  | cons c t ih =>
    obtain ⟨q, qs, hq⟩ := List.exists_cons_of_ne_nil (pieces_ne_nil mark t)
    rw [pieces, hq] at h
    rw [hq] at ih
    dsimp only at h
    split at h
    · rcases List.mem_cons.mp h with rfl | h
      · exact List.not_mem_nil
      · exact ih h
    · next hc =>
      rcases List.mem_cons.mp h with rfl | h
      · have hq := ih List.mem_cons_self
        simp [hq, Ne.symm hc]
      · exact ih (List.mem_cons_of_mem _ h)

theorem join_cons (mark : Char) (p q : Text) (ps : List Text) :
    join [mark] (p :: q :: ps) = p ++ mark :: join [mark] (q :: ps) := by
  rw [join, List.intercalate_cons_cons]
  simp [join]

theorem join_append (mark : Char) (a b : Text) (ps : List Text) :
    join [mark] ((a ++ b) :: ps) = a ++ join [mark] (b :: ps) := by
  cases ps with
  | nil => simp [join]
  | cons q ps => rw [join_cons, join_cons, List.append_assoc]

/-- Texts without marks are the pieces of what they are joined to. -/
theorem pieces_join (mark : Char) (p : Text) (ps : List Text) (h : ∀ q ∈ p :: ps, mark ∉ q) :
    pieces mark (join [mark] (p :: ps)) = p :: ps := by
  induction ps generalizing p with
  | nil =>
    rw [join, List.intercalate_singleton]
    exact pieces_of_not_mem (h p List.mem_cons_self)
  | cons q ps ih =>
    rw [join_cons, pieces_mark, pieces_of_not_mem (h p List.mem_cons_self),
      ih q fun s hs => h s (List.mem_cons_of_mem _ hs)]
    rfl

/-- A text has one piece more than marks. -/
theorem length_pieces (mark : Char) (t : Text) : (pieces mark t).length = t.count mark + 1 := by
  induction t with
  | nil => rfl
  | cons c t ih =>
    obtain ⟨p, ps, hp⟩ := List.exists_cons_of_ne_nil (pieces_ne_nil mark t)
    rw [hp] at ih
    rw [pieces, hp, List.count_cons]
    by_cases hc : c = mark
    · simpa [hc] using ih
    · simpa [hc] using ih

end Text
end MailMerge
