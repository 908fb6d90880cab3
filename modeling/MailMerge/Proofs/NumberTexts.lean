import MailMerge.Decimal.Reader
import MailMerge.Proofs.ItemPaths
import MailMerge.Text.Blank

/-!
# Written numbers are numbers

Every text that is written for a number is one that the reader of numbers takes: digits, perhaps
with a point, perhaps with a power of ten, and no white space around them.
-/

namespace MailMerge

/-! ### White space -/

/-- A text without white space is not trimmed. -/
theorem Text.trim_of_not_blank {t : Text} (h : ∀ c ∈ t, isBlank c = false) : t.trim = t := by
  have hdrop : ∀ {u : Text}, (∀ c ∈ u, isBlank c = false) → u.dropWhile isBlank = u := by
    rintro (_ | ⟨c, u⟩) hu
    · rfl
    · rw [List.dropWhile_cons, hu c List.mem_cons_self]
      rfl
  rw [trim, hdrop h, hdrop fun c hc => h c (List.mem_reverse.mp hc), List.reverse_reverse]

theorem not_isBlank_of_isMark {c : Char} (h : Json.IsMark c) : isBlank c = false := by
  rcases h with hd | rfl | rfl | rfl | rfl
  · simp only [Char.isDigit, Bool.and_eq_true, decide_eq_true_eq, ge_iff_le] at hd
    have h₁ : 48 ≤ c.toNat := hd.1
    have h₂ : c.toNat ≤ 57 := hd.2
    simp [isBlank]
    omega
  all_goals rfl

theorem Json.isMark_ofInt {i : Int} {c : Char} (h : c ∈ Text.ofInt i) : IsMark c := by
  unfold Text.ofInt at h
  split at h
  · rcases List.mem_cons.mp h with rfl | h
    · exact .inr (.inl rfl)
    · exact isMark_ofNat h
  · exact isMark_ofNat h

namespace Decimal

/-! ### Numbers without sign -/

/-- A point and digits, or nothing. -/
def IsFraction (t : Text) : Prop :=
  t = [] ∨ ∃ places, places.all Char.isDigit = true ∧ t = '.' :: places

/-- A power of ten with its sign, or nothing. -/
def IsPower (t : Text) : Prop :=
  t = [] ∨ ∃ s digits, (s = '+' ∨ s = '-') ∧ Text.isNumeral digits = true ∧ t = 'e' :: s :: digits

/-- Digits, perhaps a point with further ones, perhaps a power of ten. -/
inductive IsUnsigned : Text → Prop where
  | mk {whole fraction power : Text} (hw : Text.isNumeral whole = true) (hf : IsFraction fraction)
      (hp : IsPower power) : IsUnsigned (whole ++ (fraction ++ power))

theorem IsPower.takeWhile {t : Text} (h : IsPower t) : t.takeWhile Char.isDigit = [] := by
  rcases h with rfl | ⟨s, digits, -, -, rfl⟩ <;> rfl

theorem IsPower.exponent {t : Text} (h : IsPower t) : ∃ e, exponent? t = some e := by
  rcases h with rfl | ⟨s, digits, hs, hd, rfl⟩
  · exact ⟨0, rfl⟩
  · rcases hs with rfl | rfl
    · exact ⟨Text.numeralValue digits, by simp [exponent?, sign, hd]⟩
    · exact ⟨-Text.numeralValue digits, by simp [exponent?, sign, hd]⟩

theorem IsFraction.fraction_append {f p : Text} (hf : IsFraction f) (hp : IsPower p) :
    (f ++ p).takeWhile Char.isDigit = [] ∧ ∃ places, fraction (f ++ p) = (places, p) := by
  rcases hf with rfl | ⟨places, hd, rfl⟩
  · refine ⟨hp.takeWhile, [], ?_⟩
    rcases hp with rfl | ⟨s, digits, -, -, rfl⟩ <;> rfl
  · refine ⟨rfl, places, ?_⟩
    rw [List.cons_append, fraction, Text.takeWhile_run hd hp.takeWhile,
      Text.dropWhile_run hd hp.takeWhile]

theorem IsUnsigned.read {t : Text} (h : IsUnsigned t) : ∃ x, unsigned? t = some x := by
  obtain ⟨hw, hf, hp⟩ := h
  next whole f p =>
  simp only [Text.isNumeral, Bool.and_eq_true, Bool.not_eq_eq_eq_not, Bool.not_true] at hw
  obtain ⟨hstop, places, hplaces⟩ := hf.fraction_append hp
  have htake := Text.takeWhile_run hw.2 hstop
  have hdrop := Text.dropWhile_run hw.2 hstop
  obtain ⟨e, he⟩ := hp.exponent
  simp only [unsigned?, htake, hdrop, hplaces, hw.1, he]
  exact ⟨_, rfl⟩

/-! ### Signs -/

theorem IsUnsigned.sign_eq {t : Text} (h : IsUnsigned t) (negative : Bool) :
    sign (signed negative t) = (negative, t) := by
  cases negative with
  | true => rfl
  | false =>
    obtain ⟨hw, hf, hp⟩ := h
    next whole f p =>
    cases whole with
    | nil => cases hw
    | cons c whole =>
      simp only [Text.isNumeral, List.all_cons, Bool.and_eq_true] at hw
      rw [List.cons_append, signed, sign]
      · rfl
      · rintro r hr
        cases hr
        cases hw.2.1
      · rintro r hr
        cases hr
        cases hw.2.1

/-- A number with or without a minus sign is read. -/
theorem IsUnsigned.read_signed {t : Text} (h : IsUnsigned t) (negative : Bool) :
    ∃ x, read? (signed negative t) = some x := by
  obtain ⟨x, hx⟩ := h.read
  simp only [read?, h.sign_eq, hx]
  cases word? t with
  | none => exact ⟨_, rfl⟩
  | some y => exact ⟨_, rfl⟩

/-! ### What is written -/

theorem isUnsigned_numeral {t : Text} (h : Text.isNumeral t = true) : IsUnsigned t := by
  have h := IsUnsigned.mk h (.inl rfl) (.inl rfl)
  rwa [List.append_nil, List.append_nil] at h

/-- Digits with a point among them are digits and a fraction. -/
theorem withPoint_cut {digits : Text} (hd : Text.isNumeral digits = true) (places : Nat) :
    ∃ whole fraction, Text.isNumeral whole = true ∧ IsFraction fraction ∧
      withPoint digits places = whole ++ fraction := by
  unfold withPoint
  split
  · exact ⟨digits, [], hd, .inl rfl, (List.append_nil _).symm⟩
  · next hp =>
    simp only [Text.isNumeral, Bool.and_eq_true, Bool.not_eq_eq_eq_not, Bool.not_true] at hd
    obtain ⟨padded, hpadded⟩ : ∃ p, p = List.replicate (places + 1 - digits.length) '0' ++ digits :=
      ⟨_, rfl⟩
    have hall : padded.all Char.isDigit = true := by
      simp only [hpadded, List.all_append, List.all_replicate, hd.2, Bool.and_true]
      split <;> rfl
    have hlength : places < padded.length := by
      rw [hpadded, List.length_append, List.length_replicate]
      omega
    simp only [← hpadded]
    rw [← List.take_append_drop (padded.length - places) padded, List.all_append,
      Bool.and_eq_true] at hall
    refine ⟨_, _, ?_, .inr ⟨_, hall.2, rfl⟩, rfl⟩
    rw [Text.isNumeral, hall.1, Bool.and_true]
    simp
    constructor
    · omega
    · rintro rfl
      simp at hlength

/-- Without places after the point there are only digits. -/
theorem isNumeral_positional {d : Digits} (h : ¬ d.exponent < 0) :
    Text.isNumeral (positional d) = true := by
  have hd := Text.isNumeral_ofNat d.digits
  simp only [positional, if_neg h, Text.isNumeral, Bool.and_eq_true, Bool.not_eq_eq_eq_not,
    Bool.not_true, List.isEmpty_eq_false_iff, List.all_append, List.all_replicate] at hd ⊢
  refine ⟨List.append_ne_nil_of_left_ne_nil hd.1 _, hd.2, ?_⟩
  split <;> rfl

theorem isUnsigned_positional (d : Digits) : IsUnsigned (positional d) := by
  by_cases h : d.exponent < 0
  · obtain ⟨whole, f, hw, hf, he⟩ := withPoint_cut (Text.isNumeral_ofNat d.digits) d.exponent.natAbs
    simp only [positional, if_pos h, he]
    have h := IsUnsigned.mk hw hf (.inl rfl)
    rwa [List.append_nil] at h
  · exact isUnsigned_numeral (isNumeral_positional h)

theorem isUnsigned_scientific (d : Digits) : IsUnsigned (scientific d) := by
  obtain ⟨whole, f, hw, hf, he⟩ :=
    withPoint_cut (Text.isNumeral_ofNat d.digits) ((Text.ofNat d.digits).length - 1)
  simp only [scientific, he, List.append_assoc]
  refine .mk hw hf (.inr ⟨_, _, ?_, Text.isNumeral_ofNat _, rfl⟩)
  split
  · exact .inr rfl
  · exact .inl rfl

/-- Every float of a written document is read as a number. -/
theorem read_json (x : Float) : ∃ y, read? (json x) = some y := by
  refine IsUnsigned.read_signed ?_ (isNegative x)
  split
  · exact isUnsigned_scientific _
  · split
    · exact isUnsigned_positional _
    · next h =>
      have h := IsUnsigned.mk (isNumeral_positional h) (.inr ⟨['0'], rfl, rfl⟩) (.inl rfl)
      rwa [List.append_nil] at h

/-- Every integer is read as a number. -/
theorem read_ofInt (i : Int) : ∃ y, read? (Text.ofInt i) = some y := by
  have h := (isUnsigned_numeral (Text.isNumeral_ofNat i.natAbs)).read_signed (decide (i < 0))
  simpa [signed, Text.ofInt] using h

end Decimal

namespace Value

/-- A text that writes a value of a kind. -/
def Writes (t : Text) (k : Kind) : Prop := ∃ v, coerce t k = .ok v ∧ v.kind = k

theorem writes_number {t : Text} (hm : ∀ c ∈ t, Json.IsMark c)
    (h : ∃ x, Decimal.read? t = some x) : Writes t .number := by
  obtain ⟨x, hx⟩ := h
  have ht : t.trim = t := Text.trim_of_not_blank fun c hc => not_isBlank_of_isMark (hm c hc)
  refine ⟨.number x, ?_, rfl⟩
  simp only [coerce, ht, hx]

/-- The text of a document is one of its kind, unless the document is null. -/
theorem writes_describe (w : Json) (h : (Record.describe w).2 ≠ .missing) :
    Writes (Record.describe w).1 (Record.describe w).2 := by
  cases w with
  | null => exact absurd rfl h
  | bool b => cases b <;> exact ⟨_, rfl, rfl⟩
  | integer i => exact writes_number (fun c hc => Json.isMark_ofInt hc) (Decimal.read_ofInt i)
  | real x => exact writes_number (fun c hc => Json.isMark_json hc) (Decimal.read_json x)
  | string t => exact ⟨_, rfl, rfl⟩
  | array items => exact ⟨_, rfl, rfl⟩
  | object ms => exact ⟨_, rfl, rfl⟩

/-- The text of a position or a key is one of its kind. -/
theorem writes_binding (b : Binding) : Writes b.describe.1 b.describe.2 := by
  cases b with
  | position n =>
    have h := (Decimal.isUnsigned_numeral (Text.isNumeral_ofNat n)).read_signed false
    exact writes_number (fun c hc => Json.isMark_ofNat hc) h
  | key k => exact ⟨_, rfl, rfl⟩

end Value
end MailMerge
