import MailMerge.Proofs.JsonReading

/-!
# Numbers in documents

What the reader makes of a number depends only on the number, as long as what follows it may stand
after a value. So integers are read back from their digits wherever they stand, and a float that is
read back from what it is written as can be read back from inside an array or an object too.
-/

namespace MailMerge

namespace Utf8

theorem encode_append (s t : Text) : encode (s ++ t) = encode s ++ encode t :=
  List.flatMap_append

theorem encode_cons (c : Char) (t : Text) : encode (c :: t) = encodeChar c ++ encode t := rfl

theorem encodeChar_ascii {c : Char} (h : c.toNat < 0x80) :
    encodeChar c = [UInt8.ofNat c.toNat] := by
  rw [encodeChar, if_pos h]

end Utf8

namespace Json

open Parsing (ok_of_bind ok_of_map)

/-! ### What may follow a value -/

/-- Bytes that may follow a value in an array or an object, or at the end. -/
def Ends (r : Bytes) : Prop := ∀ b s, r = b :: s → b = 0x2C ∨ b = 0x5D ∨ b = 0x7D

theorem ends_cons {b : UInt8} (hb : b = 0x2C ∨ b = 0x5D ∨ b = 0x7D) (r : Bytes) :
    Ends (b :: r) := by
  rintro c s ⟨⟩
  exact hb

theorem afterInteger_of_ends {r : Bytes} (hr : Ends r) (positive : Bool) (n : Nat) :
    afterInteger positive n 0 r =
      if positive then .ok (.integer n, r)
      else if n = 0 ∨ 9223372036854775808 < n then .ok (.real (-(Float.ofNat n)), r)
      else .ok (.integer (-(n : Int)), r) := by
  cases r with
  | nil => rfl
  | cons b s => rcases hr b s rfl with rfl | rfl | rfl <;> rfl

theorem takeWhile_of_ends {r : Bytes} (hr : Ends r) : r.takeWhile isDigit = [] := by
  cases r with
  | nil => rfl
  | cons b s => rcases hr b s rfl with rfl | rfl | rfl <;> rfl

theorem dropWhile_of_ends {r : Bytes} (hr : Ends r) : r.dropWhile isDigit = r := by
  cases r with
  | nil => rfl
  | cons b s => rcases hr b s rfl with rfl | rfl | rfl <;> rfl

/-! ### Digits -/

/-- The number that digits write after others. -/
def decimal (s : Nat) (ds : Bytes) : Nat := ds.foldl (fun s d => 10 * s + digitValue d) s

theorem le_decimal (s : Nat) (ds : Bytes) : s ≤ decimal s ds := by
  induction ds generalizing s with
  | nil => exact Nat.le_refl _
  | cons d ds ih => exact Nat.le_trans (by omega) (ih (10 * s + digitValue d))

/-- Digits are taken up completely if the number fits. -/
theorem absorb_eq {s : Nat} {ds : Bytes} (h : decimal s ds < UInt64.size) :
    absorb s ds = (decimal s ds, ds.length) := by
  induction ds generalizing s with
  | nil => rfl
  | cons d ds ih =>
    have hlt : 10 * s + digitValue d < UInt64.size := Nat.lt_of_le_of_lt (le_decimal _ ds) h
    rw [absorb]
    simp only [if_pos hlt]
    rw [ih h]
    rfl

/-- A digit is one byte. -/
theorem encodeChar_digit {c : Char} (h : c.isDigit = true) :
    ∃ b, Utf8.encodeChar c = [b] ∧ isDigit b = true ∧ b.toNat = c.toNat := by
  simp only [Char.isDigit, Bool.and_eq_true, decide_eq_true_eq, ge_iff_le] at h
  have hlow : 0x30 ≤ c.toNat := h.1
  have hhigh : c.toNat ≤ 0x39 := h.2
  have hn : (UInt8.ofNat c.toNat).toNat = c.toNat := Utf8.toNat_ofNat (by omega)
  refine ⟨_, Utf8.encodeChar_ascii (by omega), ?_, hn⟩
  simp only [isDigit, Bool.and_eq_true, decide_eq_true_eq, UInt8.le_iff_toNat_le, hn]
  exact ⟨hlow, hhigh⟩

/-- The digits of a number as bytes. -/
theorem encode_digits {t : Text} (h : ∀ c ∈ t, c.isDigit = true) :
    (∀ b ∈ Utf8.encode t, isDigit b = true) ∧
      ∀ s, decimal s (Utf8.encode t) = Nat.ofDigitChars 10 t s := by
  induction t with
  | nil => exact ⟨nofun, fun _ => rfl⟩
  | cons c t ih =>
    obtain ⟨hd, hv⟩ := ih fun c hc => h c (List.mem_cons_of_mem _ hc)
    obtain ⟨b, he, hb, hn⟩ := encodeChar_digit (h c List.mem_cons_self)
    rw [Utf8.encode_cons, he]
    refine ⟨?_, fun s => ?_⟩
    · rintro b' (_ | ⟨_, hb'⟩)
      · exact hb
      · exact hd b' hb'
    · rw [Nat.ofDigitChars_cons, ← hv, ← hn]
      rfl

/-- The digits of a positive number do not begin with a zero. -/
theorem toDigits_ne_zero (n : Nat) (h : 0 < n) :
    ∃ d ds, Nat.toDigits 10 n = d :: ds ∧ d ≠ '0' := by
  induction n using Nat.strongRecOn with
  | ind n ih =>
    by_cases hn : n < 10
    · have hd : ∀ d : Fin 10, 0 < d.val → Nat.digitChar d ≠ '0' := by decide
      exact ⟨_, [], Nat.toDigits_of_lt_base hn, hd ⟨n, hn⟩ h⟩
    · obtain ⟨d, ds, he, hd⟩ := ih (n / 10) (by omega) (by omega)
      rw [Nat.toDigits_of_base_le (by decide) (by omega), he]
      exact ⟨d, _, rfl, hd⟩

/-- A natural number is read back up to what ends it. -/
theorem number_ofNat {n : Nat} (hn : n < UInt64.size) {r : Bytes} (hr : Ends r) :
    ∃ b s, Utf8.encode (Text.ofNat n) ++ r = b :: s ∧ isDigit b = true ∧
      ∀ positive, number positive (b :: s) = afterInteger positive n 0 r := by
  by_cases h0 : n = 0
  · rw [h0]
    refine ⟨0x30, r, rfl, rfl, fun positive => ?_⟩
    cases r with
    | nil => rfl
    | cons b s => rcases hr b s rfl with rfl | rfl | rfl <;> rfl
  · obtain ⟨d, ds, he, hd⟩ := toDigits_ne_zero n (Nat.pos_of_ne_zero h0)
    have hdigits : ∀ c ∈ d :: ds, c.isDigit = true := fun c hc =>
      Nat.isDigit_of_mem_toDigits (by decide) (by decide) (he ▸ hc)
    obtain ⟨b, hb, hbd, hbn⟩ := encodeChar_digit (hdigits d List.mem_cons_self)
    obtain ⟨hds, -⟩ := encode_digits fun c hc => hdigits c (List.mem_cons_of_mem d hc)
    have hcons : Utf8.encode (d :: ds) = b :: Utf8.encode ds := by
      rw [Utf8.encode_cons, hb]
      rfl
    have hvalue : decimal (digitValue b) (Utf8.encode ds) = n := by
      have hv := (encode_digits hdigits).2 0
      rwa [hcons, ← he, Nat.ofDigitChars_ten_toDigits, decimal, List.foldl_cons, Nat.mul_zero,
        Nat.zero_add] at hv
    have hb0 : b ≠ 0x30 := by
      rintro rfl
      apply hd
      rw [← Char.ofNat_toNat d, ← hbn]
      rfl
    have htake : (Utf8.encode ds ++ r).takeWhile isDigit = Utf8.encode ds := by
      rw [List.takeWhile_append_of_pos hds, takeWhile_of_ends hr, List.append_nil]
    have hdrop : (Utf8.encode ds ++ r).dropWhile isDigit = r := by
      rw [List.dropWhile_append_of_pos hds, dropWhile_of_ends hr]
    rw [Text.ofNat, he, hcons]
    refine ⟨b, Utf8.encode ds ++ r, rfl, hbd, fun positive => ?_⟩
    have habsorb := absorb_eq (hvalue ▸ hn)
    rw [number.eq_def]
    simp only [if_neg hb0, if_pos hbd, htake, hdrop, habsorb, hvalue, Nat.sub_self]

/-! ### Integers in documents -/

theorem not_isSpace_of_isDigit {b : UInt8} (h : isDigit b = true) : isSpace b = false := by
  simp only [isDigit, Bool.and_eq_true, decide_eq_true_eq, UInt8.le_iff_toNat_le] at h
  simp only [isSpace, Bool.or_eq_false_iff, beq_eq_false_iff_ne, ne_eq, ← UInt8.toNat_inj]
  simp only [UInt8.reduceToNat] at h ⊢
  omega

theorem skipSpace_cons {b : UInt8} (h : isSpace b = false) (r : Bytes) :
    skipSpace (b :: r) = b :: r := by
  rw [skipSpace, List.dropWhile_cons, h]
  rfl

/-- A minus sign begins a number. -/
theorem value_minus (n : Nat) (r : Bytes) : value n (0x2D :: r) = number false r := by
  rw [value.eq_def]
  rfl

/-- A digit begins a number. -/
theorem value_digit {b : UInt8} (h : isDigit b = true) (n : Nat) (r : Bytes) :
    value n (b :: r) = number true (b :: r) := by
  have hne : ∀ c : UInt8, isDigit c = false → b ≠ c := by
    rintro c hc rfl
    rw [h] at hc
    cases hc
  rw [value.eq_def, skipSpace_cons (not_isSpace_of_isDigit h)]
  simp only [hne 0x6E rfl, hne 0x74 rfl, hne 0x66 rfl, hne 0x2D rfl, h, if_false, if_true]

theorem value_integer {i : Int} (low : -9223372036854775808 ≤ i) (high : i < UInt64.size)
    (n : Nat) {r : Bytes} (hr : Ends r) :
    value n (Utf8.encode (write (.integer i)) ++ r) = .ok (.integer i, r) := by
  have hsize : i.natAbs < UInt64.size := by
    simp only [UInt64.size] at high ⊢
    omega
  obtain ⟨b, s, he, hb, hnum⟩ := number_ofNat hsize hr
  rw [write, Text.ofInt]
  split
  · next hneg =>
    have hv : value n (Utf8.encode ('-' :: Text.ofNat i.natAbs) ++ r) =
        number false (Utf8.encode (Text.ofNat i.natAbs) ++ r) := value_minus n _
    rw [hv, he, hnum, afterInteger_of_ends hr, if_neg Bool.false_ne_true, if_neg (by omega)]
    congr 3
    omega
  · next hpos =>
    rw [he, value_digit hb, hnum, afterInteger_of_ends hr, if_pos rfl]
    congr 3
    omega

/-! ### Numbers before other bytes -/

section Before

variable {r : Bytes}

theorem takeWhile_append (hr : Ends r) (b : Bytes) :
    (b ++ r).takeWhile isDigit = b.takeWhile isDigit := by
  induction b with
  | nil => exact takeWhile_of_ends hr
  | cons c b ih => rw [List.cons_append, List.takeWhile_cons, List.takeWhile_cons, ih]

theorem dropWhile_append (hr : Ends r) (b : Bytes) :
    (b ++ r).dropWhile isDigit = b.dropWhile isDigit ++ r := by
  induction b with
  | nil => exact dropWhile_of_ends hr
  | cons c b ih =>
    rw [List.cons_append, List.dropWhile_cons, List.dropWhile_cons, ih]
    split
    · rfl
    · rfl

/-- What may follow a value adds no byte of a number to it. -/
theorem not_head (hr : Ends r) {b : Bytes} {c : UInt8}
    (hc : ¬ (c = 0x2C ∨ c = 0x5D ∨ c = 0x7D)) (hb : ∀ t, b = c :: t → False) (t : Bytes)
    (h : b ++ r = c :: t) : False := by
  cases b with
  | nil => exact hc (hr c t h)
  | cons d b => exact hb b (congrArg (· :: b) (List.cons.inj h).1)

theorem float_append {positive : Bool} {digits : Nat} {e : Int} {b s : Bytes} {v : Json}
    (h : float positive digits e b = .ok (v, s)) :
    float positive digits e (b ++ r) = .ok (v, s ++ r) := by
  unfold float at h ⊢
  split at h
  · cases h
    rfl
  · cases h

theorem power_append (hr : Ends r) {large : Bool} {e : Nat} {b s : Bytes} {p : Option Nat}
    (h : power large e b = .ok (p, s)) : power large e (b ++ r) = .ok (p, s ++ r) := by
  fun_induction power large e b with
  | case1 =>
    cases h
    cases r with
    | nil => rfl
    | cons c t => rcases hr c t rfl with rfl | rfl | rfl <;> rfl
  | case2 e b t hd n hn ih =>
    rw [List.cons_append, power, if_pos hd, if_pos hn]
    exact ih h
  | case3 => cases h
  | case4 e b t hd n hn hl =>
    cases h
    rw [List.cons_append, power, if_pos hd, if_neg hn, if_neg hl, dropWhile_append hr]
  | case5 e b t hd =>
    cases h
    rw [List.cons_append, power, if_neg hd]

/-- The rest of a float after the sign of its power of ten. -/
def exponentDigits (positive : Bool) (digits : Nat) (start : Int) (up : Bool) :
    Bytes → Except Fault (Json × Bytes)
  | [] => stop .endOfValue []
  | d :: t =>
    if isDigit d then do
      match ← power (up && digits != 0) (digitValue d) t with
      | (some e, rest) => float positive digits (if up then start + e else start - e) rest
      | (none, rest) => .ok (.real (if positive then 0.0 else -0.0), rest)
    else stop .invalidNumber t

/-- Without a sign, a power of ten is one above zero. -/
theorem exponent_unsigned {b : Bytes} (hplus : ∀ t, b ≠ 0x2B :: t) (hminus : ∀ t, b ≠ 0x2D :: t)
    (positive : Bool) (digits : Nat) (start : Int) :
    exponent positive digits start b = exponentDigits positive digits start true b := by
  unfold exponent
  split
  next up t ht =>
  split at ht
  · exact absurd rfl (hplus _)
  · exact absurd rfl (hminus _)
  · cases ht
    rfl

theorem exponentDigits_append (hr : Ends r) {positive up : Bool} {digits : Nat} {start : Int}
    {b s : Bytes} {v : Json} (h : exponentDigits positive digits start up b = .ok (v, s)) :
    exponentDigits positive digits start up (b ++ r) = .ok (v, s ++ r) := by
  cases b with
  | nil => cases h
  | cons d t =>
    rw [List.cons_append, exponentDigits] at *
    split at h
    · next hd =>
      obtain ⟨⟨e, u⟩, hp, h⟩ := ok_of_bind h
      rw [if_pos hd, power_append hr hp]
      cases e with
      | none =>
        cases h
        rfl
      | some e => exact float_append h
    · cases h

theorem exponent_append (hr : Ends r) {positive : Bool} {digits : Nat} {start : Int}
    {b s : Bytes} {v : Json} (h : exponent positive digits start b = .ok (v, s)) :
    exponent positive digits start (b ++ r) = .ok (v, s ++ r) := by
  by_cases hplus : ∃ t, b = 0x2B :: t
  · obtain ⟨t, rfl⟩ := hplus
    have h : exponentDigits positive digits start true t = .ok (v, s) := h
    exact exponentDigits_append hr h
  · by_cases hminus : ∃ t, b = 0x2D :: t
    · obtain ⟨t, rfl⟩ := hminus
      have h : exponentDigits positive digits start false t = .ok (v, s) := h
      exact exponentDigits_append hr h
    · have hplus' : ∀ t, b ≠ 0x2B :: t := fun t ht => hplus ⟨t, ht⟩
      have hminus' : ∀ t, b ≠ 0x2D :: t := fun t ht => hminus ⟨t, ht⟩
      rw [exponent_unsigned hplus' hminus'] at h
      rw [exponent_unsigned (not_head hr (by decide) hplus') (not_head hr (by decide) hminus')]
      exact exponentDigits_append hr h

theorem afterInteger_append (hr : Ends r) {positive : Bool} {digits surplus : Nat}
    {b s : Bytes} {v : Json} (h : afterInteger positive digits surplus b = .ok (v, s)) :
    afterInteger positive digits surplus (b ++ r) = .ok (v, s ++ r) := by
  unfold afterInteger at h
  split at h
  · next t =>
    dsimp only at h
    rw [List.cons_append, afterInteger, takeWhile_append hr, dropWhile_append hr]
    dsimp only
    split at h
    · split at h
      · cases h
      · cases h
    · next hplaces =>
      rw [if_neg hplaces]
      split at h
      · next u hu =>
        rw [hu]
        exact exponent_append hr h
      · next u hu =>
        rw [hu]
        exact exponent_append hr h
      · next hlower hupper =>
        split
        · next hb => exact (not_head hr (by decide) hlower _ hb).elim
        · next hb => exact (not_head hr (by decide) hupper _ hb).elim
        · exact float_append h
  · rw [List.cons_append, afterInteger]
    exact exponent_append hr h
  · rw [List.cons_append, afterInteger]
    exact exponent_append hr h
  · next hpoint hlower hupper =>
    rw [afterInteger.eq_4 _ _ _ _ (not_head hr (by decide) hpoint)
      (not_head hr (by decide) hlower) (not_head hr (by decide) hupper)]
    split at h
    · next hs =>
      rw [if_pos hs]
      exact float_append h
    · next hs =>
      rw [if_neg hs]
      split at h
      · next hp =>
        cases h
        rw [if_pos hp]
      · next hp =>
        rw [if_neg hp]
        split at h
        · next hd =>
          cases h
          rw [if_pos hd]
        · next hd =>
          cases h
          rw [if_neg hd]

/-- A number is read in the same way before anything that may follow a value. -/
theorem number_append (hr : Ends r) {positive : Bool} {b s : Bytes} {v : Json}
    (h : number positive b = .ok (v, s)) : number positive (b ++ r) = .ok (v, s ++ r) := by
  unfold number at h ⊢
  split at h
  · cases h
  · next d t =>
    dsimp only [List.cons_append]
    split at h
    · next hd =>
      rw [if_pos hd]
      split at h
      · next c u =>
        dsimp only [List.cons_append]
        split at h
        · cases h
        · next hc =>
          rw [if_neg hc]
          exact afterInteger_append hr h
      · rw [List.nil_append]
        have h := afterInteger_append hr h
        cases r with
        | nil => exact h
        | cons c u =>
          have hc : isDigit c = false := by rcases hr c u rfl with rfl | rfl | rfl <;> rfl
          dsimp only
          rw [hc]
          exact h
    · next hd =>
      rw [if_neg hd]
      split at h
      · next hdigit =>
        rw [if_pos hdigit, takeWhile_append hr, dropWhile_append hr]
        exact afterInteger_append hr h
      · cases h

end Before

/-! ### Floats in documents -/

/-- A float that is read back from what it is written as. -/
def ReadsBack (x : Float) : Prop := read (Utf8.encode (write (.real x))) = .ok (.real x)

/-- The float that a document is, if it is one. -/
def real? : Json → Option Float
  | .real x => some x
  | _ => none

instance (x : Float) : Decidable (ReadsBack x) :=
  decidable_of_iff ((read (Utf8.encode (write (.real x)))).toOption.bind real? = some x) <| by
    unfold ReadsBack
    cases read (Utf8.encode (write (.real x))) with
    | error e => exact ⟨nofun, nofun⟩
    | ok v =>
      cases v with
      | real y => simp [Except.toOption, real?]
      | _ => exact ⟨nofun, nofun⟩

/-- The characters of written numbers. -/
def IsMark (c : Char) : Prop := c.isDigit = true ∨ c = '-' ∨ c = '+' ∨ c = '.' ∨ c = 'e'

theorem isMark_ofNat {n : Nat} {c : Char} (h : c ∈ Text.ofNat n) : IsMark c :=
  .inl (Nat.isDigit_of_mem_toDigits (by decide) (by decide) h)

theorem isMark_withPoint {digits : Text} {places : Nat} (h : ∀ c ∈ digits, IsMark c) {c : Char}
    (hc : c ∈ Decimal.withPoint digits places) : IsMark c := by
  have hpadded : ∀ d ∈ List.replicate (places + 1 - digits.length) '0' ++ digits, IsMark d := by
    intro d hd
    rcases List.mem_append.mp hd with hd | hd
    · rw [(List.mem_replicate.mp hd).2]
      exact .inl rfl
    · exact h d hd
  unfold Decimal.withPoint at hc
  split at hc
  · exact h c hc
  · rcases List.mem_append.mp hc with hc | hc
    · exact hpadded c (List.mem_of_mem_take hc)
    · rcases List.mem_cons.mp hc with rfl | hc
      · exact .inr (.inr (.inr (.inl rfl)))
      · exact hpadded c (List.mem_of_mem_drop hc)

theorem isMark_positional {d : Decimal.Digits} {c : Char} (hc : c ∈ Decimal.positional d) :
    IsMark c := by
  unfold Decimal.positional at hc
  split at hc
  · exact isMark_withPoint (fun _ => isMark_ofNat) hc
  · rcases List.mem_append.mp hc with hc | hc
    · exact isMark_ofNat hc
    · rw [(List.mem_replicate.mp hc).2]
      exact .inl rfl

theorem isMark_scientific {d : Decimal.Digits} {c : Char} (hc : c ∈ Decimal.scientific d) :
    IsMark c := by
  unfold Decimal.scientific at hc
  rcases List.mem_append.mp hc with hc | hc
  · exact isMark_withPoint (fun _ => isMark_ofNat) hc
  · rcases List.mem_cons.mp hc with rfl | hc
    · exact .inr (.inr (.inr (.inr rfl)))
    · rcases List.mem_cons.mp hc with rfl | hc
      · split
        · exact .inr (.inl rfl)
        · exact .inr (.inr (.inl rfl))
      · exact isMark_ofNat hc

theorem isMark_json {x : Float} {c : Char} (hc : c ∈ Decimal.json x) : IsMark c := by
  have habs : ∀ {t : Text} {b : Bool}, c ∈ Decimal.signed b t → c = '-' ∨ c ∈ t := by
    intro t b h
    cases b with
    | false => exact .inr h
    | true => exact List.mem_cons.mp h
  rcases habs hc with rfl | hc
  · exact .inr (.inl rfl)
  · split at hc
    · exact isMark_scientific hc
    · split at hc
      · exact isMark_positional hc
      · rcases List.mem_append.mp hc with hc | hc
        · exact isMark_positional hc
        · have hzero : ∀ c ∈ ".0".toList, IsMark c := by
            intro c hc
            rcases List.mem_cons.mp hc with rfl | hc
            · exact .inr (.inr (.inr (.inl rfl)))
            · rw [List.mem_singleton.mp hc]
              exact .inl rfl
          exact hzero c hc

/-- No byte of a written float is a blank. -/
theorem not_isSpace_real {x : Float} {b : UInt8} (h : b ∈ Utf8.encode (write (.real x))) :
    isSpace b = false := by
  rw [write] at h
  obtain ⟨c, hc, hb⟩ := List.mem_flatMap.mp h
  have hascii : ∀ d : Char, d.toNat < 0x80 → b ∈ Utf8.encodeChar d → b = UInt8.ofNat d.toNat :=
    fun d hd hb => List.mem_singleton.mp (Utf8.encodeChar_ascii hd ▸ hb)
  rcases isMark_json hc with hd | rfl | rfl | rfl | rfl
  · obtain ⟨d, he, hd, -⟩ := encodeChar_digit hd
    rw [he, List.mem_singleton] at hb
    rw [hb]
    exact not_isSpace_of_isDigit hd
  · rw [hascii _ (by decide) hb]
    rfl
  · rw [hascii _ (by decide) hb]
    rfl
  · rw [hascii _ (by decide) hb]
    rfl
  · rw [hascii _ (by decide) hb]
    rfl

/-- Only what begins with a minus sign or a digit is read as a float. -/
theorem number_of_value {n : Nat} {b s : Bytes} {x : Float} (hb : ∀ c ∈ b, isSpace c = false)
    (h : value n b = .ok (.real x, s)) :
    (∃ t, b = 0x2D :: t ∧ number false t = .ok (.real x, s)) ∨
      ∃ d t, b = d :: t ∧ isDigit d = true ∧ number true b = .ok (.real x, s) := by
  cases b with
  | nil =>
    rw [value.eq_def] at h
    cases h
  | cons c t =>
    rw [value.eq_def, skipSpace_cons (hb c List.mem_cons_self)] at h
    dsimp only at h
    split at h
    · obtain ⟨u, -, h⟩ := ok_of_map h
      cases h
    split at h
    · obtain ⟨u, -, h⟩ := ok_of_map h
      cases h
    split at h
    · obtain ⟨u, -, h⟩ := ok_of_map h
      cases h
    split at h
    · next hc => exact .inl ⟨t, congrArg (· :: t) hc, h⟩
    split at h
    · next hd => exact .inr ⟨c, t, rfl, hd, h⟩
    split at h
    · obtain ⟨u, -, h⟩ := ok_of_map h
      cases h
    split at h
    · split at h
      · cases h
      · unfold arrayBody at h
        split at h
        · cases h
        · cases h
        · obtain ⟨u, -, h⟩ := ok_of_map h
          cases h
    split at h
    · split at h
      · cases h
      · unfold objectBody at h
        split at h
        · cases h
        · cases h
        · obtain ⟨u, -, h⟩ := ok_of_map h
          cases h
    · cases h

theorem eq_nil_of_skipSpace {b : Bytes} (hb : ∀ c ∈ b, isSpace c = false)
    (h : skipSpace b = []) : b = [] := by
  cases b with
  | nil => rfl
  | cons c t =>
    rw [skipSpace_cons (hb c List.mem_cons_self)] at h
    cases h

namespace ReadsBack

variable {x : Float} (h : ReadsBack x)
include h

/-- What a float that is read back is written as is a number up to its end. -/
theorem number_eq :
    (∃ t, Utf8.encode (write (.real x)) = 0x2D :: t ∧ number false t = .ok (.real x, [])) ∨
      ∃ d t, Utf8.encode (write (.real x)) = d :: t ∧ isDigit d = true ∧
        number true (d :: t) = .ok (.real x, []) := by
  obtain ⟨⟨v, s⟩, hv, hend⟩ := ok_of_bind h
  have hreal : v = .real x ∧ skipSpace s = [] := by
    dsimp only at hend
    split at hend
    · next hs =>
      cases hend
      exact ⟨rfl, hs⟩
    · cases hend
  obtain ⟨rfl, hs⟩ := hreal
  -- nothing is left, for there are no blanks that could be left
  have hnil : s <:+ Utf8.encode (write (.real x)) → s = [] := fun hsuffix =>
    eq_nil_of_skipSpace (fun c hc => not_isSpace_real (hsuffix.subset hc)) hs
  rcases number_of_value (fun _ => not_isSpace_real) hv with ⟨t, he, hn⟩ | ⟨d, t, he, hd, hn⟩
  · have hsuffix := (number_read hn 0 0).1.trans (List.suffix_cons 0x2D t)
    obtain rfl := hnil (he ▸ hsuffix)
    exact .inl ⟨t, he, hn⟩
  · obtain rfl := hnil (number_read hn 0 0).1
    exact .inr ⟨d, t, he, hd, he ▸ hn⟩

theorem head : ∃ b s, Utf8.encode (write (.real x)) = b :: s ∧ isSpace b = false ∧ b ≠ 0x5D := by
  rcases h.number_eq with ⟨t, he, -⟩ | ⟨d, t, he, hd, -⟩
  · exact ⟨_, t, he, rfl, by decide⟩
  · refine ⟨d, t, he, not_isSpace_of_isDigit hd, ?_⟩
    rintro rfl
    cases hd

/-- It can be read back from inside an array or an object, too. -/
theorem value_eq (n : Nat) {r : Bytes} (hr : Ends r) :
    value n (Utf8.encode (write (.real x)) ++ r) = .ok (.real x, r) := by
  rcases h.number_eq with ⟨t, he, hn⟩ | ⟨d, t, he, hd, hn⟩
  · rw [he, List.cons_append, value_minus]
    exact number_append hr hn
  · rw [he, List.cons_append, value_digit hd]
    exact number_append hr hn

end ReadsBack

end Json
end MailMerge
