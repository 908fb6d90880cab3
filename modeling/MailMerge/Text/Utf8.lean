import MailMerge.Text

/-!
UTF-8: every character is written as one to four bytes, and the reader either takes a whole
well-formed character from the front of a byte sequence or reports how many bytes of an ill-formed
one belong together. The lenient reading puts the replacement character for each such group.
-/

namespace MailMerge

/-- A sequence of bytes. -/
abbrev Bytes := List UInt8

namespace Utf8

/-- A byte that continues a character, with `n` as its six payload bits. -/
def tail (n : Nat) : UInt8 := UInt8.ofNat (0x80 + n % 64)

/-- The bytes of one character. -/
def encodeChar (c : Char) : Bytes :=
  let n := c.toNat
  if n < 0x80 then [UInt8.ofNat n]
  else if n < 0x800 then [UInt8.ofNat (0xC0 + n / 64), tail n]
  else if n < 0x10000 then [UInt8.ofNat (0xE0 + n / 4096), tail (n / 64), tail n]
  else [UInt8.ofNat (0xF0 + n / 262144), tail (n / 4096), tail (n / 64), tail n]

/-- The bytes of a text. -/
def encode (t : Text) : Bytes := t.flatMap encodeChar

/-- How many bytes a text takes. -/
def size (t : Text) : Nat := (encode t).length

/-- What stands at the front of a byte sequence. -/
inductive Front where
  /-- A well-formed character. -/
  | char (c : Char) (rest : Bytes)
  /-- An ill-formed group of bytes: the longest start of a character, or one byte. -/
  | stray (rest : Bytes)

/-- Whether `b` continues a character. -/
def isTail (b : UInt8) : Bool := 0x80 ≤ b && b ≤ 0xBF

/-- Whether `b` may follow the first byte `a` of a longer character: the shortest forms, the
surrogates and the values past the last character are left out here. -/
def mayFollow (a b : UInt8) : Bool :=
  if a == 0xE0 then 0xA0 ≤ b && b ≤ 0xBF
  else if a == 0xED then 0x80 ≤ b && b ≤ 0x9F
  else if a == 0xF0 then 0x90 ≤ b && b ≤ 0xBF
  else if a == 0xF4 then 0x80 ≤ b && b ≤ 0x8F
  else isTail b

/-- The payload bits of a continuing byte. -/
def payload (b : UInt8) : Nat := b.toNat - 0x80

/-- The front of the sequence `a :: r`. -/
def front (a : UInt8) (r : Bytes) : Front :=
  if a < 0x80 then .char (Char.ofNat a.toNat) r
  else if a < 0xC2 then .stray r
  else if a < 0xE0 then
    match r with
    | b :: r₁ =>
      if isTail b then .char (Char.ofNat ((a.toNat - 0xC0) * 64 + payload b)) r₁ else .stray r
    | [] => .stray []
  else if a < 0xF0 then
    match r with
    | b :: r₁ =>
      if mayFollow a b then
        match r₁ with
        | c :: r₂ =>
          if isTail c then
            .char (Char.ofNat ((a.toNat - 0xE0) * 4096 + payload b * 64 + payload c)) r₂
          else .stray r₁
        | [] => .stray []
      else .stray r
    | [] => .stray []
  else if a < 0xF5 then
    match r with
    | b :: r₁ =>
      if mayFollow a b then
        match r₁ with
        | c :: r₂ =>
          if isTail c then
            match r₂ with
            | d :: r₃ =>
              if isTail d then
                .char (Char.ofNat ((a.toNat - 0xF0) * 262144 + payload b * 4096 + payload c * 64
                  + payload d)) r₃
              else .stray r₂
            | [] => .stray []
          else .stray r₁
        | [] => .stray []
      else .stray r
    | [] => .stray []
  else .stray r

/-- Decodes with at most `fuel` characters; `strict` gives up at an ill-formed group. -/
def decodeWith (strict : Bool) : Nat → Bytes → Option Text
  | _, [] => some []
  | 0, _ :: _ => none
  | fuel + 1, a :: r =>
    match front a r with
    | .char c rest => (decodeWith strict fuel rest).map (c :: ·)
    | .stray rest => if strict then none else (decodeWith strict fuel rest).map ('\uFFFD' :: ·)

/-- The text that the bytes encode, if they are well formed. -/
def decode? (b : Bytes) : Option Text := decodeWith true b.length b

/-- The text of the bytes, with the replacement character for each ill-formed group. -/
def decodeLossy (b : Bytes) : Text := (decodeWith false b.length b).getD []

/-! ### Reading what was written -/

theorem toNat_ofNat {n : Nat} (h : n < 256) : (UInt8.ofNat n).toNat = n := by
  simpa using h

theorem toNat_tail (n : Nat) : (tail n).toNat = 0x80 + n % 64 := toNat_ofNat (by omega)

theorem isTail_tail (n : Nat) : isTail (tail n) = true := by
  simp only [isTail, Bool.and_eq_true, decide_eq_true_eq, UInt8.le_iff_toNat_le, toNat_tail]
  simp
  omega

theorem payload_tail (n : Nat) : payload (tail n) = n % 64 := by
  have := toNat_tail n
  unfold payload
  omega

theorem toNat_valid (c : Char) :
    c.toNat < 0xD800 ∨ (0xDFFF < c.toNat ∧ c.toNat < 0x110000) := by
  have h := c.valid
  unfold UInt32.isValidChar Nat.isValidChar at h
  exact h

theorem mayFollow_tail {a : UInt8} {n : Nat}
    (h0 : a.toNat = 0xE0 → 32 ≤ n % 64) (h1 : a.toNat = 0xED → n % 64 < 32)
    (h2 : a.toNat = 0xF0 → 16 ≤ n % 64) (h3 : a.toNat = 0xF4 → n % 64 < 16) :
    mayFollow a (tail n) = true := by
  simp only [mayFollow, beq_iff_eq, UInt8.le_iff_toNat_le, ← UInt8.toNat_inj, toNat_tail]
  simp only [UInt8.reduceToNat]
  split
  · next h => simp; have := h0 h; omega
  · split
    · next h => simp; have := h1 h; omega
    · split
      · next h => simp; have := h2 h; omega
      · split
        · next h => simp; have := h3 h; omega
        · exact isTail_tail n

/-- What one character is written as is read as that character. -/
theorem front_encodeChar (c : Char) (rest : Bytes) :
    ∃ a r, encodeChar c ++ rest = a :: r ∧ front a r = .char c rest := by
  have hv := toNat_valid c
  have hc : Char.ofNat c.toNat = c := Char.ofNat_toNat c
  unfold encodeChar
  generalize c.toNat = n at hv hc
  simp only []
  split
  · next h =>
    refine ⟨_, _, rfl, ?_⟩
    rw [front.eq_def, if_pos, toNat_ofNat (by omega), hc]
    · simp
    · rw [UInt8.lt_iff_toNat_lt, toNat_ofNat (by omega)]; exact h
  · split
    · next h1 h2 =>
      refine ⟨_, _, rfl, ?_⟩
      have ha : (UInt8.ofNat (0xC0 + n / 64)).toNat = 0xC0 + n / 64 := toNat_ofNat (by omega)
      rw [front.eq_def, if_neg, if_neg, if_pos]
      · simp only [List.append_eq, List.nil_append, List.cons_append, isTail_tail, if_true,
          payload_tail, ha]
        rw [show (0xC0 + n / 64 - 0xC0) * 64 + n % 64 = n by omega, hc]
      all_goals simp [UInt8.lt_iff_toNat_lt]
      all_goals omega
    · split
      · next h1 h2 h3 =>
        refine ⟨_, _, rfl, ?_⟩
        have ha : (UInt8.ofNat (0xE0 + n / 4096)).toNat = 0xE0 + n / 4096 := toNat_ofNat (by omega)
        have hm : mayFollow (UInt8.ofNat (0xE0 + n / 4096)) (tail (n / 64)) = true := by
          apply mayFollow_tail <;> rw [ha] <;> omega
        rw [front.eq_def, if_neg, if_neg, if_neg, if_pos]
        · simp only [List.append_eq, List.nil_append, List.cons_append, isTail_tail, hm, if_true,
            payload_tail, ha]
          rw [show (0xE0 + n / 4096 - 0xE0) * 4096 + n / 64 % 64 * 64 + n % 64 = n by omega, hc]
        all_goals simp [UInt8.lt_iff_toNat_lt]
        all_goals omega
      · next h1 h2 h3 =>
        refine ⟨_, _, rfl, ?_⟩
        have ha : (UInt8.ofNat (0xF0 + n / 262144)).toNat = 0xF0 + n / 262144 :=
          toNat_ofNat (by omega)
        have hm : mayFollow (UInt8.ofNat (0xF0 + n / 262144)) (tail (n / 4096)) = true := by
          apply mayFollow_tail <;> rw [ha] <;> omega
        rw [front.eq_def, if_neg, if_neg, if_neg, if_neg, if_pos]
        · simp only [List.append_eq, List.nil_append, List.cons_append, isTail_tail, hm, if_true,
            payload_tail, ha]
          rw [show (0xF0 + n / 262144 - 0xF0) * 262144 + n / 4096 % 64 * 4096 + n / 64 % 64 * 64
            + n % 64 = n by omega, hc]
        all_goals simp [UInt8.lt_iff_toNat_lt]
        all_goals omega

theorem decodeWith_encode (strict : Bool) (t : Text) (fuel : Nat) (h : t.length ≤ fuel) :
    decodeWith strict fuel (encode t) = some t := by
  induction t generalizing fuel with
  | nil => simp [encode, decodeWith]
  | cons c t ih =>
    obtain ⟨f, rfl⟩ : ∃ f, fuel = f + 1 := ⟨fuel - 1, by simp at h; omega⟩
    obtain ⟨a, r, he, hf⟩ := front_encodeChar c (encode t)
    have : encode (c :: t) = a :: r := by rw [← he]; simp [encode]
    rw [this, decodeWith, hf]
    simp [ih f (by simp at h; omega)]

theorem length_le_size (t : Text) : t.length ≤ (encode t).length := by
  induction t with
  | nil => simp
  | cons c t ih =>
    obtain ⟨a, r, he, -⟩ := front_encodeChar c []
    have : 1 ≤ (encodeChar c).length := by
      rw [List.append_nil] at he; rw [he]; simp
    simp [encode] at ih ⊢
    omega

/-- What is written is read back. -/
theorem decode?_encode (t : Text) : decode? (encode t) = some t :=
  decodeWith_encode true t _ (length_le_size t)

theorem decodeLossy_encode (t : Text) : decodeLossy (encode t) = t := by
  rw [decodeLossy, decodeWith_encode false t _ (length_le_size t), Option.getD_some]

end Utf8
end MailMerge
