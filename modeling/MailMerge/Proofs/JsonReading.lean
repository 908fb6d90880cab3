import MailMerge.Proofs.Chains
import MailMerge.Json.Reader

/-!
# What the reader of documents gives

Every part of the reader leaves at most the bytes it was given, and what it gives is `Readable`:
integers fit into 64 bits, the members of an object have pairwise distinct names, and arrays are no
longer than the bytes they are read from.
-/

namespace MailMerge.Json

open Parsing (ok_of_bind ok_of_map)

/-- The documents that so many bytes can hold if arrays and objects may nest that deep. -/
inductive Readable (size : Nat) : Nat → Json → Prop where
  | null {n : Nat} : Readable size n .null
  | bool {n : Nat} (b : Bool) : Readable size n (.bool b)
  | integer {n : Nat} {i : Int} (low : -9223372036854775808 ≤ i) (high : i < UInt64.size) :
      Readable size n (.integer i)
  | real {n : Nat} (x : Float) : Readable size n (.real x)
  | string {n : Nat} (t : Text) : Readable size n (.string t)
  | array {n : Nat} {items : List Json} (length : items.length ≤ size)
      (h : ∀ v ∈ items, Readable size n v) : Readable size (n + 1) (.array items)
  | object {n : Nat} {members : List (Text × Json)} (names : (members.map Prod.fst).Nodup)
      (h : ∀ m ∈ members, Readable size n m.2) : Readable size (n + 1) (.object members)

/-! ### Words and numbers -/

theorem length_skipSpace (b : Bytes) : (skipSpace b).length ≤ b.length :=
  (List.dropWhile_suffix _).length_le

theorem length_expectWord {w b r : Bytes} (h : expectWord w b = .ok r) : r.length ≤ b.length := by
  fun_induction expectWord w b with
  | case1 b => cases h; exact Nat.le_refl _
  | case2 => cases h
  | case3 ws b r' ih => exact Nat.le_succ_of_le (ih h)
  | case4 => cases h

theorem suffix_power {large : Bool} {e : Nat} {b r : Bytes} {p : Option Nat}
    (h : power large e b = .ok (p, r)) : r <:+ b := by
  fun_induction power large e b with
  | case1 => cases h; exact List.suffix_refl _
  | case2 e b s hd n hn ih => exact (ih h).trans (List.suffix_cons b s)
  | case3 => cases h
  | case4 e b s =>
    cases h
    exact (List.dropWhile_suffix _).trans (List.suffix_cons b s)
  | case5 => cases h; exact List.suffix_refl _

/-- Floats are read without a further look at the bytes. -/
theorem float_read {positive : Bool} {digits : Nat} {e : Int} {b r : Bytes} {v : Json}
    (h : float positive digits e b = .ok (v, r)) : r = b ∧ ∃ x, v = .real x := by
  unfold float at h
  split at h
  · cases h
    exact ⟨rfl, _, rfl⟩
  · cases h

theorem exponent_read {positive : Bool} {digits : Nat} {start : Int} {b r : Bytes} {v : Json}
    (h : exponent positive digits start b = .ok (v, r)) : r <:+ b ∧ ∃ x, v = .real x := by
  unfold exponent at h
  split at h
  next up s hs =>
  have hsuffix : s <:+ b := by
    split at hs <;> cases hs
    · exact List.suffix_cons _ _
    · exact List.suffix_cons _ _
    · exact List.suffix_refl _
  split at h
  · cases h
  · split at h
    · obtain ⟨⟨e, t⟩, hp, ht⟩ := ok_of_bind h
      have ht' := ((suffix_power hp).trans (List.suffix_cons _ _)).trans hsuffix
      split at ht
      · next e u he =>
        cases he
        obtain ⟨rfl, hv⟩ := float_read ht
        exact ⟨ht', hv⟩
      · next u he =>
        cases he
        cases ht
        exact ⟨ht', _, rfl⟩
    · cases h

/-- Digits are taken up while they fit into 64 bits. -/
theorem absorb_lt {s : Nat} (ds : Bytes) (h : s < UInt64.size) : (absorb s ds).1 < UInt64.size := by
  induction ds generalizing s with
  | nil => exact h
  | cons d ds ih =>
    rw [absorb]
    simp only
    split
    · next hn => exact ih hn
    · exact h

theorem afterInteger_read {positive : Bool} {digits surplus : Nat} {b r : Bytes} {v : Json}
    (hd : digits < UInt64.size) (h : afterInteger positive digits surplus b = .ok (v, r))
    (size n : Nat) : r <:+ b ∧ Readable size n v := by
  unfold afterInteger at h
  split at h
  · next s =>
    have hs := (List.dropWhile_suffix isDigit : s.dropWhile isDigit <:+ s).trans
      (List.suffix_cons 0x2E s)
    simp only at h
    split at h
    · split at h <;> cases h
    · split at h
      · next t ht =>
        obtain ⟨hr, x, rfl⟩ := exponent_read h
        rw [ht] at hs
        exact ⟨(hr.trans (List.suffix_cons _ _)).trans hs, .real x⟩
      · next t ht =>
        obtain ⟨hr, x, rfl⟩ := exponent_read h
        rw [ht] at hs
        exact ⟨(hr.trans (List.suffix_cons _ _)).trans hs, .real x⟩
      · obtain ⟨rfl, x, rfl⟩ := float_read h
        exact ⟨hs, .real x⟩
  · obtain ⟨hr, x, rfl⟩ := exponent_read h
    exact ⟨hr.trans (List.suffix_cons _ _), .real x⟩
  · obtain ⟨hr, x, rfl⟩ := exponent_read h
    exact ⟨hr.trans (List.suffix_cons _ _), .real x⟩
  · split at h
    · obtain ⟨rfl, x, rfl⟩ := float_read h
      exact ⟨List.suffix_refl _, .real x⟩
    · split at h
      · cases h
        exact ⟨List.suffix_refl _, .integer (by omega) (by omega)⟩
      · split at h
        · cases h
          exact ⟨List.suffix_refl _, .real _⟩
        · cases h
          exact ⟨List.suffix_refl _, .integer (by omega) (by omega)⟩

theorem digitValue_lt {b : UInt8} (h : isDigit b = true) : digitValue b < 10 := by
  simp only [isDigit, Bool.and_eq_true, decide_eq_true_eq, UInt8.le_iff_toNat_le] at h
  simp only [digitValue, UInt8.reduceToNat] at h ⊢
  omega

theorem number_read {positive : Bool} {b r : Bytes} {v : Json}
    (h : number positive b = .ok (v, r)) (size n : Nat) : r <:+ b ∧ Readable size n v := by
  unfold number at h
  split at h
  · cases h
  · next d s =>
    split at h
    · split at h
      · next c t =>
        split at h
        · cases h
        · obtain ⟨hr, hv⟩ := afterInteger_read (by decide) h size n
          exact ⟨hr.trans (List.suffix_cons _ _), hv⟩
      · obtain ⟨hr, hv⟩ := afterInteger_read (by decide) h size n
        exact ⟨hr.trans (List.suffix_cons _ _), hv⟩
    · split at h
      · next hdigit =>
        have hlt := absorb_lt (s.takeWhile isDigit)
          (Nat.lt_trans (digitValue_lt hdigit) (by decide : 10 < UInt64.size))
        obtain ⟨hr, hv⟩ := afterInteger_read hlt h size n
        exact ⟨(hr.trans (List.dropWhile_suffix _)).trans (List.suffix_cons _ _), hv⟩
      · cases h

/-! ### Strings -/

theorem length_hex4 {b r : Bytes} {k : Nat} (h : hex4 b = .ok (k, r)) : r.length ≤ b.length := by
  unfold hex4 at h
  split at h
  · split at h
    · cases h
      simp only [List.length_cons]
      omega
    · cases h
  · cases h

theorem length_surrogateMark {m : UInt8} {b r : Bytes} (h : surrogateMark m b = .ok r) :
    r.length ≤ b.length := by
  unfold surrogateMark at h
  split at h
  · cases h
  · split at h
    · cases h
      exact Nat.le_succ _
    · cases h

theorem length_unicode {b r : Bytes} {c : Char} (h : unicode b = .ok (c, r)) :
    r.length ≤ b.length := by
  obtain ⟨⟨k, r₁⟩, h₁, h⟩ := ok_of_bind h
  have hl₁ := length_hex4 h₁
  simp only at h
  split at h
  · cases h
  · split at h
    · obtain ⟨r₂, h₂, h⟩ := ok_of_bind h
      obtain ⟨r₃, h₃, h⟩ := ok_of_bind h
      obtain ⟨⟨m, r₄⟩, h₄, h⟩ := ok_of_bind h
      have hl₂ := length_surrogateMark h₂
      have hl₃ := length_surrogateMark h₃
      have hl₄ := length_hex4 h₄
      simp only at h
      split at h
      · injection h with h
        rw [← (Prod.mk.inj h).2]
        omega
      · cases h
    · injection h with h
      rw [← (Prod.mk.inj h).2]
      exact hl₁

theorem length_unescape {b r : Bytes} {c : Char} (h : unescape b = .ok (c, r)) :
    r.length ≤ b.length := by
  revert h
  fun_cases unescape b
  case case1 => nofun
  case case10 => exact fun h => Nat.le_succ_of_le (length_unicode h)
  case case11 => nofun
  all_goals
    rintro ⟨⟩
    exact Nat.le_succ _

/-- What follows the front of a byte sequence. -/
def restOf : Utf8.Front → Bytes
  | .char _ r => r
  | .stray r => r

theorem length_front (a : UInt8) (s : Bytes) : (restOf (Utf8.front a s)).length ≤ s.length := by
  fun_cases Utf8.front a s
  all_goals
    simp only [restOf, List.length_cons, List.length_nil]
    omega

theorem length_stringText {fuel : Nat} {ill : Option Nat} {done t : Text} {b r : Bytes}
    (h : stringText fuel ill done b = .ok (t, r)) : r.length ≤ b.length := by
  induction fuel generalizing ill done b with
  | zero => cases h
  | succ fuel ih =>
    cases b with
    | nil => cases h
    | cons a s =>
      unfold stringText at h
      split at h
      · split at h
        · cases h
          exact Nat.le_succ _
        · cases h
      · refine Nat.le_succ_of_le ?_
        split at h
        · obtain ⟨⟨c, s'⟩, hu, h⟩ := ok_of_bind h
          exact Nat.le_trans (ih h) (length_unescape hu)
        · split at h
          · cases h
          · have hf := length_front a s
            split at h
            · next he =>
              rw [he] at hf
              exact Nat.le_trans (ih h) hf
            · next he =>
              rw [he] at hf
              exact Nat.le_trans (ih h) hf

/-! ### Arrays and objects -/

theorem Readable.mono {size size' n : Nat} {v : Json} (h : Readable size n v) (hs : size ≤ size') :
    Readable size' n v := by
  induction h with
  | null => exact .null
  | bool b => exact .bool b
  | integer low high => exact .integer low high
  | real x => exact .real x
  | string t => exact .string t
  | array hl _ ih => exact .array (Nat.le_trans hl hs) ih
  | object hn _ ih => exact .object hn ih

theorem Readable.deeper {size n : Nat} {v : Json} (h : Readable size n v) :
    Readable size (n + 1) v := by
  induction h with
  | null => exact .null
  | bool b => exact .bool b
  | integer low high => exact .integer low high
  | real x => exact .real x
  | string t => exact .string t
  | array hl _ ih => exact .array hl ih
  | object hn _ ih => exact .object hn ih

/-- What a part of the reader gives fits into the bytes it is given. -/
def Reads (item : Bytes → Except Fault (Json × Bytes)) (n : Nat) : Prop :=
  ∀ {b v r}, item b = .ok (v, r) → r.length ≤ b.length ∧ Readable b.length n v

section Loops

variable {item : Bytes → Except Fault (Json × Bytes)} {n : Nat}

theorem items_read (hitem : Reads item n) {size fuel : Nat} {done vs : List Json} {b r : Bytes}
    (h : items item fuel done b = .ok (vs, r)) (hb : b.length ≤ size)
    (hd : ∀ v ∈ done, Readable size n v) :
    r.length ≤ b.length ∧ vs.length ≤ done.length + fuel ∧ ∀ v ∈ vs, Readable size n v := by
  induction fuel generalizing done b with
  | zero => cases h
  | succ fuel ih =>
    obtain ⟨⟨v, s⟩, hv, h⟩ := ok_of_bind h
    obtain ⟨hs, hr⟩ := hitem hv
    have hsp := length_skipSpace s
    have hdone : ∀ w ∈ v :: done, Readable size n w := by
      rintro w (_ | ⟨_, hw⟩)
      · exact hr.mono hb
      · exact hd w hw
    simp only at h
    split at h
    · cases h
    · next t ht =>
      cases h
      rw [ht, List.length_cons] at hsp
      refine ⟨by omega, ?_, fun w hw => hdone w (List.mem_reverse.mp hw)⟩
      rw [List.length_reverse, List.length_cons]
      omega
    · next t ht =>
      rw [ht, List.length_cons] at hsp
      have htp := length_skipSpace t
      split at h
      · cases h
      · cases h
      · next u hu _ =>
        obtain ⟨h₁, h₂, h₃⟩ := ih h (by omega) hdone
        rw [List.length_cons] at h₂
        exact ⟨by omega, by omega, h₃⟩
    · cases h

theorem arrayBody_read (hitem : Reads item n) {size : Nat} {b r : Bytes} {v : Json}
    (hb : b.length < size) (h : arrayBody item b = .ok (v, r)) :
    r.length ≤ b.length ∧ Readable size (n + 1) v := by
  have hsp := length_skipSpace b
  unfold arrayBody at h
  split at h
  · cases h
  · next t ht =>
    cases h
    rw [ht, List.length_cons] at hsp
    exact ⟨by omega, .array (Nat.zero_le _) nofun⟩
  · obtain ⟨⟨vs, s⟩, hi, h⟩ := ok_of_map h
    cases h
    obtain ⟨hl, hlen, hvs⟩ := items_read hitem hi (Nat.le_trans hsp (Nat.le_of_lt hb)) nofun
    rw [List.length_nil] at hlen
    exact ⟨by omega, .array (by omega) hvs⟩

theorem member_read (hitem : Reads item n) {b r : Bytes} {m : Text × Json}
    (h : member item b = .ok (m, r)) : r.length ≤ b.length ∧ Readable b.length n m.2 := by
  unfold member at h
  split at h
  · next s =>
    obtain ⟨⟨name, t⟩, hn, h⟩ := ok_of_bind h
    have hl : t.length ≤ s.length := length_stringText hn
    have hsp := length_skipSpace t
    simp only at h
    split at h
    · cases h
    · next u hu =>
      obtain ⟨⟨v, w⟩, hv, h⟩ := ok_of_map h
      cases h
      rw [hu, List.length_cons] at hsp
      obtain ⟨hr, hread⟩ := hitem hv
      simp only [List.length_cons]
      exact ⟨by omega, hread.mono (by omega)⟩
    · cases h
  · cases h

/-- The names of members are those before and the one that is set. -/
theorem names_insert (name : Text) (value : Json) (ms : List (Text × Json)) :
    (insert name value ms).map Prod.fst =
      if name ∈ ms.map Prod.fst then ms.map Prod.fst else ms.map Prod.fst ++ [name] := by
  fun_induction insert name value ms with
  | case1 => rfl
  | case2 v r => simp
  | case3 n v r hne ih =>
    rw [List.map_cons, ih]
    have hmem : name ∈ List.map Prod.fst ((n, v) :: r) ↔ name ∈ r.map Prod.fst := by
      simp [Ne.symm hne]
    simp only [hmem]
    split <;> rfl

theorem nodup_insert {name : Text} {value : Json} {ms : List (Text × Json)}
    (h : (ms.map Prod.fst).Nodup) : ((insert name value ms).map Prod.fst).Nodup := by
  rw [names_insert]
  split
  · exact h
  · next hn =>
    rw [List.nodup_append]
    refine ⟨h, List.nodup_cons.mpr ⟨nofun, List.nodup_nil⟩, ?_⟩
    rintro a ha b (_ | ⟨_, hb⟩) rfl
    · exact hn ha
    · cases hb

theorem mem_insert {name : Text} {value : Json} {ms : List (Text × Json)} {m : Text × Json}
    (h : m ∈ insert name value ms) : m.2 = value ∨ m ∈ ms := by
  fun_induction insert name value ms with
  | case1 =>
    rw [List.mem_singleton.mp h]
    exact .inl rfl
  | case2 v r =>
    rcases List.mem_cons.mp h with rfl | h
    · exact .inl rfl
    · exact .inr (List.mem_cons_of_mem _ h)
  | case3 n v r hne ih =>
    rcases List.mem_cons.mp h with rfl | h
    · exact .inr List.mem_cons_self
    · exact (ih h).imp_right (List.mem_cons_of_mem _)

theorem members_read (hitem : Reads item n) {size fuel : Nat} {done ms : List (Text × Json)}
    {b r : Bytes} (h : members item fuel done b = .ok (ms, r)) (hb : b.length ≤ size)
    (hn : (done.map Prod.fst).Nodup) (hd : ∀ m ∈ done, Readable size n m.2) :
    r.length ≤ b.length ∧ (ms.map Prod.fst).Nodup ∧ ∀ m ∈ ms, Readable size n m.2 := by
  induction fuel generalizing done b with
  | zero => cases h
  | succ fuel ih =>
    obtain ⟨⟨⟨name, v⟩, s⟩, hv, h⟩ := ok_of_bind h
    obtain ⟨hs, hr⟩ := member_read hitem hv
    have hsp := length_skipSpace s
    have hdone : ∀ m ∈ insert name v done, Readable size n m.2 := by
      intro m hm
      rcases mem_insert hm with he | hm
      · rw [he]
        exact hr.mono hb
      · exact hd m hm
    simp only at h
    split at h
    · cases h
    · next t ht =>
      cases h
      rw [ht, List.length_cons] at hsp
      exact ⟨by omega, nodup_insert hn, hdone⟩
    · next t ht =>
      rw [ht, List.length_cons] at hsp
      have htp := length_skipSpace t
      split at h
      · cases h
      · cases h
      · obtain ⟨h₁, h₂⟩ := ih h (by omega) (nodup_insert hn) hdone
        exact ⟨by omega, h₂⟩
    · cases h

theorem objectBody_read (hitem : Reads item n) {size : Nat} {b r : Bytes} {v : Json}
    (hb : b.length ≤ size) (h : objectBody item b = .ok (v, r)) :
    r.length ≤ b.length ∧ Readable size (n + 1) v := by
  have hsp := length_skipSpace b
  unfold objectBody at h
  split at h
  · cases h
  · next t ht =>
    cases h
    rw [ht, List.length_cons] at hsp
    exact ⟨by omega, .object List.nodup_nil nofun⟩
  · obtain ⟨⟨ms, s⟩, hi, h⟩ := ok_of_map h
    cases h
    obtain ⟨hl, hn, hms⟩ := members_read hitem hi (Nat.le_trans hsp hb) List.nodup_nil nofun
    exact ⟨by omega, .object hn hms⟩

end Loops

/-- What a value gives fits into its bytes, if what its elements and members give does. -/
theorem value_step {n : Nat} (hrec : ∀ m, n = m + 1 → Reads (value m) m) : Reads (value n) n := by
  intro b v r h
  have hsp := length_skipSpace b
  rw [value.eq_def] at h
  split at h
  · cases h
  next c s hs =>
  rw [hs, List.length_cons] at hsp
  split at h
  · obtain ⟨t, ht, h⟩ := ok_of_map h
    cases h
    exact ⟨Nat.le_trans (length_expectWord ht) (by omega), .null⟩
  split at h
  · obtain ⟨t, ht, h⟩ := ok_of_map h
    cases h
    exact ⟨Nat.le_trans (length_expectWord ht) (by omega), .bool true⟩
  split at h
  · obtain ⟨t, ht, h⟩ := ok_of_map h
    cases h
    exact ⟨Nat.le_trans (length_expectWord ht) (by omega), .bool false⟩
  split at h
  · obtain ⟨hr, hv⟩ := number_read h b.length n
    have hlen := hr.length_le
    exact ⟨by omega, hv⟩
  split at h
  · obtain ⟨hr, hv⟩ := number_read h b.length n
    have hlen := hr.length_le
    rw [List.length_cons] at hlen
    exact ⟨by omega, hv⟩
  split at h
  · obtain ⟨⟨t, u⟩, ht, h⟩ := ok_of_map h
    cases h
    exact ⟨Nat.le_trans (length_stringText ht) (by omega), .string t⟩
  split at h
  · cases n with
    | zero => cases h
    | succ m =>
      obtain ⟨hr, hv⟩ := arrayBody_read (hrec m rfl) hsp h
      exact ⟨by omega, hv⟩
  split at h
  · cases n with
    | zero => cases h
    | succ m =>
      obtain ⟨hr, hv⟩ := objectBody_read (hrec m rfl) (Nat.le_of_lt hsp) h
      exact ⟨by omega, hv⟩
  · cases h

/-- What the reader gives fits into the bytes it is given. -/
theorem value_read (n : Nat) : Reads (value n) n := by
  induction n with
  | zero => exact value_step fun m hm => absurd hm (Nat.succ_ne_zero m).symm
  | succ n ih =>
    refine value_step fun m hm => ?_
    cases hm
    exact ih

/-- A document that is read fits into its bytes. -/
theorem read_readable {b : Bytes} {v : Json} (h : read b = .ok v) :
    Readable b.length depthLimit v := by
  obtain ⟨⟨w, r⟩, hw, h⟩ := ok_of_bind h
  simp only at h
  split at h
  · cases h
    exact (value_read depthLimit hw).2
  · cases h

end MailMerge.Json
