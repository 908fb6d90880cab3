import MailMerge.Proofs.JsonNumbers

/-!
# Written documents are read back

A document that the reader can give, all of whose floats are read back one by one, is read back from
what `write` makes of it, whatever comes after it in an array or an object; a document of integers
always is. Strings are followed escape by escape, arrays and objects element by element.
-/

namespace MailMerge

namespace Json

/-! ### Which documents -/

/-- The documents whose numbers are integers. The reader gives the float `-0.0` for `-0`. -/
inductive Whole : Json → Prop where
  | null : Whole .null
  | bool (b : Bool) : Whole (.bool b)
  | integer (i : Int) : Whole (.integer i)
  | minusZero : Whole (.real (-0.0))
  | string (t : Text) : Whole (.string t)
  | array {items : List Json} (h : ∀ v ∈ items, Whole v) : Whole (.array items)
  | object {members : List (Text × Json)} (h : ∀ m ∈ members, Whole m.2) : Whole (.object members)

/-- The documents all of whose floats are read back from what they are written as. -/
inductive Faithful : Json → Prop where
  | null : Faithful .null
  | bool (b : Bool) : Faithful (.bool b)
  | integer (i : Int) : Faithful (.integer i)
  | real {x : Float} (h : ReadsBack x) : Faithful (.real x)
  | string (t : Text) : Faithful (.string t)
  | array {items : List Json} (h : ∀ v ∈ items, Faithful v) : Faithful (.array items)
  | object {members : List (Text × Json)} (h : ∀ m ∈ members, Faithful m.2) :
      Faithful (.object members)

theorem Whole.faithful {v : Json} (h : Whole v) : Faithful v := by
  induction h with
  | null => exact .null
  | bool b => exact .bool b
  | integer i => exact .integer i
  | minusZero => exact .real (by decide +kernel)
  | string t => exact .string t
  | array _ ih => exact .array ih
  | object _ ih => exact .object ih

/-! ### Strings -/

theorem hexValue?_hexDigit (n : Nat) :
    hexValue? (UInt8.ofNat (hexDigit n).toNat) = some (n % 16) := by
  have h : ∀ d : Fin 16, hexValue? (UInt8.ofNat (Nat.digitChar d).toNat) = some d.val := by decide
  exact h ⟨n % 16, Nat.mod_lt _ (by decide)⟩

theorem hexDigit_ascii (n : Nat) : (hexDigit n).toNat < 0x80 := by
  have h : ∀ d : Fin 16, (Nat.digitChar d).toNat < 0x80 := by decide
  exact h ⟨n % 16, Nat.mod_lt _ (by decide)⟩

/-- The escape of a control character. -/
theorem unicode_control {c : Char} (h : c.toNat < 0x20) (r : Bytes) :
    unicode (Utf8.encode ['0', '0', hexDigit (c.toNat / 16), hexDigit c.toNat] ++ r) =
      .ok (c, r) := by
  have hn : ((0 * 16 + 0) * 16 + c.toNat / 16 % 16) * 16 + c.toNat % 16 = c.toNat := by omega
  have hbytes : Utf8.encode ['0', '0', hexDigit (c.toNat / 16), hexDigit c.toNat] =
      [0x30, 0x30, UInt8.ofNat (hexDigit (c.toNat / 16)).toNat,
        UInt8.ofNat (hexDigit c.toNat).toNat] := by
    simp only [Utf8.encode_cons, Utf8.encodeChar_ascii (hexDigit_ascii _)]
    rfl
  have h0 : hexValue? 0x30 = some 0 := rfl
  rw [hbytes, unicode]
  simp only [List.cons_append, List.nil_append, hex4, h0, hexValue?_hexDigit, hn]
  change (if 0xDC00 ≤ c.toNat ∧ c.toNat ≤ 0xDFFF then _ else
    if 0xD800 ≤ c.toNat ∧ c.toNat ≤ 0xDBFF then _ else _) = _
  rw [if_neg (by omega), if_neg (by omega), Char.ofNat_toNat]

/-- A character that needs no escape is read as it stands. -/
theorem stringText_plain {c : Char} (hq : c ≠ '"') (hb : c ≠ '\\') (hc : 0x20 ≤ c.toNat)
    (fuel : Nat) (done : Text) (r : Bytes) :
    stringText (fuel + 1) none done (Utf8.encodeChar c ++ r) =
      stringText fuel none (c :: done) r := by
  obtain ⟨a, s, he, hf⟩ := Utf8.front_encodeChar c r
  have hascii : a < 0x80 → c = Char.ofNat a.toNat := by
    intro ha
    rw [Utf8.front.eq_def, if_pos ha] at hf
    cases hf
    rfl
  have ha₁ : a ≠ 0x22 := by
    rintro rfl
    exact hq (hascii (by decide))
  have ha₂ : a ≠ 0x5C := by
    rintro rfl
    exact hb (hascii (by decide))
  have ha₃ : ¬ a < 0x20 := by
    intro ha
    have hlt : a.toNat < 0x20 := UInt8.lt_iff_toNat_lt.mp ha
    have hv : a.toNat.isValidChar := .inl (by omega)
    have hn : c.toNat = a.toNat := by
      rw [hascii (UInt8.lt_trans ha (by decide)), Char.ofNat, dif_pos hv]
      rfl
    omega
  rw [he, stringText, if_neg ha₁, if_neg ha₂, if_neg ha₃, hf]
  rfl

/-- A character of a string is read from its escape. -/
theorem stringText_escape (fuel : Nat) (done : Text) (c : Char) (r : Bytes) :
    stringText (fuel + 1) none done (Utf8.encode (escape c) ++ r) =
      stringText fuel none (c :: done) r := by
  unfold escape
  split
  · rfl
  · rfl
  · rfl
  · rfl
  · rfl
  · rfl
  · rfl
  · next hq hb _ _ _ _ _ =>
    split
    · next hc =>
      let digits := Utf8.encode ['0', '0', hexDigit (c.toNat / 16), hexDigit c.toNat]
      have hu : unescape (0x75 :: (digits ++ r)) = .ok (c, r) := unicode_control hc r
      change (unescape (0x75 :: (digits ++ r)) >>= fun p => stringText fuel none (p.1 :: done) p.2)
        = _
      rw [hu]
      rfl
    · next hc =>
      rw [Utf8.encode, List.flatMap_singleton, stringText_plain hq hb (Nat.le_of_not_lt hc)]

/-- The characters of a string are read from their escapes, up to the closing quote. -/
theorem stringText_escapes {fuel : Nat} {done t : Text} {r : Bytes} (h : t.length < fuel) :
    stringText fuel none done (Utf8.encode (t.flatMap escape) ++ 0x22 :: r) =
      .ok (done.reverse ++ t, r) := by
  induction t generalizing fuel done with
  | nil =>
    obtain ⟨f, rfl⟩ : ∃ f, fuel = f + 1 := ⟨fuel - 1, by simp at h; omega⟩
    rw [List.append_nil]
    rfl
  | cons c t ih =>
    obtain ⟨f, rfl⟩ : ∃ f, fuel = f + 1 := ⟨fuel - 1, by simp at h; omega⟩
    rw [List.flatMap_cons, Utf8.encode_append, List.append_assoc, stringText_escape,
      ih (Nat.lt_of_succ_lt_succ h), List.reverse_cons, List.append_assoc]
    rfl

theorem escape_ne_nil (c : Char) : escape c ≠ [] := by
  unfold escape
  split
  case h_8 => split <;> exact List.cons_ne_nil _ _
  all_goals exact List.cons_ne_nil _ _

theorem length_le_flatMap_escape (t : Text) : t.length ≤ (t.flatMap escape).length := by
  induction t with
  | nil => exact Nat.le_refl _
  | cons c t ih =>
    have := List.length_pos_iff.2 (escape_ne_nil c)
    rw [List.flatMap_cons, List.length_append, List.length_cons]
    omega

/-- A string is read back, whatever follows it. -/
theorem stringBody_quote (t : Text) (r : Bytes) :
    stringBody (Utf8.encode (t.flatMap escape ++ ['"']) ++ r) = .ok (t, r) := by
  have hl : t.length ≤ (Utf8.encode (t.flatMap escape)).length :=
    Nat.le_trans (length_le_flatMap_escape t) (Utf8.length_le_size _)
  rw [stringBody, Utf8.encode_append, List.append_assoc]
  refine stringText_escapes ?_
  simp only [List.length_append]
  omega

/-! ### Values -/

/-- A written document begins with none of a blank and a closing bracket. -/
theorem write_head {v : Json} (hi : Faithful v) : ∃ b s, Utf8.encode v.write = b :: s ∧
    isSpace b = false ∧ b ≠ 0x5D := by
  cases hi with
  | integer i =>
    rw [write, Text.ofInt]
    split
    · exact ⟨_, _, rfl, rfl, by decide⟩
    · obtain ⟨d, ds, hd⟩ :=
        List.exists_cons_of_ne_nil (Nat.toDigits_ne_nil (n := i.natAbs) (b := 10))
      have hdigit : d.isDigit = true :=
        Nat.isDigit_of_mem_toDigits (by decide) (by decide) (hd ▸ List.mem_cons_self)
      obtain ⟨b, hb, hbd, -⟩ := encodeChar_digit hdigit
      refine ⟨b, Utf8.encode ds, ?_, not_isSpace_of_isDigit hbd, ?_⟩
      · rw [Text.ofNat, hd, Utf8.encode_cons, hb]
        rfl
      · rintro rfl
        cases hbd
  | bool b => cases b <;> exact ⟨_, _, rfl, rfl, by decide⟩
  | null => exact ⟨_, _, rfl, rfl, by decide⟩
  | real h => exact h.head
  | string t =>
    rw [write]
    exact ⟨_, _, rfl, rfl, by decide⟩
  | array h =>
    rw [write]
    exact ⟨_, _, rfl, rfl, by decide⟩
  | object h =>
    rw [write]
    exact ⟨_, _, rfl, rfl, by decide⟩

theorem writeItems_head {v : Json} (hi : Faithful v) (vs : List Json) :
    ∃ b s, Utf8.encode (writeItems (v :: vs)) = b :: s ∧ isSpace b = false ∧ b ≠ 0x5D := by
  obtain ⟨b, s, he, hb⟩ := write_head hi
  cases vs with
  | nil => exact ⟨b, s, by rw [writeItems, he], hb⟩
  | cons w vs => exact ⟨b, _, by rw [writeItems, Utf8.encode_append, he]; rfl, hb⟩

theorem writeMembers_head (m : Text × Json) (ms : List (Text × Json)) :
    ∃ s, Utf8.encode (writeMembers (m :: ms)) = 0x22 :: s := by
  cases ms with
  | nil => exact ⟨_, rfl⟩
  | cons n ms => exact ⟨_, rfl⟩

theorem length_writeItems (v : Json) (vs : List Json) :
    vs.length ≤ (writeItems (v :: vs)).length := by
  induction vs generalizing v with
  | nil => exact Nat.zero_le _
  | cons w ws ih =>
    have := ih w
    rw [writeItems, List.length_append, List.length_cons, List.length_cons]
    omega

theorem length_writeMembers (m : Text × Json) (ms : List (Text × Json)) :
    ms.length ≤ (writeMembers (m :: ms)).length := by
  induction ms generalizing m with
  | nil => exact Nat.zero_le _
  | cons w ws ih =>
    have := ih w
    rw [writeMembers]
    simp only [List.length_append, List.length_cons]
    omega

section Loops

variable {item : Bytes → Except Fault (Json × Bytes)}

theorem items_last {fuel : Nat} {done : List Json} {b r s : Bytes} {v : Json}
    (hv : item b = .ok (v, r)) (hr : skipSpace r = 0x5D :: s) :
    items item (fuel + 1) done b = .ok ((v :: done).reverse, s) := by
  rw [items, hv]
  simp only [bind, Except.bind, hr]

theorem items_more {fuel : Nat} {done : List Json} {b r s s' : Bytes} {c : UInt8} {v : Json}
    (hv : item b = .ok (v, r)) (hr : skipSpace r = 0x2C :: s) (hs : skipSpace s = c :: s')
    (hc : c ≠ 0x5D) : items item (fuel + 1) done b = items item fuel (v :: done) (c :: s') := by
  rw [items, hv]
  simp only [bind, Except.bind, hr, hs]
  split
  · next h => cases h
  · next h =>
    cases h
    exact absurd rfl hc
  · rfl

/-- The elements of an array are read back, if each of them is. -/
theorem items_write {v : Json} {vs : List Json} (hi : ∀ w ∈ v :: vs, Faithful w)
    (hitem : ∀ w ∈ v :: vs, ∀ r, Ends r → item (Utf8.encode w.write ++ r) = .ok (w, r))
    {fuel : Nat} (hf : vs.length < fuel) (done : List Json) (r : Bytes) :
    items item fuel done (Utf8.encode (writeItems (v :: vs)) ++ 0x5D :: r) =
      .ok (done.reverse ++ v :: vs, r) := by
  induction vs generalizing v fuel done with
  | nil =>
    obtain ⟨f, rfl⟩ : ∃ f, fuel = f + 1 := ⟨fuel - 1, by omega⟩
    have hr : Ends (0x5D :: r) := ends_cons (.inr (.inl rfl)) r
    rw [writeItems, items_last (hitem v List.mem_cons_self _ hr) rfl, List.reverse_cons]
  | cons w ws ih =>
    obtain ⟨f, rfl⟩ : ∃ f, fuel = f + 1 := ⟨fuel - 1, by omega⟩
    obtain ⟨b, s, he, hb, hne⟩ := writeItems_head (hi w (by simp)) ws
    have hrec := ih (fun x hx => hi x (List.mem_cons_of_mem v hx))
      (fun x hx => hitem x (List.mem_cons_of_mem v hx)) (Nat.lt_of_succ_lt_succ hf) (v :: done)
    have hcomma : Utf8.encode (writeItems (v :: w :: ws)) ++ 0x5D :: r =
        Utf8.encode v.write ++ 0x2C :: (b :: (s ++ 0x5D :: r)) := by
      rw [writeItems, Utf8.encode_append, Utf8.encode_cons, he, List.append_assoc]
      rfl
    have hr : Ends (0x2C :: (b :: (s ++ 0x5D :: r))) := ends_cons (.inl rfl) _
    rw [he, List.cons_append] at hrec
    rw [hcomma, items_more (hitem v List.mem_cons_self _ hr) rfl (skipSpace_cons hb _) hne, hrec,
      List.reverse_cons, List.append_assoc]
    rfl

/-- A member is read back, if its value is. -/
theorem member_write {m : Text × Json}
    (hitem : ∀ r, Ends r → item (Utf8.encode m.2.write ++ r) = .ok (m.2, r)) {r : Bytes}
    (hr : Ends r) :
    member item (Utf8.encode (quote m.1 ++ ':' :: m.2.write) ++ r) = .ok (m, r) := by
  have hbytes : Utf8.encode (quote m.1 ++ ':' :: m.2.write) ++ r =
      0x22 :: (Utf8.encode (m.1.flatMap escape ++ ['"']) ++
        0x3A :: (Utf8.encode m.2.write ++ r)) := by
    rw [quote, Utf8.encode_append, List.append_assoc]
    rfl
  rw [hbytes, member, stringBody_quote]
  simp only [bind, Except.bind]
  rw [skipSpace_cons rfl]
  simp only [hitem r hr, Except.map]

theorem members_last {fuel : Nat} {done : List (Text × Json)} {b r s : Bytes} {m : Text × Json}
    (hm : member item b = .ok (m, r)) (hr : skipSpace r = 0x7D :: s) :
    members item (fuel + 1) done b = .ok (insert m.1 m.2 done, s) := by
  rw [members, hm]
  simp only [bind, Except.bind, hr]

theorem members_more {fuel : Nat} {done : List (Text × Json)} {b r s s' : Bytes} {c : UInt8}
    {m : Text × Json} (hm : member item b = .ok (m, r)) (hr : skipSpace r = 0x2C :: s)
    (hs : skipSpace s = c :: s') (hc : c ≠ 0x7D) :
    members item (fuel + 1) done b = members item fuel (insert m.1 m.2 done) (c :: s') := by
  rw [members, hm]
  simp only [bind, Except.bind, hr, hs]
  split
  · next h => cases h
  · next h =>
    cases h
    exact absurd rfl hc
  · rfl

/-- A member with a new name comes last. -/
theorem insert_of_not_mem {name : Text} {value : Json} {ms : List (Text × Json)}
    (h : name ∉ ms.map Prod.fst) : insert name value ms = ms ++ [(name, value)] := by
  induction ms with
  | nil => rfl
  | cons m ms ih =>
    rw [List.map_cons, List.mem_cons, not_or] at h
    rw [insert, if_neg (Ne.symm h.1), ih h.2]
    rfl

/-- The members of an object are read back, if each of them is. -/
theorem members_write {m : Text × Json} {ms : List (Text × Json)}
    (hitem : ∀ n ∈ m :: ms, ∀ r, Ends r → item (Utf8.encode n.2.write ++ r) = .ok (n.2, r))
    {fuel : Nat} (hf : ms.length < fuel) (done : List (Text × Json))
    (hn : ((done ++ m :: ms).map Prod.fst).Nodup) (r : Bytes) :
    members item fuel done (Utf8.encode (writeMembers (m :: ms)) ++ 0x7D :: r) =
      .ok (done ++ m :: ms, r) := by
  have hnew : ∀ {m : Text × Json} {ms done : List (Text × Json)},
      ((done ++ m :: ms).map Prod.fst).Nodup → insert m.1 m.2 done = done ++ [m] := by
    intro m ms done hn
    apply insert_of_not_mem
    rw [List.map_append, List.map_cons, List.nodup_append] at hn
    exact fun h => hn.2.2 _ h _ List.mem_cons_self rfl
  induction ms generalizing m fuel done with
  | nil =>
    obtain ⟨f, rfl⟩ : ∃ f, fuel = f + 1 := ⟨fuel - 1, by omega⟩
    have hr : Ends (0x7D :: r) := ends_cons (.inr (.inr rfl)) r
    rw [writeMembers, members_last (member_write (hitem m List.mem_cons_self) hr) rfl, hnew hn]
  | cons w ws ih =>
    obtain ⟨f, rfl⟩ : ∃ f, fuel = f + 1 := ⟨fuel - 1, by omega⟩
    have hstep : done ++ m :: w :: ws = done ++ [m] ++ w :: ws := by simp
    have hrec := ih (fun x hx => hitem x (List.mem_cons_of_mem m hx)) (Nat.lt_of_succ_lt_succ hf) _
      (hstep ▸ hn)
    obtain ⟨s, he⟩ := writeMembers_head w ws
    have hcomma : Utf8.encode (writeMembers (m :: w :: ws)) ++ 0x7D :: r =
        Utf8.encode (quote m.1 ++ ':' :: m.2.write) ++ 0x2C :: (0x22 :: (s ++ 0x7D :: r)) := by
      have hw : writeMembers (m :: w :: ws) =
          quote m.1 ++ ':' :: m.2.write ++ ',' :: writeMembers (w :: ws) := by
        rw [writeMembers, List.append_assoc]
        rfl
      rw [hw, Utf8.encode_append, Utf8.encode_cons, he, List.append_assoc]
      rfl
    have hr : Ends (0x2C :: (0x22 :: (s ++ 0x7D :: r))) := ends_cons (.inl rfl) _
    have hm := member_write (hitem m List.mem_cons_self) hr
    rw [he, List.cons_append] at hrec
    rw [hcomma, members_more hm rfl (skipSpace_cons rfl _) (by decide), hnew hn, hrec, hstep]

/-- An array is read back, if its elements are. -/
theorem arrayBody_write {vs : List Json} (hi : ∀ v ∈ vs, Faithful v)
    (hitem : ∀ v ∈ vs, ∀ r, Ends r → item (Utf8.encode v.write ++ r) = .ok (v, r)) (r : Bytes) :
    arrayBody item (Utf8.encode (writeItems vs) ++ 0x5D :: r) = .ok (.array vs, r) := by
  cases vs with
  | nil =>
    rw [writeItems]
    rfl
  | cons v vs =>
    obtain ⟨b, s, he, hb, hne⟩ := writeItems_head (hi v List.mem_cons_self) vs
    have hf : vs.length < (b :: (s ++ 0x5D :: r)).length + 1 := by
      have h := Nat.le_trans (length_writeItems v vs) (Utf8.length_le_size _)
      rw [he] at h
      simp only [List.length_cons, List.length_append] at h ⊢
      omega
    have hitems := items_write hi hitem hf [] r
    rw [he, List.cons_append] at hitems ⊢
    rw [arrayBody, skipSpace_cons hb]
    split
    · next h => cases h
    · next h =>
      cases h
      exact absurd rfl hne
    · rw [hitems]
      rfl

/-- An object is read back, if its members are. -/
theorem objectBody_write {ms : List (Text × Json)} (hn : (ms.map Prod.fst).Nodup)
    (hitem : ∀ m ∈ ms, ∀ r, Ends r → item (Utf8.encode m.2.write ++ r) = .ok (m.2, r))
    (r : Bytes) :
    objectBody item (Utf8.encode (writeMembers ms) ++ 0x7D :: r) = .ok (.object ms, r) := by
  cases ms with
  | nil =>
    rw [writeMembers]
    rfl
  | cons m ms =>
    obtain ⟨s, he⟩ := writeMembers_head m ms
    have hf : ms.length < (0x22 :: (s ++ 0x7D :: r)).length + 1 := by
      have h := Nat.le_trans (length_writeMembers m ms) (Utf8.length_le_size _)
      rw [he] at h
      simp only [List.length_cons, List.length_append] at h ⊢
      omega
    have hmembers := members_write hitem hf [] hn r
    rw [he, List.cons_append] at hmembers ⊢
    rw [objectBody, skipSpace_cons rfl]
    split
    · next h => cases h
    · next h => cases h
    · rw [hmembers]
      rfl

end Loops

/-- A faithful document that can be read is read back from what it is written as, whatever
follows it in an array or an object. -/
theorem value_write {size n : Nat} {v : Json} (hv : Readable size n v) (hi : Faithful v) {r : Bytes}
    (hr : Ends r) : value n (Utf8.encode v.write ++ r) = .ok (v, r) := by
  induction hv generalizing r with
  | null =>
    rw [write, value.eq_def]
    rfl
  | bool b =>
    cases b with
    | false => rw [write, value.eq_def]; rfl
    | true => rw [write, value.eq_def]; rfl
  | integer low high => exact value_integer low high _ hr
  | real x =>
    cases hi with
    | real h => exact h.value_eq _ hr
  | @string n t =>
    have hs : value n (Utf8.encode (write (.string t)) ++ r) =
        (stringBody (Utf8.encode (t.flatMap escape ++ ['"']) ++ r)).map
          fun p => (.string p.1, p.2) := by
      rw [write, quote, Utf8.encode_cons, value.eq_def]
      rfl
    rw [hs, stringBody_quote]
    rfl
  | @array n vs _ h ih =>
    cases hi with
    | array hi =>
      have hs : value (n + 1) (Utf8.encode (write (.array vs)) ++ r) =
          arrayBody (value n) (Utf8.encode (writeItems vs) ++ 0x5D :: r) := by
        rw [write, Utf8.encode_cons, Utf8.encode_append, value.eq_def, List.append_assoc,
          List.append_assoc]
        rfl
      rw [hs]
      exact arrayBody_write hi (fun w hw r hr => ih w hw (hi w hw) hr) r
  | @object n ms hn h ih =>
    cases hi with
    | object hi =>
      have hs : value (n + 1) (Utf8.encode (write (.object ms)) ++ r) =
          objectBody (value n) (Utf8.encode (writeMembers ms) ++ 0x7D :: r) := by
        rw [write, Utf8.encode_cons, Utf8.encode_append, value.eq_def, List.append_assoc,
          List.append_assoc]
        rfl
      rw [hs]
      exact objectBody_write hn (fun m hm r hr => ih m hm (hi m hm) hr) r

/-- A faithful document that can be read is read back from what it is written as. -/
theorem Faithful.read_write {size : Nat} {v : Json} (h : Faithful v)
    (hv : Readable size depthLimit v) : read (Utf8.encode v.write) = .ok v := by
  have h := value_write hv h (r := []) nofun
  rw [List.append_nil] at h
  rw [read, h]
  rfl

end Json
end MailMerge
