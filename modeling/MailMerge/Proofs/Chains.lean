import MailMerge.Grammar

/-!
Phrases of a grammar and the parsers that read them. A parser is sound if what it takes from the
front of a list is a phrase for its result, and complete up to a length if it reads every phrase
that is no longer, whatever may follow it. Chains of operands pass both properties on.
-/

namespace MailMerge.Parsing

variable {α : Type}

/-- Both parts of a computation succeed if the whole does. -/
theorem ok_of_bind {ε α β : Type} {x : Except ε α} {f : α → Except ε β} {b : β}
    (h : (x >>= f) = .ok b) : ∃ a, x = .ok a ∧ f a = .ok b := by
  cases x with
  | error e => cases h
  | ok a => exact ⟨a, rfl, h⟩

theorem ok_of_map {ε α β : Type} {x : Except ε α} {f : α → β} {b : β} (h : x.map f = .ok b) :
    ∃ a, x = .ok a ∧ f a = b := by
  cases x with
  | error e => cases h
  | ok a => exact ⟨a, rfl, Except.ok.inj h⟩

/-- What a parser takes is a phrase for what it gives. -/
def Sound (parser : Parsing α) (Phrase : List Located → α → Prop) : Prop :=
  ∀ ⦃ts a rest⦄, parser ts = .ok (a, rest) → ∃ u, ts = u ++ rest ∧ Phrase u a

/-- The next token, if there is one, is one of those that may follow. -/
def Before (follow : Token → Prop) (rest : List Located) : Prop := ∀ t ∈ rest.head?, follow t.token

/-- A parser reads every phrase of at most `n` tokens before a token that may follow it. -/
def Complete (parser : Parsing α) (Phrase : List Located → α → Prop) (follow : Token → Prop)
    (n : Nat) : Prop :=
  ∀ ⦃u a rest⦄, Phrase u a → u.length ≤ n → Before follow rest → parser (u ++ rest) = .ok (a, rest)

theorem Before.nil {follow : Token → Prop} : Before follow [] := by
  rintro t ⟨⟩

theorem Before.cons {follow : Token → Prop} {t : Located} (h : follow t.token)
    (rest : List Located) : Before follow (t :: rest) := by
  rintro u ⟨⟩
  exact h

theorem Before.mono {follow follow' : Token → Prop} {rest : List Located} (h : Before follow rest)
    (hf : ∀ t, follow t → follow' t) : Before follow' rest :=
  fun t ht => hf _ (h t ht)

/-! ### Chains -/

/-- Operands with joining tokens between them, joined from left to right. -/
inductive Chained (Operand : List Located → α → Prop) (join? : Token → Option (α → α → α)) :
    List Located → α → Prop where
  | one {u : List Located} {a : α} (h : Operand u a) : Chained Operand join? u a
  | more {u v : List Located} {t : Located} {f : α → α → α} {a b : α}
      (hu : Chained Operand join? u a) (ht : join? t.token = some f) (hv : Operand v b) :
      Chained Operand join? (u ++ t :: v) (f a b)

variable {operand : Parsing α} {Operand : List Located → α → Prop}
  {join? : Token → Option (α → α → α)}

/-- A chain begins with an operand, and goes on with a joining token if it is longer. -/
theorem Chained.first {u : List Located} {a : α} (h : Chained Operand join? u a) :
    ∃ v b tail, u = v ++ tail ∧ Operand v b ∧
      (tail = [] ∧ a = b ∨ ∃ t r, tail = t :: r ∧ (join? t.token).isSome) := by
  induction h with
  | @one u a h => exact ⟨u, a, [], (List.append_nil u).symm, h, .inl ⟨rfl, rfl⟩⟩
  | @more u v t f a b _ ht _ ih =>
    obtain ⟨w, c, tail, rfl, hw, htail⟩ := ih
    refine ⟨w, c, tail ++ t :: v, List.append_assoc .., hw, .inr ?_⟩
    rcases htail with ⟨rfl, -⟩ | ⟨s, r, rfl, hs⟩
    · exact ⟨t, v, rfl, by rw [ht]; rfl⟩
    · exact ⟨s, r ++ t :: v, rfl, hs⟩

/-- A chain begins with a token that an operand may begin with. -/
theorem Chained.head {P : Token → Bool}
    (hP : ∀ {u a}, Operand u a → ∃ t r, u = t :: r ∧ P t.token = true) {u : List Located} {a : α}
    (h : Chained Operand join? u a) : ∃ t r, u = t :: r ∧ P t.token = true := by
  obtain ⟨v, b, tail, rfl, hv, -⟩ := h.first
  obtain ⟨t, r, rfl, ht⟩ := hP hv
  exact ⟨t, r ++ tail, rfl, ht⟩

theorem chainFrom_sound (hs : Sound operand Operand) {fuel : Nat} {a b : α}
    {u ts rest : List Located} (hu : Chained Operand join? u a)
    (h : chainFrom operand join? fuel a ts = .ok (b, rest)) :
    ∃ v, ts = v ++ rest ∧ Chained Operand join? (u ++ v) b := by
  induction fuel generalizing a u ts with
  | zero =>
    cases h
    exact ⟨[], rfl, by rwa [List.append_nil]⟩
  | succ fuel ih =>
    cases ts with
    | nil =>
      cases h
      exact ⟨[], rfl, by rwa [List.append_nil]⟩
    | cons t ts =>
      unfold chainFrom at h
      split at h
      · cases h
        exact ⟨[], rfl, by rwa [List.append_nil]⟩
      · next f hf =>
        obtain ⟨⟨c, ts'⟩, hc, hr⟩ := ok_of_bind h
        obtain ⟨w, rfl, hw⟩ := hs hc
        obtain ⟨v, rfl, hv⟩ := ih (hu.more hf hw) hr
        refine ⟨t :: (w ++ v), ?_, ?_⟩
        · rw [List.cons_append, List.append_assoc]
        · simpa only [List.append_assoc, List.cons_append] using hv

theorem chain_sound (hs : Sound operand Operand) :
    Sound (chain operand join?) (Chained Operand join?) := by
  intro ts a rest h
  obtain ⟨⟨b, ts'⟩, hb, hr⟩ := ok_of_bind h
  obtain ⟨u, rfl, hu⟩ := hs hb
  obtain ⟨v, rfl, hv⟩ := chainFrom_sound hs (.one hu) hr
  exact ⟨u ++ v, (List.append_assoc ..).symm, hv⟩

/-- A chain that no joining token follows has ended. -/
theorem chainFrom_stop (fuel : Nat) (a : α) {rest : List Located}
    (h : Before (fun t => join? t = none) rest) :
    chainFrom operand join? fuel a rest = .ok (a, rest) := by
  cases fuel with
  | zero => rfl
  | succ fuel =>
    cases rest with
    | nil => rfl
    | cons t rest =>
      unfold chainFrom
      rw [h t rfl]

/-- After the operands of a chain the parser has joined them and looks at what follows. -/
theorem chain_prefix {follow : Token → Prop} {n : Nat} (hc : Complete operand Operand follow n)
    (hj : ∀ t, (join? t).isSome → follow t) {u : List Located} {a : α}
    (h : Chained Operand join? u a) {rest : List Located} (hn : u.length ≤ n)
    (hr : Before follow rest) :
    ∃ fuel, rest.length ≤ fuel ∧
      chain operand join? (u ++ rest) = chainFrom operand join? fuel a rest := by
  induction h generalizing rest with
  | one hu =>
    refine ⟨rest.length, Nat.le_refl _, ?_⟩
    unfold chain
    rw [hc hu hn hr]
    rfl
  | @more u v t f a b _ ht hv ih =>
    simp only [List.length_append, List.length_cons] at hn
    have hr' : Before follow (t :: (v ++ rest)) := .cons (hj _ (by rw [ht]; rfl)) _
    obtain ⟨fuel, hf, hu⟩ := ih (by omega) hr'
    simp only [List.length_cons, List.length_append] at hf
    obtain ⟨fuel, rfl⟩ : ∃ m, fuel = m + 1 := ⟨fuel - 1, by omega⟩
    refine ⟨fuel, by omega, ?_⟩
    rw [List.append_assoc, List.cons_append, hu, chainFrom, ht]
    simp only []
    rw [hc hv (by omega) hr]
    rfl

theorem chain_complete {follow : Token → Prop} {n : Nat} (hc : Complete operand Operand follow n)
    (hj : ∀ t, (join? t).isSome → follow t) :
    Complete (chain operand join?) (Chained Operand join?)
      (fun t => follow t ∧ join? t = none) n := by
  intro u a rest hu hn hr
  obtain ⟨fuel, -, h⟩ := chain_prefix hc hj hu hn (hr.mono fun _ => And.left)
  rw [h, chainFrom_stop fuel a (hr.mono fun _ => And.right)]

end MailMerge.Parsing
