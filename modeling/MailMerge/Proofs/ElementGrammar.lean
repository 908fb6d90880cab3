import MailMerge.Proofs.Chains
import MailMerge.Statement

/-!
The grammar of elements as a relation between phrases and elements, and the proof that the parser
reads exactly its phrases: it takes a phrase from the front, and it reads each phrase that no
operator and no opening parenthesis follows.
-/

namespace MailMerge.Element

open Parsing

/-! ### The grammar -/

/-- One or more items with commas between them. -/
inductive Listed (Item : List Located → Element → Prop) : List Located → List Element → Prop where
  | one {u : List Located} {e : Element} (h : Item u e) : Listed Item u [e]
  | more {u v : List Located} {t : Located} {e : Element} {es : List Element} (hu : Item u e)
      (ht : t.token = .symbol .comma) (hv : Listed Item v es) : Listed Item (u ++ t :: v) (e :: es)

/-- Phrases for operands. -/
inductive Operand : List Located → Element → Prop where
  | number {n : Text} {line : Nat} {v : Value} (hv : Value.ofConstant? n = some v) :
      Operand [⟨.number n, line⟩] (.constant n v)
  | quoted {q : Text} {line : Nat} {v : Value} (hv : Value.ofConstant? q = some v) :
      Operand [⟨.quoted q, line⟩] (ofValue v)
  | bool {b : Bool} {line : Nat} : Operand [⟨.bool b, line⟩] (ofValue (.bool b))
  | negative {n : Text} {line line' : Nat} {v : Value}
      (hv : Value.ofConstant? ('-' :: n) = some v) :
      Operand [⟨.symbol .minus, line⟩, ⟨.number n, line'⟩] (.constant ('-' :: n) v)
  | access {p : Text} {line : Nat} : Operand [⟨.path p, line⟩] (.access p)
  | callEmpty {f : Text} {line : Nat} {s t : Located} (hf : Token.isPlainName f = true)
      (hs : s.token = .symbol .openParen) (ht : t.token = .symbol .closeParen) :
      Operand [⟨.path f, line⟩, s, t] (.call f [])
  | call {f : Text} {line : Nat} {s t : Located} {u : List Located} {as : List Element}
      (hf : Token.isPlainName f = true) (hs : s.token = .symbol .openParen)
      (hu : Listed (Chained (Chained Operand productJoin?) sumJoin?) u as)
      (ht : t.token = .symbol .closeParen) :
      Operand (⟨.path f, line⟩ :: s :: (u ++ [t])) (.call f as)
  | group {s t : Located} {u : List Located} {e : Element} (hs : s.token = .symbol .openParen)
      (hu : Chained (Chained Operand productJoin?) sumJoin? u e)
      (ht : t.token = .symbol .closeParen) : Operand (s :: (u ++ [t])) e

/-- Phrases for elements: sums of products of operands. -/
abbrev Phrase : List Located → Element → Prop := Chained (Chained Operand productJoin?) sumJoin?

/-! ### Every phrase that is read is one of the grammar -/

theorem ok_of_constant? {spelling : Text} {line : Nat} {v : Value}
    (h : constant? spelling line = .ok v) : Value.ofConstant? spelling = some v := by
  unfold constant? at h
  split at h
  · cases h; assumption
  · cases h

theorem constant?_ok {spelling : Text} {v : Value} (h : Value.ofConstant? spelling = some v)
    (line : Nat) : constant? spelling line = .ok v := by
  unfold constant?
  rw [h]

theorem argumentsFrom_sound {item : Parsing Element} {Item : List Located → Element → Prop}
    (hs : Sound item Item) {fuel : Nat} {done as : List Element} {ts rest : List Located}
    (h : argumentsFrom item fuel done ts = .ok (as, rest)) :
    ∃ u t es, ts = u ++ t :: rest ∧ Listed Item u es ∧ t.token = .symbol .closeParen ∧
      as = done.reverse ++ es := by
  induction fuel generalizing done ts with
  | zero => cases h
  | succ fuel ih =>
    obtain ⟨⟨e, ts'⟩, he, hr⟩ := ok_of_bind h
    obtain ⟨u, rfl, hu⟩ := hs he
    cases ts' with
    | nil => cases hr
    | cons t ts' =>
      simp only [] at hr
      split at hr
      · next ht =>
        obtain ⟨v, s, es, rfl, hv, hs, rfl⟩ := ih hr
        exact ⟨u ++ t :: v, s, e :: es, by simp, .more hu ht hv, hs, by simp⟩
      · split at hr
        · next ht =>
          cases hr
          exact ⟨u, t, [e], rfl, .one hu, ht, by simp⟩
        · cases hr

/-- What the arguments of a call take, the closing parenthesis included. -/
theorem arguments_sound {item : Parsing Element} {Item : List Located → Element → Prop}
    (hs : Sound item Item) {as : List Element} {ts rest : List Located}
    (h : arguments item ts = .ok (as, rest)) :
    ∃ u t, ts = u ++ t :: rest ∧ t.token = .symbol .closeParen ∧
      (u = [] ∧ as = [] ∨ Listed Item u as) := by
  unfold arguments at h
  split at h
  · next line rest' =>
    cases h
    exact ⟨[], ⟨.symbol .closeParen, line⟩, rfl, rfl, .inl ⟨rfl, rfl⟩⟩
  · obtain ⟨u, t, es, rfl, hu, ht, rfl⟩ := argumentsFrom_sound hs h
    exact ⟨u, t, rfl, ht, .inr hu⟩

theorem operand_sound (depth : Nat) : Sound (operand depth) Operand := by
  induction depth with
  | zero => intro ts a rest h; cases h
  | succ depth ih =>
    have hsum : Sound (sum (operand depth)) Phrase := chain_sound (chain_sound ih)
    intro ts e rest h
    match ts with
    | [] => cases h
    | ⟨.number n, line⟩ :: ts =>
      obtain ⟨v, hv, hr⟩ := ok_of_bind h
      cases hr
      exact ⟨_, rfl, .number (ok_of_constant? hv)⟩
    | ⟨.quoted q, line⟩ :: ts =>
      obtain ⟨v, hv, hr⟩ := ok_of_bind h
      cases hr
      exact ⟨_, rfl, .quoted (ok_of_constant? hv)⟩
    | ⟨.bool b, line⟩ :: ts =>
      cases h
      exact ⟨_, rfl, .bool⟩
    | ⟨.keyword k, line⟩ :: ts => cases h
    | ⟨.path p, line⟩ :: ts =>
      simp only [operand] at h
      split at h
      · next s line' ts' =>
        split at h
        · next hp =>
          obtain ⟨⟨as, rest'⟩, ha, hr⟩ := ok_of_bind h
          obtain ⟨u, t, rfl, ht, hu⟩ := arguments_sound hsum ha
          cases hr
          rcases hu with ⟨rfl, rfl⟩ | hu
          · exact ⟨_, rfl, .callEmpty hp rfl ht⟩
          · exact ⟨⟨.path p, line⟩ :: ⟨.symbol .openParen, line'⟩ :: (u ++ [t]), by simp,
              .call hp rfl hu ht⟩
        · cases h
      · cases h
        exact ⟨_, rfl, .access⟩
    | ⟨.symbol m, line⟩ :: ts =>
      cases m with
      | minus =>
        simp only [operand] at h
        split at h
        · obtain ⟨v, hv, hr⟩ := ok_of_bind h
          cases hr
          exact ⟨_, rfl, .negative (ok_of_constant? hv)⟩
        · cases h
        · cases h
      | openParen =>
        obtain ⟨⟨e, rest'⟩, he, hr⟩ := ok_of_bind h
        obtain ⟨u, rfl, hu⟩ := hsum he
        simp only [] at hr
        split at hr
        · next line' rest' =>
          cases hr
          exact ⟨⟨.symbol .openParen, line⟩ :: (u ++ [⟨.symbol .closeParen, line'⟩]), by simp,
            .group rfl hu rfl⟩
        · cases hr
      | _ => cases h

theorem parse_sound : Sound parse Phrase := fun ts _ _ h =>
  chain_sound (chain_sound (operand_sound ts.length)) h

/-! ### Every phrase of the grammar is read -/

/-- Whether a token may begin an element. -/
def begins : Token → Bool
  | .number _ | .quoted _ | .bool _ | .path _ => true
  | .symbol .minus | .symbol .openParen => true
  | _ => false

theorem Operand.head {u : List Located} {e : Element} (h : Operand u e) :
    ∃ t r, u = t :: r ∧ begins t.token = true := by
  cases h with
  | call _ _ _ _ => exact ⟨_, _, rfl, rfl⟩
  | group hs _ _ => exact ⟨_, _, rfl, by rw [hs]; rfl⟩
  | _ => exact ⟨_, _, rfl, rfl⟩

theorem Phrase.head {u : List Located} {e : Element} (h : Phrase u e) :
    ∃ t r, u = t :: r ∧ begins t.token = true :=
  Chained.head (Chained.head Operand.head) h

theorem Listed.head {u : List Located} {es : List Element} (h : Listed Phrase u es) :
    ∃ t r, u = t :: r ∧ begins t.token = true := by
  cases h with
  | one hu => exact hu.head
  | more hu _ _ =>
    obtain ⟨t, r, rfl, ht⟩ := hu.head
    exact ⟨t, _, rfl, ht⟩

/-- What may follow an element: no operator, and no parenthesis, which would make a call of it. -/
abbrev Ends (t : Token) : Prop :=
  (t ≠ .symbol .openParen ∧ productJoin? t = none) ∧ sumJoin? t = none

theorem ne_openParen_of_productJoin? {t : Token} (h : (productJoin? t).isSome) :
    t ≠ .symbol .openParen := by
  rintro rfl
  cases h

theorem ends_product_of_sumJoin? {t : Token} (h : (sumJoin? t).isSome) :
    t ≠ .symbol .openParen ∧ productJoin? t = none := by
  cases t with
  | symbol m => cases m <;> simp_all [sumJoin?, productJoin?]
  | _ => cases h

theorem ends_closeParen : Ends (.symbol .closeParen) := ⟨⟨by decide, rfl⟩, rfl⟩

theorem ends_comma : Ends (.symbol .comma) := ⟨⟨by decide, rfl⟩, rfl⟩

theorem argumentsFrom_complete {item : Parsing Element} {Item : List Located → Element → Prop}
    {n : Nat} (hc : Complete item Item Ends n) {u : List Located} {es : List Element}
    (h : Listed Item u es) (hn : u.length ≤ n) {t : Located} (ht : t.token = .symbol .closeParen)
    {fuel : Nat} (hf : u.length < fuel) (done : List Element) (rest : List Located) :
    argumentsFrom item fuel done (u ++ t :: rest) = .ok (done.reverse ++ es, rest) := by
  induction h generalizing fuel done with
  | @one u e hu =>
    obtain ⟨fuel, rfl⟩ : ∃ m, fuel = m + 1 := ⟨fuel - 1, by omega⟩
    unfold argumentsFrom
    rw [hc hu hn (.cons (ht ▸ ends_closeParen) rest)]
    simp [bind, Except.bind, ht]
  | @more u v s e es hu hs _ ih =>
    simp only [List.length_append, List.length_cons] at hn hf
    obtain ⟨fuel, rfl⟩ : ∃ m, fuel = m + 1 := ⟨fuel - 1, by omega⟩
    rw [argumentsFrom, List.append_assoc, List.cons_append,
      hc hu (by omega) (.cons (hs ▸ ends_comma) _)]
    simp only [bind, Except.bind, hs, if_true]
    rw [ih (by omega) (by omega)]
    simp

theorem arguments_complete {n : Nat} {item : Parsing Element} (hc : Complete item Phrase Ends n)
    {u : List Located} {es : List Element} (h : Listed Phrase u es) (hn : u.length ≤ n)
    {t : Located} (ht : t.token = .symbol .closeParen) (rest : List Located) :
    arguments item (u ++ t :: rest) = .ok (es, rest) := by
  obtain ⟨s, r, rfl, hs⟩ := h.head
  unfold arguments
  split
  · next he =>
    cases he
    cases hs
  · rw [argumentsFrom_complete hc h hn ht (by rw [List.length_append, List.length_cons]; omega)]
    rfl

theorem operand_complete (depth : Nat) :
    Complete (operand depth) Operand (· ≠ .symbol .openParen) depth := by
  induction depth with
  | zero =>
    intro u e rest hu hn hr
    obtain ⟨t, r, rfl, -⟩ := hu.head
    simp at hn
  | succ depth ih =>
    have hsum : Complete (sum (operand depth)) Phrase Ends depth :=
      chain_complete (chain_complete ih fun _ => ne_openParen_of_productJoin?)
        fun _ => ends_product_of_sumJoin?
    intro u e rest hu hn hr
    cases hu with
    | number hv =>
      simp only [List.cons_append, List.nil_append, operand, constant?_ok hv]
      rfl
    | quoted hv =>
      simp only [List.cons_append, List.nil_append, operand, constant?_ok hv]
      rfl
    | bool => rfl
    | negative hv =>
      simp only [List.cons_append, List.nil_append, operand, constant?_ok hv]
      rfl
    | access =>
      simp only [List.cons_append, List.nil_append, operand]
      split
      · exact absurd rfl (hr _ rfl)
      · rfl
    | @callEmpty f line s t hf hs ht =>
      obtain ⟨s, line'⟩ := s
      obtain ⟨t, line''⟩ := t
      cases hs
      cases ht
      simp only [List.cons_append, List.nil_append, operand, hf, if_true]
      rfl
    | @call f line s t u as hf hs hu ht =>
      obtain ⟨s, line'⟩ := s
      cases hs
      simp only [List.length_cons, List.length_append, List.length_nil] at hn
      simp only [List.cons_append, List.append_assoc, List.nil_append, operand, hf, if_true]
      rw [arguments_complete hsum hu (by omega) ht]
      rfl
    | @group s t u e hs hu ht =>
      obtain ⟨s, line⟩ := s
      obtain ⟨t, line'⟩ := t
      cases hs
      cases ht
      simp only [List.length_cons, List.length_append, List.length_nil] at hn
      simp only [List.cons_append, List.append_assoc, List.nil_append, operand]
      rw [hsum hu (by omega) (.cons ends_closeParen rest)]
      rfl

theorem parse_complete {u : List Located} {e : Element} (h : Phrase u e) {rest : List Located}
    (hr : Before Ends rest) : parse (u ++ rest) = .ok (e, rest) :=
  chain_complete (chain_complete (operand_complete _) fun _ => ne_openParen_of_productJoin?)
    (fun _ => ends_product_of_sumJoin?) h (by simp) hr

/-- The phrases that the parser reads to their end are those of the grammar. -/
theorem parse_eq_ok_iff {u : List Located} {e : Element} : parse u = .ok (e, []) ↔ Phrase u e := by
  constructor
  · intro h
    obtain ⟨v, rfl, hv⟩ := parse_sound h
    rwa [List.append_nil]
  · intro h
    have := parse_complete h .nil
    rwa [List.append_nil] at this

/-! ### Elements that begin with a group -/

theorem Operand.of_openParen {s : Located} {r : List Located} {e : Element}
    (hs : s.token = .symbol .openParen) (h : Operand (s :: r) e) :
    ∃ u t, r = u ++ [t] ∧ Phrase u e ∧ t.token = .symbol .closeParen := by
  cases h with
  | group _ hu ht => exact ⟨_, _, rfl, hu, ht⟩
  | _ => cases hs

/-- An element that begins with a group is the element of that group, unless an operator follows the
group. -/
theorem Phrase.of_openParen {s : Located} {r : List Located} {e : Element}
    (hs : s.token = .symbol .openParen) (h : Phrase (s :: r) e) :
    ∃ u t tail e', r = u ++ t :: tail ∧ Phrase u e' ∧ t.token = .symbol .closeParen ∧
      (tail = [] ∧ e = e' ∨
        ∃ j q, tail = j :: q ∧ ((productJoin? j.token).isSome ∨ (sumJoin? j.token).isSome)) := by
  obtain ⟨v, b, tail, hv, hb, htail⟩ := h.first
  obtain ⟨w, c, tail', rfl, hc, htail'⟩ := hb.first
  obtain ⟨s', w, rfl, -⟩ := hc.head
  simp only [List.cons_append, List.cons.injEq] at hv
  obtain ⟨rfl, rfl⟩ := hv
  obtain ⟨u, t, rfl, hu, ht⟩ := hc.of_openParen hs
  refine ⟨u, t, tail' ++ tail, c, by simp, hu, ht, ?_⟩
  rcases htail' with ⟨rfl, rfl⟩ | ⟨j, q, rfl, hj⟩
  · rcases htail with ⟨rfl, rfl⟩ | ⟨j, q, rfl, hj⟩
    · exact .inl ⟨rfl, rfl⟩
    · exact .inr ⟨j, q, rfl, .inr hj⟩
  · exact .inr ⟨j, q ++ tail, rfl, .inl hj⟩

end MailMerge.Element

namespace MailMerge.Statement

/-- An element alone is a statement. -/
theorem body_emit {ts : List Located} {e : Element} (h : Element.parse ts = .ok (e, [])) :
    body ts = .ok (.emit e, []) := by
  obtain ⟨⟨t, line⟩, r, rfl, ht⟩ := (Element.parse_eq_ok_iff.mp h).head
  cases t with
  | keyword k => cases ht
  | _ => simp only [body, h, bind, Except.bind]

end MailMerge.Statement
