import MailMerge.Proofs.ConditionGrammar

/-!
# Where kinds of data are unknown

The parser of elements never says that a kind of data is unknown. Where the parser of conditions
does, the token that it names comes right after an `is`.
-/

namespace MailMerge

namespace Parsing

/-- A computation fails if its first part does, or the second one after it. -/
theorem error_of_bind {ε α β : Type} {x : Except ε α} {f : α → Except ε β} {e : ε}
    (h : (x >>= f) = .error e) : x = .error e ∨ ∃ a, x = .ok a ∧ f a = .error e := by
  cases x with
  | error e' => exact .inl (by cases h; rfl)
  | ok a => exact .inr ⟨a, rfl, h⟩

variable {α : Type}

/-- Every error of a parser has the property `P`, which may be about the tokens that it is given. -/
def Fails (P : List Located → TemplateError → Prop) (parser : Parsing α) : Prop :=
  ∀ ⦃ts e⦄, parser ts = .error e → P ts e

section Chains

variable {P : List Located → TemplateError → Prop} {operand : Parsing α}
  {Operand : List Located → α → Prop} {join? : Token → Option (α → α → α)}
  (hP : ∀ {u ts e}, P ts e → P (u ++ ts) e) (hs : Sound operand Operand) (ho : Fails P operand)
include hP hs ho

theorem chainFrom_fails (fuel : Nat) (a : α) : Fails P (chainFrom operand join? fuel a) := by
  induction fuel generalizing a with
  | zero => exact fun ts e h => by cases h
  | succ fuel ih =>
    intro ts e h
    cases ts with
    | nil => cases h
    | cons t ts =>
      unfold chainFrom at h
      split at h
      · cases h
      · rcases error_of_bind h with hnow | ⟨⟨b, rest⟩, hb, hlater⟩
        · exact hP (u := [t]) (ho hnow)
        · obtain ⟨u, rfl, -⟩ := hs hb
          exact hP (u := t :: u) (ih _ hlater)

theorem chain_fails : Fails P (chain operand join?) := by
  intro ts e h
  rcases error_of_bind h with hnow | ⟨⟨a, rest⟩, ha, hlater⟩
  · exact ho hnow
  · obtain ⟨u, rfl, -⟩ := hs ha
    exact hP (chainFrom_fails hP hs ho rest.length a hlater)

end Chains
end Parsing

/-- An error that is about no unknown kind of data. -/
def TemplateError.KnowsKinds (e : TemplateError) : Prop := ∀ name, e.cause ≠ .unknownKind name

/-! ### Elements -/

namespace Element

open Parsing

/-- What a parser of elements says. -/
abbrev FailsAlone {α : Type} (parser : Parsing α) : Prop :=
  Fails (fun _ e => e.KnowsKinds) parser

theorem knowsKinds_constant? {spelling : Text} {line : Nat} {e : TemplateError}
    (h : constant? spelling line = .error e) : e.KnowsKinds := by
  unfold constant? at h
  split at h
  · cases h
  · cases h
    rintro _ ⟨⟩

theorem argumentsFrom_fails {item : Parsing Element} (hi : FailsAlone item) (fuel : Nat)
    (done : List Element) : FailsAlone (argumentsFrom item fuel done) := by
  induction fuel generalizing done with
  | zero =>
    intro ts e h
    cases h
    rintro _ ⟨⟩
  | succ fuel ih =>
    intro ts e h
    rcases error_of_bind h with h | ⟨⟨a, rest⟩, -, h⟩
    · exact hi h
    · cases rest with
      | nil =>
        cases h
        rintro _ ⟨⟩
      | cons t rest =>
        dsimp only at h
        split at h
        · exact ih _ h
        · split at h
          · cases h
          · cases h
            rintro _ ⟨⟩

theorem arguments_fails {item : Parsing Element} (hi : FailsAlone item) :
    FailsAlone (arguments item) := by
  intro ts e h
  unfold arguments at h
  split at h
  · cases h
  · exact argumentsFrom_fails hi _ _ h

theorem sum_fails {depth : Nat} (ho : FailsAlone (operand depth)) :
    FailsAlone (sum (operand depth)) := by
  have hs := operand_sound depth
  exact chain_fails id (chain_sound hs) (chain_fails id hs ho)

theorem operand_fails (depth : Nat) : FailsAlone (operand depth) := by
  induction depth with
  | zero =>
    intro ts e h
    cases h
    rintro _ ⟨⟩
  | succ depth ih =>
    have hsum := sum_fails ih
    intro ts e h
    obtain _ | ⟨⟨t, line⟩, ts⟩ := ts
    · cases h
      rintro _ ⟨⟩
    cases t with
    | number n =>
      rcases error_of_bind h with h | ⟨v, -, h⟩
      · exact knowsKinds_constant? h
      · cases h
    | quoted q =>
      rcases error_of_bind h with h | ⟨v, -, h⟩
      · exact knowsKinds_constant? h
      · cases h
    | bool b => cases h
    | keyword k =>
      cases h
      rintro _ ⟨⟩
    | path p =>
      simp only [operand] at h
      split at h
      · split at h
        · rcases error_of_bind h with h | ⟨as, -, h⟩
          · exact arguments_fails hsum h
          · cases h
        · cases h
          rintro _ ⟨⟩
      · cases h
    | symbol m =>
      cases m with
      | minus =>
        simp only [operand] at h
        split at h
        · rcases error_of_bind h with h | ⟨v, -, h⟩
          · exact knowsKinds_constant? h
          · cases h
        · cases h
          rintro _ ⟨⟩
        · cases h
          rintro _ ⟨⟩
      | openParen =>
        rcases error_of_bind h with h | ⟨⟨e', rest⟩, -, h⟩
        · exact hsum h
        · dsimp only at h
          split at h
          · cases h
          · cases h
            rintro _ ⟨⟩
      | _ =>
        cases h
        rintro _ ⟨⟩

/-- An error about an element is about no kind of data. -/
theorem parse_fails : FailsAlone parse := fun _ _ h => sum_fails (operand_fails _) h

end Element

/-! ### Conditions -/

namespace Condition

open Parsing

/-- Among the tokens is an `is`, and the error is about the token after it. -/
def AfterIs (ts : List Located) (e : TemplateError) : Prop :=
  ∃ x line t y, ts = x ++ ⟨.keyword .is_, line⟩ :: t :: y ∧ ∀ r, kindName (t :: r) = .error e

/-- Where a parser of conditions says that a kind of data is unknown. -/
abbrev FailsAfterIs {α : Type} (parser : Parsing α) : Prop :=
  Fails (fun ts e => e.KnowsKinds ∨ AfterIs ts e) parser

theorem afterIs_append {ts : List Located} {e : TemplateError} (u : List Located)
    (h : e.KnowsKinds ∨ AfterIs ts e) : e.KnowsKinds ∨ AfterIs (u ++ ts) e := by
  refine h.imp_right ?_
  rintro ⟨x, line, t, y, rfl, ht⟩
  exact ⟨u ++ x, line, t, y, (List.append_assoc ..).symm, ht⟩

/-- The name of a kind is looked for in one token. -/
theorem kindName_fails {ts : List Located} {e : TemplateError} (h : kindName ts = .error e) :
    e.KnowsKinds ∨ ∃ t y, ts = t :: y ∧ ∀ r, kindName (t :: r) = .error e := by
  cases ts with
  | nil =>
    cases h
    exact .inl nofun
  | cons t y =>
    refine .inr ⟨t, y, rfl, fun r => ?_⟩
    obtain ⟨t, line⟩ := t
    cases t with
    | path p =>
      simp only [kindName] at h ⊢
      split at h
      · cases h
      · exact h
    | _ => exact h

theorem test_fails : FailsAfterIs test := by
  intro ts e h
  rcases error_of_bind h with hnow | ⟨⟨left, rest⟩, hleft, hlater⟩
  · exact .inl (Element.parse_fails hnow)
  · obtain ⟨u, rfl, -⟩ := element_sound hleft
    cases rest with
    | nil => cases hlater
    | cons s rest =>
      dsimp only at hlater
      split at hlater
      · next hs =>
        rcases error_of_bind hlater with hkind | ⟨k, -, hkind⟩
        · obtain ⟨s, line⟩ := s
          cases hs
          refine (kindName_fails hkind).imp_right ?_
          rintro ⟨t, y, rfl, ht⟩
          exact ⟨u, line, t, y, rfl, ht⟩
        · cases hkind
      · split at hlater
        · rcases error_of_bind hlater with hright | ⟨right, -, hright⟩
          · exact .inl (Element.parse_fails hright)
          · cases hright
        · cases hlater

theorem negation_fails {primary : Parsing Condition} (hp : FailsAfterIs primary) :
    FailsAfterIs (negation primary) := by
  intro ts
  induction ts with
  | nil => exact fun e h => hp h
  | cons t ts ih =>
    intro e h
    unfold negation at h
    split at h
    · rcases error_of_bind h with h | ⟨c, -, h⟩
      · exact afterIs_append [t] (ih h)
      · cases h
    · exact hp h

theorem disjunction_fails {primary : Parsing Condition} {Primary : List Located → Condition → Prop}
    (hs : Sound primary Primary) (hp : FailsAfterIs primary) :
    FailsAfterIs (disjunction primary) := by
  have hs := negation_sound hs
  have hp := negation_fails hp
  exact chain_fails (afterIs_append _) (chain_sound hs) (chain_fails (afterIs_append _) hs hp)

theorem primary_fails (depth : Nat) : FailsAfterIs (primary depth) := by
  intro ts e h
  cases depth with
  | zero =>
    cases h
    exact .inl nofun
  | succ depth =>
    cases ts with
    | nil =>
      cases h
      exact .inl nofun
    | cons t ts =>
      unfold primary at h
      split at h
      · rcases error_of_bind h with h | ⟨a, -, h⟩
        · exact .inl (Element.parse_fails h)
        · cases h
      · split at h
        · cases h
        · exact test_fails h
      · exact test_fails h

/-- Where the parser says that a kind of data is unknown, it is about the token after an `is`. -/
theorem parse_fails : FailsAfterIs parse :=
  fun _ _ h => disjunction_fails (primary_sound _) (primary_fails _) h

end Condition
end MailMerge
