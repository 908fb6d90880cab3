import MailMerge.Proofs.ConditionGrammar

/-!
# Tokens before an unknown kind of data

No parser of elements gets past an `is`, and no parser of conditions gets past one that no kind of
data follows. So what they do with the tokens before it depends neither on what comes later, nor on
how deep groups may stand inside each other, as long as that is enough for these tokens.
-/

namespace MailMerge

namespace Parsing

variable {α β : Type}

/-- Two parsers fail alike, or give the same and leave the same at most `n` tokens, the one before
`z` and the other one before `z'`. -/
inductive Alike (z z' : List Located) (n : Nat) : Except TemplateError (α × List Located) →
    Except TemplateError (α × List Located) → Prop where
  | ok (a : α) {x : List Located} (hx : x.length ≤ n) :
      Alike z z' n (.ok (a, x ++ z)) (.ok (a, x ++ z'))
  | error (e : TemplateError) : Alike z z' n (.error e) (.error e)

namespace Alike

variable {z z' : List Located} {n m : Nat} {r r' : Except TemplateError (α × List Located)}

theorem mono (h : Alike z z' n r r') (hn : n ≤ m) : Alike z z' m r r' := by
  cases h with
  | ok a hx => exact .ok a (Nat.le_trans hx hn)
  | error e => exact .error e

theorem bind {f f' : α × List Located → Except TemplateError (β × List Located)}
    (h : Alike z z' n r r')
    (hf : ∀ a x, x.length ≤ n → Alike z z' m (f (a, x ++ z)) (f' (a, x ++ z'))) :
    Alike z z' m (r >>= f) (r' >>= f') := by
  cases h with
  | ok a hx => exact hf a _ hx
  | error e => exact .error e

end Alike

/-- With fewer than `n` tokens before `z` and `z'` two parsers do the same. -/
def AlikeBefore (z z' : List Located) (n : Nat) (p p' : Parsing α) : Prop :=
  ∀ ⦃x⦄, x.length < n → Alike z z' x.length (p (x ++ z)) (p' (x ++ z'))

section Chains

variable {b : Located} {w w' : List Located} {n : Nat} {operand operand' : Parsing α}
  {join? : Token → Option (α → α → α)} (ho : AlikeBefore (b :: w) (b :: w') n operand operand')
  (hb : join? b.token = none)
include ho hb

/-- A chain ends before a token that joins nothing, by induction on the tokens before it. -/
theorem chainFrom_alike {fuel fuel' : Nat} (a : α) {x : List Located} (hn : x.length < n)
    (hf : x.length ≤ fuel) (hf' : x.length ≤ fuel') :
    Alike (b :: w) (b :: w') x.length (chainFrom operand join? fuel a (x ++ b :: w))
      (chainFrom operand' join? fuel' a (x ++ b :: w')) := by
  induction fuel generalizing fuel' a x with
  | zero =>
    rw [List.length_eq_zero_iff.mp (Nat.le_zero.mp hf), List.nil_append, List.nil_append,
      chainFrom_stop _ a (.cons hb w), chainFrom_stop _ a (.cons hb w')]
    exact .ok a (x := []) (Nat.le_refl 0)
  | succ fuel ih =>
    cases x with
    | nil =>
      rw [List.nil_append, List.nil_append, chainFrom_stop _ a (.cons hb w),
        chainFrom_stop _ a (.cons hb w')]
      exact .ok a (x := []) (Nat.le_refl 0)
    | cons t x =>
      rw [List.length_cons] at hn hf hf'
      obtain ⟨fuel', rfl⟩ : ∃ m, fuel' = m + 1 := ⟨fuel' - 1, by omega⟩
      rw [List.cons_append, List.cons_append, chainFrom, chainFrom]
      cases join? t.token with
      | none => exact .ok a (x := t :: x) (Nat.le_refl _)
      | some f =>
        refine (ho (by omega : x.length < n)).bind fun c y hy => ?_
        refine (ih (f a c) (by omega) (by omega) (by omega)).mono ?_
        rw [List.length_cons]
        omega

theorem chain_alike :
    AlikeBefore (b :: w) (b :: w') n (chain operand join?) (chain operand' join?) := by
  intro x hn
  refine (ho hn).bind fun a y hy => (chainFrom_alike ho hb a (by omega) ?_ ?_).mono hy
  · rw [List.length_append]
    exact Nat.le_add_right _ _
  · rw [List.length_append]
    exact Nat.le_add_right _ _

end Chains
end Parsing

/-! ### Elements before an `is` -/

namespace Element

open Parsing

section Before

variable {line : Nat} {w w' : List Located}

/-- A constant is read, or not, whatever follows. -/
theorem constant_alike {α : Type} {spelling : Text} {l n : Nat} {z z' : List Located}
    {f f' : Value → Except TemplateError (α × List Located)}
    (hf : ∀ v, Alike z z' n (f v) (f' v)) :
    Alike z z' n (constant? spelling l >>= f) (constant? spelling l >>= f') := by
  cases constant? spelling l with
  | error e => exact .error e
  | ok v => exact hf v

section Items

variable {n : Nat} {item item' : Parsing Element}
  (hi : AlikeBefore (⟨.keyword .is_, line⟩ :: w) (⟨.keyword .is_, line⟩ :: w') n item item')
include hi

theorem argumentsFrom_alike {fuel fuel' : Nat} (done : List Element) {x : List Located}
    (hn : x.length < n) (hf : x.length < fuel) (hf' : x.length < fuel') :
    Alike (⟨.keyword .is_, line⟩ :: w) (⟨.keyword .is_, line⟩ :: w') x.length
      (argumentsFrom item fuel done (x ++ ⟨.keyword .is_, line⟩ :: w))
      (argumentsFrom item' fuel' done (x ++ ⟨.keyword .is_, line⟩ :: w')) := by
  induction fuel generalizing fuel' done x with
  | zero => exact absurd hf (Nat.not_lt_zero _)
  | succ fuel ih =>
    obtain ⟨fuel', rfl⟩ : ∃ m, fuel' = m + 1 := ⟨fuel' - 1, by omega⟩
    refine (hi hn).bind fun e y hy => ?_
    cases y with
    | nil => exact .error _
    | cons t y =>
      rw [List.length_cons] at hy
      simp only [List.cons_append]
      by_cases hcomma : t.token = .symbol .comma
      · rw [if_pos hcomma, if_pos hcomma]
        exact (ih (e :: done) (by omega) (by omega) (by omega)).mono (by omega)
      · rw [if_neg hcomma, if_neg hcomma]
        by_cases hclose : t.token = .symbol .closeParen
        · rw [if_pos hclose, if_pos hclose]
          exact .ok _ (by omega)
        · rw [if_neg hclose, if_neg hclose]
          exact .error _

theorem arguments_alike : AlikeBefore (⟨.keyword .is_, line⟩ :: w) (⟨.keyword .is_, line⟩ :: w') n
    (arguments item) (arguments item') := by
  intro x hn
  cases x with
  | nil => exact argumentsFrom_alike hi [] hn (Nat.succ_pos _) (Nat.succ_pos _)
  | cons t x =>
    obtain ⟨t, l⟩ := t
    by_cases hclose : t = .symbol .closeParen
    · subst hclose
      exact .ok [] (Nat.le_succ _)
    · have hmore : ∀ (p : Parsing Element) (r : List Located),
          arguments p (⟨t, l⟩ :: r) = argumentsFrom p (r.length + 2) [] (⟨t, l⟩ :: r) := by
        intro p r
        unfold arguments
        split
        · next he =>
          cases he
          exact absurd rfl hclose
        · rfl
      rw [List.cons_append, List.cons_append, hmore, hmore]
      refine argumentsFrom_alike (x := ⟨t, l⟩ :: x) hi [] hn ?_ ?_
      · simp only [List.length_cons, List.length_append]
        omega
      · simp only [List.length_cons, List.length_append]
        omega

theorem sum_alike : AlikeBefore (⟨.keyword .is_, line⟩ :: w) (⟨.keyword .is_, line⟩ :: w') n
    (sum item) (sum item') :=
  chain_alike (chain_alike hi rfl) rfl

end Items

/-- Whatever begins an operand: by induction on how many tokens stand before the `is`. -/
theorem operand_alike (n : Nat) : ∀ {depth depth' : Nat}, n ≤ depth → n ≤ depth' →
    AlikeBefore (⟨.keyword .is_, line⟩ :: w) (⟨.keyword .is_, line⟩ :: w') n
      (operand depth) (operand depth') := by
  induction n with
  | zero => exact fun _ _ x hn => absurd hn (Nat.not_lt_zero _)
  | succ n ih =>
    intro depth depth' hd hd' x hn
    obtain ⟨depth, rfl⟩ : ∃ m, depth = m + 1 := ⟨depth - 1, by omega⟩
    obtain ⟨depth', rfl⟩ : ∃ m, depth' = m + 1 := ⟨depth' - 1, by omega⟩
    have hsum := sum_alike (ih (by omega : n ≤ depth) (by omega : n ≤ depth'))
    obtain _ | ⟨⟨t, l⟩, x⟩ := x
    · exact .error _
    rw [List.length_cons] at hn
    cases t with
    | number v => exact constant_alike fun c => .ok _ (Nat.le_succ _)
    | quoted q => exact constant_alike fun c => .ok _ (Nat.le_succ _)
    | bool v => exact .ok _ (Nat.le_succ _)
    | keyword k => exact .error _
    | path p =>
      obtain _ | ⟨⟨t, l'⟩, x⟩ := x
      · exact .ok _ (x := []) (Nat.zero_le _)
      rw [List.length_cons] at hn
      by_cases hopen : t = .symbol .openParen
      · subst hopen
        simp only [List.cons_append, operand]
        by_cases hp : Token.isPlainName p = true
        · rw [if_pos hp, if_pos hp]
          refine (arguments_alike hsum (by omega : x.length < n)).bind fun as y hy => .ok _ ?_
          exact Nat.le_succ_of_le (Nat.le_succ_of_le hy)
        · rw [if_neg hp, if_neg hp]
          exact .error _
      · have haccess : ∀ (d : Nat) (r : List Located), operand (d + 1)
            (⟨.path p, l⟩ :: ⟨t, l'⟩ :: r) = .ok (.access p, ⟨t, l'⟩ :: r) := by
          intro d r
          simp only [operand]
          split
          · next he =>
            cases he
            exact absurd rfl hopen
          · rfl
        simp only [List.cons_append, haccess]
        exact .ok _ (x := ⟨t, l'⟩ :: x) (Nat.le_succ _)
    | symbol m =>
      cases m with
      | minus =>
        obtain _ | ⟨⟨t, l'⟩, x⟩ := x
        · exact .error _
        cases t with
        | number v =>
          exact constant_alike fun c => .ok _ (Nat.le_succ_of_le (Nat.le_succ _))
        | _ => exact .error _
      | openParen =>
        refine (hsum (by omega : x.length < n)).bind fun e y hy => ?_
        obtain _ | ⟨⟨t, l'⟩, y⟩ := y
        · exact .error _
        cases t with
        | symbol m =>
          cases m with
          | closeParen => exact .ok e (Nat.le_succ_of_le (Nat.le_of_succ_le hy))
          | _ => exact .error _
        | _ => exact .error _
      | _ => exact .error _

theorem parse_alike (n : Nat) :
    AlikeBefore (⟨.keyword .is_, line⟩ :: w) (⟨.keyword .is_, line⟩ :: w') n parse parse := by
  intro x _
  refine sum_alike (operand_alike (x.length + 1) ?_ ?_) (Nat.lt_succ_self _)
  · simp only [List.length_append, List.length_cons]
    omega
  · simp only [List.length_append, List.length_cons]
    omega

end Before
end Element

/-! ### Conditions before an unknown kind -/

namespace Condition

open Parsing

theorem kindName_alike {line : Nat} {w w' : List Located} (x : List Located) :
    Alike (⟨.keyword .is_, line⟩ :: w) (⟨.keyword .is_, line⟩ :: w') x.length
      (kindName (x ++ ⟨.keyword .is_, line⟩ :: w))
      (kindName (x ++ ⟨.keyword .is_, line⟩ :: w')) := by
  obtain _ | ⟨⟨t, l⟩, x⟩ := x
  · exact .error _
  cases t with
  | path p =>
    simp only [List.cons_append, kindName]
    cases Kind.ofName? p with
    | none => exact .error _
    | some k => exact .ok k (Nat.le_succ _)
  | _ => exact .error _

section Before

variable {line : Nat} {bad : Located} {e : TemplateError}
  (hbad : ∀ r, kindName (bad :: r) = .error e) {v v' : List Located} {n : Nat}

include hbad in
theorem test_alike (n : Nat) :
    AlikeBefore (⟨.keyword .is_, line⟩ :: bad :: v) (⟨.keyword .is_, line⟩ :: bad :: v') n
      test test := by
  intro x hn
  refine (Element.parse_alike n hn).bind fun left y hy => ?_
  cases y with
  | nil =>
    simp only [List.nil_append, if_true, hbad]
    exact .error e
  | cons t y =>
    rw [List.length_cons] at hy
    simp only [List.cons_append]
    by_cases ht : t.token = .keyword .is_
    · rw [if_pos ht, if_pos ht]
      exact (kindName_alike y).bind fun k r hr => .ok _ (by omega)
    · rw [if_neg ht, if_neg ht]
      cases comparison? t.token with
      | none => exact .ok _ (x := t :: y) hy
      | some op =>
        refine (Element.parse_alike n (by omega : y.length < n)).bind fun right r hr => ?_
        exact .ok _ (by omega)

theorem negation_alike {primary primary' : Parsing Condition}
    (hp : AlikeBefore (⟨.keyword .is_, line⟩ :: bad :: v) (⟨.keyword .is_, line⟩ :: bad :: v') n
      primary primary') :
    AlikeBefore (⟨.keyword .is_, line⟩ :: bad :: v) (⟨.keyword .is_, line⟩ :: bad :: v') n
      (negation primary) (negation primary') := by
  intro x
  induction x with
  | nil => exact fun hn => hp (x := []) hn
  | cons t x ih =>
    intro hn
    rw [List.cons_append, List.cons_append, negation, negation]
    by_cases ht : t.token = .keyword .not_ ∨ t.token = .symbol .bang
    · rw [if_pos ht, if_pos ht]
      exact (ih (Nat.lt_of_succ_lt hn)).bind fun c y hy => .ok _ (Nat.le_succ_of_le hy)
    · rw [if_neg ht, if_neg ht]
      exact hp (x := t :: x) hn

theorem disjunction_alike {primary primary' : Parsing Condition}
    (hp : AlikeBefore (⟨.keyword .is_, line⟩ :: bad :: v) (⟨.keyword .is_, line⟩ :: bad :: v') n
      primary primary') :
    AlikeBefore (⟨.keyword .is_, line⟩ :: bad :: v) (⟨.keyword .is_, line⟩ :: bad :: v') n
      (disjunction primary) (disjunction primary') :=
  chain_alike (chain_alike (negation_alike hp) rfl) rfl

/-- A group is one of conditions in both cases or in none: the `is` ends no group. -/
theorem grouped?_alike {condition condition' : Parsing Condition}
    (hc : AlikeBefore (⟨.keyword .is_, line⟩ :: bad :: v) (⟨.keyword .is_, line⟩ :: bad :: v') n
      condition condition') {x : List Located} (hn : x.length < n) :
    (grouped? condition (x ++ ⟨.keyword .is_, line⟩ :: bad :: v) = none ∧
      grouped? condition' (x ++ ⟨.keyword .is_, line⟩ :: bad :: v') = none) ∨
    ∃ c y, y.length ≤ x.length ∧
      grouped? condition (x ++ ⟨.keyword .is_, line⟩ :: bad :: v) =
        some (c, y ++ ⟨.keyword .is_, line⟩ :: bad :: v) ∧
      grouped? condition' (x ++ ⟨.keyword .is_, line⟩ :: bad :: v') =
        some (c, y ++ ⟨.keyword .is_, line⟩ :: bad :: v') := by
  have hx := hc hn
  unfold grouped?
  generalize condition (x ++ ⟨.keyword .is_, line⟩ :: bad :: v) = r at hx ⊢
  generalize condition' (x ++ ⟨.keyword .is_, line⟩ :: bad :: v') = r' at hx ⊢
  cases hx with
  | error e => exact .inl ⟨rfl, rfl⟩
  | @ok c y hy =>
    obtain _ | ⟨⟨t, l⟩, y⟩ := y
    · exact .inl ⟨rfl, rfl⟩
    cases t with
    | symbol m =>
      cases m with
      | closeParen =>
        cases y with
        | nil => exact .inl ⟨rfl, rfl⟩
        | cons t y =>
          simp only [List.cons_append]
          cases continuesElement t.token with
          | true => exact .inl ⟨rfl, rfl⟩
          | false => exact .inr ⟨c, t :: y, Nat.le_of_succ_le hy, rfl, rfl⟩
      | _ => exact .inl ⟨rfl, rfl⟩
    | _ => exact .inl ⟨rfl, rfl⟩

include hbad in
/-- Whatever begins a primary condition: by induction on how many tokens stand before the `is`. -/
theorem primary_alike (n : Nat) : ∀ {depth depth' : Nat}, n ≤ depth → n ≤ depth' →
    AlikeBefore (⟨.keyword .is_, line⟩ :: bad :: v) (⟨.keyword .is_, line⟩ :: bad :: v') n
      (primary depth) (primary depth') := by
  induction n with
  | zero => exact fun _ _ x hn => absurd hn (Nat.not_lt_zero _)
  | succ n ih =>
    intro depth depth' hd hd' x hn
    obtain ⟨depth, rfl⟩ : ∃ m, depth = m + 1 := ⟨depth - 1, by omega⟩
    obtain ⟨depth', rfl⟩ : ∃ m, depth' = m + 1 := ⟨depth' - 1, by omega⟩
    have htest : Alike (⟨.keyword .is_, line⟩ :: bad :: v) (⟨.keyword .is_, line⟩ :: bad :: v')
        x.length (test _) (test _) := test_alike hbad (n + 1) hn
    cases x with
    | nil => exact htest
    | cons t x =>
      have hn' : x.length < n := Nat.lt_of_succ_lt_succ hn
      rw [List.cons_append, List.cons_append] at htest ⊢
      rw [primary, primary]
      split
      · refine (Element.parse_alike n hn').bind fun e y hy => .ok _ ?_
        exact Nat.le_succ_of_le hy
      · have hinner := disjunction_alike (ih (by omega : n ≤ depth) (by omega : n ≤ depth'))
        rcases grouped?_alike hinner hn' with ⟨h, h'⟩ | ⟨c, y, hy, h, h'⟩
        · rw [h, h']
          exact htest
        · rw [h, h']
          exact .ok c (Nat.le_succ_of_le hy)
      · exact htest

end Before
end Condition
end MailMerge
