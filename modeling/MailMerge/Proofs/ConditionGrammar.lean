import MailMerge.Condition.Parser
import MailMerge.Proofs.ElementGrammar

/-!
The grammar of conditions and the proof that the parser accepts exactly its phrases, with one tree
for each. A phrase that begins with a parenthesis can group a condition or an element. The parser
tries the condition first, and that is never the wrong choice: where an element phrase begins with a
group, the group also reads as the condition made of that element alone, so either something that
continues an element follows, and the parser goes back, or both readings give the same tree.
-/

namespace MailMerge.Condition

open Parsing

/-! ### The grammar -/

/-- Phrases for primary conditions after any number of negations. -/
inductive Negation (Primary : List Located → Condition → Prop) :
    List Located → Condition → Prop where
  | one {u : List Located} {c : Condition} (h : Primary u c) : Negation Primary u c
  | not {t : Located} {u : List Located} {c : Condition}
      (ht : t.token = .keyword .not_ ∨ t.token = .symbol .bang) (hu : Negation Primary u c) :
      Negation Primary (t :: u) (.negated c)

/-- Phrases for primary conditions. The phrases for elements are those that the parser of elements
reads to their end. -/
inductive Primary : List Located → Condition → Prop where
  | group {s t : Located} {u : List Located} {c : Condition} (hs : s.token = .symbol .openParen)
      (hu : Chained (Chained (Negation Primary) andJoin?) orJoin? u c)
      (ht : t.token = .symbol .closeParen) : Primary (s :: (u ++ [t])) c
  | present {t : Located} {u : List Located} {e : Element} (ht : t.token = .keyword .exists_)
      (hu : Element.parse u = .ok (e, [])) : Primary (t :: u) (.present e)
  | ofKind {s t : Located} {u : List Located} {e : Element} {name : Text} {k : Kind}
      (hu : Element.parse u = .ok (e, [])) (hs : s.token = .keyword .is_)
      (ht : t.token = .path name) (hk : Kind.ofName? name = some k) :
      Primary (u ++ [s, t]) (.ofKind e k)
  | compare {t : Located} {u v : List Located} {l r : Element} {op : Comparison}
      (hu : Element.parse u = .ok (l, [])) (ht : comparison? t.token = some op)
      (hv : Element.parse v = .ok (r, [])) : Primary (u ++ t :: v) (.compare op l r)
  | single {u : List Located} {e : Element} (hu : Element.parse u = .ok (e, [])) :
      Primary u (.single e)

/-- Phrases for conditions: disjunctions of conjunctions of negations. -/
abbrev Phrase : List Located → Condition → Prop :=
  Chained (Chained (Negation Primary) andJoin?) orJoin?

/-! ### Every phrase that is read is one of the grammar -/

theorem negation_sound {primary : Parsing Condition} {P : List Located → Condition → Prop}
    (hs : Sound primary P) : Sound (negation primary) (Negation P) := by
  intro ts
  induction ts with
  | nil =>
    intro c rest h
    obtain ⟨u, hu, hc⟩ := hs h
    exact ⟨u, hu, .one hc⟩
  | cons t ts ih =>
    intro c rest h
    unfold negation at h
    split at h
    · next ht =>
      obtain ⟨⟨d, ts'⟩, hd, hr⟩ := ok_of_bind h
      cases hr
      obtain ⟨u, rfl, hu⟩ := ih hd
      exact ⟨t :: u, rfl, .not ht hu⟩
    · obtain ⟨u, hu, hc⟩ := hs h
      exact ⟨u, hu, .one hc⟩

theorem kindName_sound {ts rest : List Located} {k : Kind} (h : kindName ts = .ok (k, rest)) :
    ∃ t name, ts = t :: rest ∧ t.token = .path name ∧ Kind.ofName? name = some k := by
  unfold kindName at h
  split at h
  · cases h
  · next p line ts =>
    split at h
    · next hk =>
      cases h
      exact ⟨_, p, rfl, rfl, hk⟩
    · cases h
  · cases h

theorem element_sound {ts rest : List Located} {e : Element}
    (h : Element.parse ts = .ok (e, rest)) :
    ∃ u, ts = u ++ rest ∧ Element.parse u = .ok (e, []) := by
  obtain ⟨u, hu, he⟩ := Element.parse_sound h
  exact ⟨u, hu, Element.parse_eq_ok_iff.mpr he⟩

theorem test_sound : Sound test Primary := by
  intro ts c rest h
  obtain ⟨⟨l, ts'⟩, hl, hr⟩ := ok_of_bind h
  obtain ⟨u, rfl, hu⟩ := element_sound hl
  cases ts' with
  | nil =>
    cases hr
    exact ⟨u, rfl, .single hu⟩
  | cons t ts' =>
    simp only [] at hr
    split at hr
    · next ht =>
      obtain ⟨⟨k, rest'⟩, hk, he⟩ := ok_of_bind hr
      cases he
      obtain ⟨s, name, rfl, hs, hn⟩ := kindName_sound hk
      exact ⟨u ++ [t, s], by simp, .ofKind hu ht hs hn⟩
    · split at hr
      · next op hop =>
        obtain ⟨⟨r, rest'⟩, hright, he⟩ := ok_of_bind hr
        cases he
        obtain ⟨v, rfl, hv⟩ := element_sound hright
        exact ⟨u ++ t :: v, by simp, .compare hu hop hv⟩
      · cases hr
        exact ⟨u, rfl, .single hu⟩

/-- A group of a condition ends with its parenthesis. -/
theorem grouped?_sound {condition : Parsing Condition} {P : List Located → Condition → Prop}
    (hs : Sound condition P) {ts rest : List Located} {c : Condition}
    (h : grouped? condition ts = some (c, rest)) :
    ∃ u t, ts = u ++ t :: rest ∧ P u c ∧ t.token = .symbol .closeParen := by
  unfold grouped? at h
  split at h
  · next c' line rest' hc =>
    obtain ⟨u, rfl, hu⟩ := hs hc
    split at h
    · split at h
      · cases h
      · cases h
        exact ⟨u, _, rfl, hu, rfl⟩
    · cases h
      exact ⟨u, _, rfl, hu, rfl⟩
  · cases h

theorem disjunction_sound {primary : Parsing Condition} {P : List Located → Condition → Prop}
    (hs : Sound primary P) :
    Sound (disjunction primary) (Chained (Chained (Negation P) andJoin?) orJoin?) :=
  chain_sound (chain_sound (negation_sound hs))

theorem primary_sound (depth : Nat) : Sound (primary depth) Primary := by
  induction depth with
  | zero => intro ts c rest h; cases h
  | succ depth ih =>
    intro ts c rest h
    cases ts with
    | nil => cases h
    | cons t ts =>
      simp only [primary] at h
      split at h
      · next ht =>
        obtain ⟨⟨e, rest'⟩, he, hr⟩ := ok_of_bind h
        cases hr
        obtain ⟨u, rfl, hu⟩ := element_sound he
        exact ⟨t :: u, rfl, .present ht hu⟩
      · next ht =>
        split at h
        · next hg =>
          cases h
          obtain ⟨u, s, rfl, hu, hs⟩ := grouped?_sound (disjunction_sound ih) hg
          exact ⟨t :: (u ++ [s]), by simp, .group ht hu hs⟩
        · exact test_sound h
      · exact test_sound h

theorem parse_sound : Sound parse Phrase := fun ts _ _ h =>
  disjunction_sound (primary_sound ts.length) h

/-! ### Every phrase of the grammar is read -/

/-- What may follow a primary condition: nothing that continues an element. -/
abbrev Ends (t : Token) : Prop := t ≠ .symbol .openParen ∧ continuesElement t = false

theorem Ends.element {t : Token} (h : Ends t) : Element.Ends t := by
  obtain ⟨hp, hc⟩ := h
  simp only [continuesElement, Bool.or_eq_false_iff, Option.isSome_eq_false_iff,
    Option.isNone_iff_eq_none] at hc
  exact ⟨⟨hp, hc.1.2⟩, hc.1.1.2⟩

/-- What may follow a condition. -/
abbrev EndsPhrase (t : Token) : Prop := (Ends t ∧ andJoin? t = none) ∧ orJoin? t = none

theorem endsPhrase_closeParen : EndsPhrase (.symbol .closeParen) := ⟨⟨⟨by decide, rfl⟩, rfl⟩, rfl⟩

theorem ends_of_andJoin? {t : Token} (h : (andJoin? t).isSome) : Ends t := by
  cases t with
  | keyword k => cases k <;> first | exact ⟨by decide, rfl⟩ | cases h
  | _ => cases h

theorem ends_of_orJoin? {t : Token} (h : (orJoin? t).isSome) : Ends t ∧ andJoin? t = none := by
  cases t with
  | keyword k => cases k <;> first | exact ⟨⟨by decide, rfl⟩, rfl⟩ | cases h
  | _ => cases h

theorem element_ends_of_comparison? {t : Token} (h : (comparison? t).isSome) : Element.Ends t := by
  cases t with
  | symbol m => cases m <;> first | exact ⟨⟨by decide, rfl⟩, rfl⟩ | cases h
  | _ => cases h

theorem element_complete {u : List Located} {e : Element} (hu : Element.parse u = .ok (e, []))
    {rest : List Located} (hr : Before Element.Ends rest) :
    Element.parse (u ++ rest) = .ok (e, rest) :=
  Element.parse_complete (Element.parse_eq_ok_iff.mp hu) hr

/-! #### Conditions that begin with an element -/

theorem test_single {u : List Located} {e : Element} (hu : Element.parse u = .ok (e, []))
    {rest : List Located} (hr : Before Ends rest) : test (u ++ rest) = .ok (.single e, rest) := by
  unfold test
  rw [element_complete hu (hr.mono fun _ => Ends.element)]
  cases rest with
  | nil => rfl
  | cons t rest =>
    obtain ⟨-, hc⟩ := hr t rfl
    simp only [continuesElement, Bool.or_eq_false_iff, Option.isSome_eq_false_iff,
      Option.isNone_iff_eq_none, beq_eq_false_iff_ne] at hc
    simp [bind, Except.bind, hc.1.1.1, hc.2]

theorem test_ofKind {u : List Located} {e : Element} (hu : Element.parse u = .ok (e, []))
    {s t : Located} (hs : s.token = .keyword .is_) {name : Text} (ht : t.token = .path name)
    {k : Kind} (hk : Kind.ofName? name = some k) (rest : List Located) :
    test (u ++ s :: t :: rest) = .ok (.ofKind e k, rest) := by
  obtain ⟨t, line⟩ := t
  cases ht
  unfold test
  rw [element_complete hu (.cons (hs ▸ ⟨⟨by decide, rfl⟩, rfl⟩) _)]
  simp [bind, Except.bind, hs, kindName, hk]

theorem test_compare {u v : List Located} {l r : Element} (hu : Element.parse u = .ok (l, []))
    {t : Located} {op : Comparison} (ht : comparison? t.token = some op)
    (hv : Element.parse v = .ok (r, [])) {rest : List Located} (hr : Before Ends rest) :
    test (u ++ t :: (v ++ rest)) = .ok (.compare op l r, rest) := by
  have hs : t.token ≠ .keyword .is_ := by
    intro h
    rw [h] at ht
    cases ht
  unfold test
  rw [element_complete hu (.cons (element_ends_of_comparison? (by rw [ht]; rfl)) _)]
  simp only [bind, Except.bind, hs, if_false, ht]
  rw [element_complete hv (hr.mono fun _ => Ends.element)]

/-! #### Groups -/

theorem grouped?_of_ok {condition : Parsing Condition} {ts rest : List Located} {c : Condition}
    {t : Located} (ht : t.token = .symbol .closeParen)
    (h : condition ts = .ok (c, t :: rest))
    (hr : Before (fun t => continuesElement t = false) rest) :
    grouped? condition ts = some (c, rest) := by
  obtain ⟨t, line⟩ := t
  cases ht
  unfold grouped?
  rw [h]
  cases rest with
  | nil => rfl
  | cons s rest => simp [hr s rfl]

/-- A group is one of elements if something that continues an element follows. -/
theorem grouped?_continues {condition : Parsing Condition} {ts rest : List Located} {c : Condition}
    {s t : Located} (ht : t.token = .symbol .closeParen)
    (h : condition ts = .ok (c, t :: s :: rest)) (hs : continuesElement s.token = true) :
    grouped? condition ts = none := by
  obtain ⟨t, line⟩ := t
  cases ht
  unfold grouped?
  rw [h]
  simp [hs]

/-- Whether a token may begin a primary condition. -/
def begins (t : Token) : Bool := Element.begins t || t == .keyword .exists_

theorem begins_of_element {u : List Located} {e : Element} (hu : Element.parse u = .ok (e, []))
    (r : List Located) : ∃ t v, u ++ r = t :: v ∧ begins t.token = true := by
  obtain ⟨t, v, rfl, ht⟩ := (Element.parse_eq_ok_iff.mp hu).head
  exact ⟨t, v ++ r, rfl, by rw [begins, ht]; rfl⟩

theorem Primary.head {u : List Located} {c : Condition} (h : Primary u c) :
    ∃ t r, u = t :: r ∧ begins t.token = true := by
  cases h with
  | group hs _ _ => exact ⟨_, _, rfl, by rw [hs]; rfl⟩
  | present ht _ => exact ⟨_, _, rfl, by rw [ht]; rfl⟩
  | ofKind hu _ _ _ => exact begins_of_element hu _
  | compare hu _ _ => exact begins_of_element hu _
  | single hu => simpa using begins_of_element hu []

theorem negation_complete {primary : Parsing Condition} {follow : Token → Prop} {n : Nat}
    (hc : Complete primary Primary follow n) :
    Complete (negation primary) (Negation Primary) follow n := by
  intro u c rest hu hn hr
  induction hu with
  | one hu =>
    obtain ⟨t, r, rfl, ht⟩ := hu.head
    rw [List.cons_append, negation, if_neg]
    · exact hc hu hn hr
    · rintro (h | h) <;> · rw [h] at ht; cases ht
  | not ht _ ih =>
    simp only [List.length_cons] at hn
    rw [List.cons_append, negation, if_pos ht, ih (by omega)]
    rfl

theorem disjunction_complete {primary : Parsing Condition} {n : Nat}
    (hc : Complete primary Primary Ends n) : Complete (disjunction primary) Phrase EndsPhrase n :=
  chain_complete (chain_complete (negation_complete hc) fun _ => ends_of_andJoin?)
    fun _ => ends_of_orJoin?

/-- At a phrase for an element, the parser of primary conditions reads a test, unless the phrase is
a group and nothing that continues an element follows; then the group makes up the condition. -/
theorem primary_element {depth : Nat} (hd : Complete (primary depth) Primary Ends depth)
    {u : List Located} {e : Element} (hu : Element.Phrase u e) (hn : u.length ≤ depth + 1)
    (rest : List Located) :
    primary (depth + 1) (u ++ rest) = test (u ++ rest) ∨
      primary (depth + 1) (u ++ rest) = .ok (.single e, rest) ∧
        Before (fun t => continuesElement t = false) rest := by
  obtain ⟨s, r, rfl, hs⟩ := hu.head
  by_cases hp : s.token = .symbol .openParen
  · obtain ⟨v, t, tail, e', rfl, hv, ht, htail⟩ := hu.of_openParen hp
    simp only [List.length_cons, List.length_append] at hn
    -- the group reads as a condition, too
    have hgroup : disjunction (primary depth) (v ++ t :: (tail ++ rest)) =
        .ok (.single e', t :: (tail ++ rest)) :=
      disjunction_complete hd (.one (.one (.one (.single (Element.parse_eq_ok_iff.mpr hv)))))
        (by omega) (.cons (ht ▸ endsPhrase_closeParen) _)
    simp only [List.cons_append, List.append_assoc, primary, hp]
    rcases htail with ⟨rfl, rfl⟩ | ⟨j, q, rfl, hj⟩
    · rw [List.nil_append] at hgroup ⊢
      cases rest with
      | nil =>
        rw [grouped?_of_ok ht hgroup .nil]
        exact .inr ⟨rfl, .nil⟩
      | cons j rest =>
        cases hc : continuesElement j.token with
        | true =>
          rw [grouped?_continues ht hgroup hc]
          exact .inl rfl
        | false =>
          rw [grouped?_of_ok ht hgroup (.cons hc _)]
          exact .inr ⟨rfl, .cons hc _⟩
    · have hc : continuesElement j.token = true := by
        rcases hj with hj | hj <;> simp [continuesElement, hj]
      rw [List.cons_append] at hgroup ⊢
      rw [grouped?_continues ht hgroup hc]
      exact .inl rfl
  · refine .inl ?_
    rw [List.cons_append, primary]
    split
    · next h => rw [h] at hs; cases hs
    · next h => exact absurd h hp
    · rfl

theorem primary_complete (depth : Nat) : Complete (primary depth) Primary Ends depth := by
  induction depth with
  | zero =>
    intro u c rest hu hn hr
    obtain ⟨t, r, rfl, -⟩ := hu.head
    simp at hn
  | succ depth ih =>
    intro u c rest hu hn hr
    cases hu with
    | @group s t u c hs hu ht =>
      simp only [List.length_cons, List.length_append, List.length_nil] at hn
      have hgroup := disjunction_complete ih hu (by omega)
        (Before.cons (ht ▸ endsPhrase_closeParen) rest)
      simp only [List.cons_append, List.append_assoc, List.nil_append, primary, hs]
      rw [grouped?_of_ok ht hgroup (hr.mono fun _ => And.right)]
    | present ht hu =>
      simp only [List.cons_append, primary, ht]
      rw [element_complete hu (hr.mono fun _ => Ends.element)]
      rfl
    | @ofKind s t u e name k hu hs ht hk =>
      simp only [List.length_append, List.length_cons, List.length_nil] at hn
      rw [List.append_assoc]
      rcases primary_element ih (Element.parse_eq_ok_iff.mp hu) (by omega) (s :: t :: rest)
        with h | ⟨-, h⟩
      · rw [show [s, t] ++ rest = s :: t :: rest from rfl, h, test_ofKind hu hs ht hk]
      · have := h s rfl
        rw [hs] at this
        cases this
    | @compare t u v l r op hu ht hv =>
      simp only [List.length_append, List.length_cons] at hn
      rw [List.append_assoc, List.cons_append]
      rcases primary_element ih (Element.parse_eq_ok_iff.mp hu) (by omega) (t :: (v ++ rest))
        with h | ⟨-, h⟩
      · rw [h, test_compare hu ht hv hr]
      · have := h t rfl
        simp [continuesElement, ht] at this
    | single hu =>
      rcases primary_element ih (Element.parse_eq_ok_iff.mp hu) hn rest with h | ⟨h, -⟩
      · rw [h, test_single hu hr]
      · exact h

theorem parse_complete {u : List Located} {c : Condition} (h : Phrase u c) {rest : List Located}
    (hr : Before EndsPhrase rest) : parse (u ++ rest) = .ok (c, rest) :=
  disjunction_complete (primary_complete _) h (by simp) hr

/-! ### The parser and the grammar -/

/-- The parser reads a list of tokens to its end as the condition that it is a phrase for, and no
list is a phrase for two conditions. Whatever the parser leaves, what it took is a phrase. -/
theorem parse_iff_phrase (ts : List Located) (c : Condition) :
    (parse ts = .ok (c, []) ↔ Phrase ts c) ∧ (∀ d, Phrase ts c → Phrase ts d → c = d) ∧
      ∀ rest, parse ts = .ok (c, rest) → ∃ u, ts = u ++ rest ∧ Phrase u c := by
  have hread : ∀ d, Phrase ts d → parse ts = .ok (d, []) := by
    intro d hd
    have := parse_complete hd .nil
    rwa [List.append_nil] at this
  refine ⟨⟨fun h => ?_, hread c⟩, fun d hc hd => ?_, fun rest h => parse_sound h⟩
  · obtain ⟨u, rfl, hu⟩ := parse_sound h
    rwa [List.append_nil]
  · have := (hread c hc).symm.trans (hread d hd)
    cases this
    rfl

end MailMerge.Condition
