import MailMerge.Proofs.Substitution
import MailMerge.Proofs.TokenSpacing

/-!
# Expressions with other patterns in them

Where other paths stand for the patterns of an expression, and the names of functions and of kinds
and the names that a loop binds stay, the expression says what it said with its patterns replaced.
Only tokens matter for that, so that the new text may have other blanks.
-/

namespace MailMerge

open Parsing

/-! ### Tokens -/

namespace Located

/-- Whether a list of tokens begins with an opening parenthesis. -/
def isOpening (ts : List Located) : Bool := ts.head?.any fun t => t.token = .symbol .openParen

/-- The tokens of an element or a condition with its patterns replaced. Paths stay that name a kind
or, before a parenthesis, a function; `kind` tells whether the first token stands behind `is`. -/
def replaceFrom (f : Text → Text) (kind : Bool) : List Located → List Located
  | [] => []
  | ⟨.path p, line⟩ :: ts =>
    ⟨.path (if kind || isOpening ts then p else f p), line⟩ :: replaceFrom f false ts
  | t :: ts => t :: replaceFrom f (t.token = .keyword .is_) ts

/-- The tokens with the path at their end replaced. -/
def replaceLast (f : Text → Text) : List Located → List Located
  | [] => []
  | [⟨.path p, line⟩] => [⟨.path (f p), line⟩]
  | t :: ts => t :: replaceLast f ts

/-- The tokens of a statement with its patterns replaced: in the header of a loop this is the path
at its end, and the names before it stay. -/
def replacePatterns (f : Text → Text) : List Located → List Located
  | ⟨.keyword .for_, line⟩ :: ts => ⟨.keyword .for_, line⟩ :: replaceLast f ts
  | ts => replaceFrom f false ts

end Located

/-- Whether a token can stand between elements and conditions, or behind them. -/
def Token.divides : Token → Bool
  | .path _ | .symbol .openParen | .keyword .is_ => false
  | _ => true

theorem Token.ne_of_divides {s t : Token} (ht : t.divides = true) (hs : s.divides = false) :
    t ≠ s := by
  rintro rfl
  rw [ht] at hs
  cases hs

namespace Located

variable {f : Text → Text}

theorem replaceFrom_cons {t : Located} (ht : ∀ p, t.token ≠ .path p) (kind : Bool)
    (ts : List Located) :
    replaceFrom f kind (t :: ts) = t :: replaceFrom f (t.token = .keyword .is_) ts := by
  obtain ⟨t, line⟩ := t
  cases t with
  | path p => exact absurd rfl (ht p)
  | _ => rfl

/-- What stands before a token that is no path and no opening parenthesis is replaced by itself. -/
theorem replaceFrom_append {t : Located} (ht : ∀ p, t.token ≠ .path p)
    (ho : t.token ≠ .symbol .openParen) (kind : Bool) (u v : List Located) :
    replaceFrom f kind (u ++ t :: v) =
      replaceFrom f kind u ++ t :: replaceFrom f (t.token = .keyword .is_) v := by
  induction u generalizing kind with
  | nil => exact replaceFrom_cons ht kind v
  | cons s u ih =>
    obtain ⟨s, line⟩ := s
    cases s with
    | path p =>
      have hopen : isOpening (u ++ t :: v) = isOpening u := by
        cases u with
        | nil => exact decide_eq_false ho
        | cons s u => rfl
      rw [List.cons_append, replaceFrom, replaceFrom, ih, hopen]
      rfl
    | _ => exact congrArg (_ :: ·) (ih _)

theorem replaceFrom_divided {t : Located} (ht : t.token.divides = true) (kind : Bool)
    (u v : List Located) :
    replaceFrom f kind (u ++ t :: v) = replaceFrom f kind u ++ t :: replaceFrom f false v := by
  have hpath : ∀ p, t.token ≠ .path p := fun p => Token.ne_of_divides ht rfl
  have his : t.token ≠ .keyword .is_ := Token.ne_of_divides ht rfl
  rw [replaceFrom_append hpath (Token.ne_of_divides ht rfl), decide_eq_false his]

end Located

/-! ### Phrases -/

open Located (replaceFrom replaceFrom_cons replaceFrom_append replaceFrom_divided replacePatterns)

variable {f : Text → Text}

/-- Phrases of at most `n` tokens are phrases for what `g` makes of their meaning once their
patterns are replaced. -/
def Replaces {α : Type} (f : Text → Text) (g : α → α) (n : Nat)
    (Phrase : List Located → α → Prop) : Prop :=
  ∀ ⦃u a⦄, u.length ≤ n → Phrase u a → Phrase (replaceFrom f false u) (g a)

/-- The patterns of a chain are those of its operands. -/
theorem Replaces.chained {α : Type} {g : α → α} {n : Nat} {Operand : List Located → α → Prop}
    {join? : Token → Option (α → α → α)} (ho : Replaces f g n Operand)
    (hj : ∀ {t k}, join? t = some k → t.divides = true ∧ ∀ a b, g (k a b) = k (g a) (g b)) :
    Replaces f g n (Chained Operand join?) := by
  intro u a hn h
  induction h with
  | one hu => exact .one (ho hn hu)
  | more _ ht hv ih =>
    rw [List.length_append, List.length_cons] at hn
    rw [replaceFrom_divided (hj ht).1, (hj ht).2]
    exact .more (ih (by omega)) ht (ho (by omega) hv)

namespace Element

theorem productJoin?_replaces {t : Token} {k : Element → Element → Element}
    (h : productJoin? t = some k) :
    t.divides = true ∧ ∀ a b, (k a b).mapPatterns f = k (a.mapPatterns f) (b.mapPatterns f) := by
  unfold productJoin? at h
  split at h <;> cases h <;> exact ⟨rfl, fun _ _ => by rw [mapPatterns]⟩

theorem sumJoin?_replaces {t : Token} {k : Element → Element → Element}
    (h : sumJoin? t = some k) :
    t.divides = true ∧ ∀ a b, (k a b).mapPatterns f = k (a.mapPatterns f) (b.mapPatterns f) := by
  unfold sumJoin? at h
  split at h <;> cases h <;> exact ⟨rfl, fun _ _ => by rw [mapPatterns]⟩

theorem replaces_phrase {n : Nat} (ho : Replaces f (mapPatterns f) n Operand) :
    Replaces f (mapPatterns f) n Phrase :=
  (ho.chained productJoin?_replaces).chained sumJoin?_replaces

theorem replaces_listed {n : Nat} (ho : Replaces f (mapPatterns f) n Operand) :
    Replaces f (mapPatternsAll f) n (Listed Phrase) := by
  intro u es hn h
  induction h with
  | one hu => exact .one (replaces_phrase ho hn hu)
  | more hu ht _ ih =>
    rw [List.length_append, List.length_cons] at hn
    rw [replaceFrom_divided (by rw [ht]; rfl), mapPatternsAll]
    exact .more (replaces_phrase ho (by omega) hu) ht (ih (by omega))

/-- An operand with its patterns replaced: by induction on how many tokens it has. -/
theorem replaces_operand (n : Nat) : Replaces f (mapPatterns f) n Operand := by
  induction n with
  | zero =>
    intro u e hn h
    obtain ⟨t, r, rfl, -⟩ := h.head
    cases hn
  | succ n ih =>
    intro u e hn h
    have hclose : ∀ {t : Located}, t.token = .symbol .closeParen → t.token.divides = true :=
      fun ht => by rw [ht]; rfl
    cases h with
    | number hv => exact .number hv
    | quoted hv => exact .quoted hv
    | bool => exact .bool
    | negative hv => exact .negative hv
    | access => exact .access
    | @callEmpty g line s t hg hs ht =>
      obtain ⟨s, line'⟩ := s
      obtain ⟨t, line''⟩ := t
      cases hs
      cases ht
      exact .callEmpty hg rfl rfl
    | @call g line s t u as hg hs hu ht =>
      obtain ⟨s, line'⟩ := s
      cases hs
      simp only [List.length_cons, List.length_append] at hn
      have has := replaces_listed ih (by omega) hu
      have htokens : replaceFrom f false (⟨.path g, line⟩ :: ⟨.symbol .openParen, line'⟩ ::
          (u ++ [t])) = ⟨.path g, line⟩ :: ⟨.symbol .openParen, line'⟩ ::
            (replaceFrom f false u ++ [t]) := by
        change _ :: _ :: replaceFrom f false (u ++ [t]) = _
        rw [replaceFrom_divided (hclose ht)]
        rfl
      rw [htokens, mapPatterns]
      exact .call hg rfl has ht
    | @group s t u e hs hu ht =>
      simp only [List.length_cons, List.length_append] at hn
      rw [replaceFrom_cons (by simp [hs]), hs, replaceFrom_divided (hclose ht)]
      exact .group hs (replaces_phrase ih (by omega) hu) ht

/-- An element that is read to its end, with its patterns replaced. -/
theorem parse_replaceFrom {u : List Located} {e : Element} (h : parse u = .ok (e, [])) :
    parse (replaceFrom f false u) = .ok (e.mapPatterns f, []) :=
  parse_eq_ok_iff.mpr
    (replaces_phrase (replaces_operand u.length) (Nat.le_refl _) (parse_eq_ok_iff.mp h))

end Element

namespace Condition

theorem andJoin?_replaces {t : Token} {k : Condition → Condition → Condition}
    (h : andJoin? t = some k) :
    t.divides = true ∧ ∀ a b, (k a b).mapPatterns f = k (a.mapPatterns f) (b.mapPatterns f) := by
  unfold andJoin? at h
  split at h <;> cases h
  exact ⟨rfl, fun _ _ => rfl⟩

theorem orJoin?_replaces {t : Token} {k : Condition → Condition → Condition}
    (h : orJoin? t = some k) :
    t.divides = true ∧ ∀ a b, (k a b).mapPatterns f = k (a.mapPatterns f) (b.mapPatterns f) := by
  unfold orJoin? at h
  split at h <;> cases h
  exact ⟨rfl, fun _ _ => rfl⟩

theorem divides_of_comparison? {t : Token} {op : Comparison} (h : comparison? t = some op) :
    t.divides = true := by
  unfold comparison? at h
  split at h <;> cases h <;> rfl

theorem replaces_negation {n : Nat} {P : List Located → Condition → Prop}
    (hp : Replaces f (mapPatterns f) n P) : Replaces f (mapPatterns f) n (Negation P) := by
  intro u c hn h
  induction h with
  | one hu => exact .one (hp hn hu)
  | @not t u c ht _ ih =>
    have htokens : replaceFrom f false (t :: u) = t :: replaceFrom f false u :=
      replaceFrom_divided (by rcases ht with h | h <;> rw [h] <;> rfl) false [] u
    rw [htokens]
    exact .not ht (ih (Nat.le_of_succ_le hn))

theorem replaces_phrase {n : Nat} (hp : Replaces f (mapPatterns f) n Primary) :
    Replaces f (mapPatterns f) n Phrase :=
  ((replaces_negation hp).chained andJoin?_replaces).chained orJoin?_replaces

/-- A primary condition with its patterns replaced: by induction on how many tokens it has. -/
theorem replaces_primary (n : Nat) : Replaces f (mapPatterns f) n Primary := by
  induction n with
  | zero =>
    intro u c hn h
    obtain ⟨t, r, rfl, -⟩ := h.head
    cases hn
  | succ n ih =>
    intro u c hn h
    cases h with
    | @group s t u c hs hu ht =>
      simp only [List.length_cons, List.length_append] at hn
      rw [replaceFrom_cons (by simp [hs]), hs, replaceFrom_divided (by rw [ht]; rfl)]
      exact .group hs (replaces_phrase ih (by omega) hu) ht
    | @present t u e ht hu =>
      rw [replaceFrom_cons (by simp [ht]), ht]
      exact .present ht (Element.parse_replaceFrom hu)
    | @ofKind s t u e name k hu hs ht hk =>
      obtain ⟨t, line⟩ := t
      cases ht
      rw [replaceFrom_append (by simp [hs]) (by simp [hs]), hs]
      exact .ofKind (Element.parse_replaceFrom hu) hs rfl hk
    | compare hu ht hv =>
      rw [replaceFrom_divided (divides_of_comparison? ht)]
      exact .compare (Element.parse_replaceFrom hu) ht (Element.parse_replaceFrom hv)
    | single hu => exact .single (Element.parse_replaceFrom hu)

/-- A condition that is read to its end, with its patterns replaced. -/
theorem parse_replaceFrom {u : List Located} {c : Condition} (h : parse u = .ok (c, [])) :
    parse (replaceFrom f false u) = .ok (c.mapPatterns f, []) :=
  (parse_iff_phrase _ _).1.mpr
    (replaces_phrase (replaces_primary u.length) (Nat.le_refl _) ((parse_iff_phrase u c).1.mp h))

end Condition

/-! ### Statements -/

namespace Statement

/-- The statement with its patterns replaced. -/
def mapPatterns (f : Text → Text) : Statement → Statement
  | .if_ c => .if_ (c.mapPatterns f)
  | .for_ h => .for_ ⟨h.item, h.index, f h.target⟩
  | .emit e => .emit (e.mapPatterns f)
  | .else_ => .else_
  | .end_ => .end_

/-- The header of a loop ends with its target. -/
theorem header_replaceLast {u : List Located} {h : Header} (hp : Header.Phrase u h) :
    header (Located.replaceLast f u) = .ok (⟨h.item, h.index, f h.target⟩, []) := by
  cases hp with
  | item hi =>
    simp [Located.replaceLast, header, plainName, hi, indexName, expect, bind, Except.bind]
  | index hi hn =>
    simp [Located.replaceLast, header, plainName, hi, indexName, hn, expect, bind, Except.bind]

/-- A statement with its patterns replaced. -/
theorem body_replacePatterns {ts : List Located} {s : Statement} (h : body ts = .ok (s, [])) :
    body (replacePatterns f ts) = .ok (s.mapPatterns f, []) := by
  obtain - | ⟨⟨t, line⟩, ts⟩ := ts
  · cases h
  · cases t with
    | keyword k =>
      cases k with
      | if_ =>
        obtain ⟨⟨c, rest⟩, hc, hr⟩ := ok_of_bind h
        cases hr
        change (Condition.parse (replaceFrom f false ts) >>= fun r =>
          .ok (Statement.if_ r.1, r.2)) = _
        rw [Condition.parse_replaceFrom hc]
        rfl
      | for_ =>
        obtain ⟨⟨hd, rest⟩, hh, hr⟩ := ok_of_bind h
        cases hr
        obtain ⟨u, rfl, hp⟩ := header_sound hh
        rw [List.append_nil]
        change (header (Located.replaceLast f u) >>= fun r => .ok (Statement.for_ r.1, r.2)) = _
        rw [header_replaceLast hp]
        rfl
      | else_ =>
        cases h
        rfl
      | end_ =>
        cases h
        rfl
      | _ => cases h
    | _ =>
      obtain ⟨⟨e, rest⟩, he, hr⟩ := ok_of_bind h
      cases hr
      exact body_emit (Element.parse_replaceFrom he)

/-- The tokens of the second text are those of the first one with its patterns replaced. -/
def Rewrites (f : Text → Text) (e e' : Text) : Prop :=
  ∃ ts us, Token.lex e 1 = .ok ts ∧ Token.lex e' 1 = .ok us ∧
    SameTokens us (replacePatterns f ts)

/-- An expression can be rewritten if the new paths can be written: with a space between every two
tokens, for instance. -/
theorem rewrites_spaced {e : Text} {ts : List Located} (h : Token.lex e 1 = .ok ts)
    (hw : ∀ t ∈ replacePatterns f ts, t.token.WellSpelled) :
    Rewrites f e (Token.spaced (replacePatterns f ts)) := by
  refine ⟨ts, _, h, Token.lex_spaced_alone (fun t ht => (hw t ht).1) 1, ?_⟩
  rw [SameTokens, List.map_map]
  exact List.map_congr_left fun t ht => (Token.alone_eq_iff _).mpr (hw t ht).2

end Statement
end MailMerge
