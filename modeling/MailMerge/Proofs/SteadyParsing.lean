import MailMerge.Statement

/-!
# What is read does not depend on lines

The parsers of the grammar look at tokens only. On whatever lines the same tokens stand, a parser
takes the same ones from the front and gives the same for them, or it finds that they end too early,
or it stops at the same token: then the line of that token is the line of its error, and the error
shows the token, or is about an opening parenthesis without its partner. Errors that are dropped on
the way, when a group is read as a condition first, need no lemma of their own: what is given in the
end is as steady.
-/

namespace MailMerge

/-! ### Errors about tokens -/

namespace TemplateError

/-- The text that a cause shows, if it has one. -/
def Cause.text? : Cause → Option Text
  | .unterminatedExpression t | .unexpectedToken t | .unexpectedEnd t | .invalidCharacter t
  | .malformedConstant t | .unknownKind t | .unknownKeyword t | .unmatchedBlock t
  | .unclosedBlock t | .missingParenthesis t | .invalidFunctionName t | .trailingTokens t => some t
  | .duplicateElse => none

/-- Whether a cause is about how blocks stand inside each other. -/
def Cause.isNesting : Cause → Bool
  | .unmatchedBlock _ | .unclosedBlock _ | .duplicateElse => true
  | _ => false

/-- Whether a cause shows a token that cannot stand where it does. -/
def Cause.namesToken : Cause → Bool
  | .unexpectedToken _ | .malformedConstant _ | .unknownKind _ | .unknownKeyword _
  | .invalidFunctionName _ | .trailingTokens _ => true
  | _ => false

theorem Cause.isNesting_of_namesToken {c : Cause} (h : c.namesToken = true) :
    c.isNesting = false := by
  cases c <;> first | rfl | cases h

/-- What a parser can say about a token at which it stops. -/
inductive Cause.Blames (t : Token) : Cause → Prop where
  /-- It is an opening parenthesis and has no partner. -/
  | parenthesis (ht : t = .symbol .openParen) : Blames t (.missingParenthesis [])
  /-- It cannot stand where it does, and is shown. -/
  | token {c : Cause} {shown : Text} (hc : c.namesToken = true) (hs : c.text? = some shown)
      (hi : t.spelling <:+: shown) : Blames t c

theorem Cause.Blames.quoted {t : Token} {c : Cause} (before : Text) (hc : c.namesToken = true)
    (hs : c.text? = some (before ++ t.quote)) : c.Blames t :=
  .token hc hs ⟨before ++ ['\''], ['\''], by simp [Token.quote]⟩

end TemplateError

namespace Parsing

open TemplateError (Cause)

variable {α β : Type}

/-! ### Steady parsers -/

theorem exists_of_map_eq_cons {us : List Located} {t : Token} {ts : List Token}
    (h : us.map Located.token = t :: ts) :
    ∃ line vs, us = ⟨t, line⟩ :: vs ∧ vs.map Located.token = ts := by
  obtain ⟨⟨u, line⟩, vs, rfl, rfl, hvs⟩ := List.map_eq_cons_iff.mp h
  exact ⟨line, vs, rfl, hvs⟩

section Definitions

variable (p : List Located → Except TemplateError α)

/-- The parser succeeds with `a` when it has taken the tokens `before`, and leaves those after. -/
def Takes (p : Parsing α) (before after : List Token) (a : α) : Prop :=
  ∀ us vs, us.map Located.token = before → vs.map Located.token = after →
    p (us ++ vs) = .ok (a, vs)

/-- The parser finds that the tokens end too early. -/
def EndsEarly (ts : List Token) : Prop :=
  ∀ us, us.map Located.token = ts → p us = .error endOfBlock

/-- The parser stops at the token `t`, between the tokens before and after it, because of `c`: on
whatever lines they are, the line of `t` is that of the error. -/
def StopsAt (before : List Token) (t : Token) (after : List Token) (c : Cause) : Prop :=
  ∀ us line vs, us.map Located.token = before → vs.map Located.token = after →
    p (us ++ ⟨t, line⟩ :: vs) = .error ⟨c, line⟩

end Definitions

section Tokens

variable {before after : List Token} {us : List Located}

/-- Tokens of which a parser takes the first ones. -/
theorem Takes.exists_rest {p : Parsing α} {a : α} (h : Takes p before after a)
    (hu : us.map Located.token = before ++ after) :
    ∃ xs ys, us = xs ++ ys ∧ xs.map Located.token = before ∧ ys.map Located.token = after ∧
      p us = .ok (a, ys) := by
  obtain ⟨xs, ys, rfl, hx, hy⟩ := List.map_eq_append_iff.mp hu
  exact ⟨xs, ys, rfl, hx, hy, h xs ys hx hy⟩

/-- Tokens at one of which a parser stops. -/
theorem StopsAt.exists_line {p : List Located → Except TemplateError α} {t : Token} {c : Cause}
    (h : StopsAt p before t after c) (hu : us.map Located.token = before ++ t :: after) :
    ∃ xs line ys, us = xs ++ ⟨t, line⟩ :: ys ∧ xs.map Located.token = before ∧
      ys.map Located.token = after ∧ p us = .error ⟨c, line⟩ := by
  obtain ⟨xs, zs, rfl, hx, hz⟩ := List.map_eq_append_iff.mp hu
  obtain ⟨line, ys, rfl, hy⟩ := exists_of_map_eq_cons hz
  exact ⟨xs, line, ys, rfl, hx, hy, h xs line ys hx hy⟩

end Tokens

/-- What a parser makes of tokens, on whatever lines they are. -/
inductive Reads (p : Parsing α) : List Token → Prop where
  | ok {before after : List Token} (a : α) (h : Takes p before after a) : Reads p (before ++ after)
  | ending {ts : List Token} (h : EndsEarly p ts) : Reads p ts
  | stop {before after : List Token} {t : Token} {c : Cause} (hc : c.Blames t)
      (h : StopsAt p before t after c) : Reads p (before ++ t :: after)

/-- A parser that does not look at lines. -/
def Steady (p : Parsing α) : Prop := ∀ ts, Reads p ts

namespace Reads

variable {p q : Parsing α} {t : Token} {ts : List Token}

theorem congr (h : ∀ us, us.map Located.token = ts → p us = q us) (hq : Reads q ts) :
    Reads p ts := by
  cases hq with
  | ok a hq =>
    refine .ok a fun us vs hu hv => ?_
    rw [h _ (by rw [List.map_append, hu, hv]), hq us vs hu hv]
  | ending hq => exact .ending fun us hu => (h us hu).trans (hq us hu)
  | stop hc hq =>
    refine .stop hc fun us line vs hu hv => ?_
    rw [h _ (by rw [List.map_append, List.map_cons, hu, hv]), hq us line vs hu hv]

/-- The parser takes nothing. -/
theorem pure (a : α) (h : ∀ us, us.map Located.token = ts → p us = .ok (a, us)) : Reads p ts := by
  have hok : Takes p [] ts a := fun us vs hu hv => by
    rw [List.map_eq_nil_iff.mp hu]
    exact h vs hv
  exact .ok a hok

/-- The parser leaves the first token to another one for those behind it. -/
theorem behind (hq : Reads q ts)
    (h : ∀ line us, us.map Located.token = ts → p (⟨t, line⟩ :: us) = q us) :
    Reads p (t :: ts) := by
  cases hq with
  | @ok before after a hq =>
    have hok : Takes p (t :: before) after a := fun us vs hu hv => by
      obtain ⟨line, xs, rfl, hx⟩ := exists_of_map_eq_cons hu
      rw [List.cons_append, h line _ (by rw [List.map_append, hx, hv]), hq xs vs hx hv]
    exact .ok a hok
  | ending hq =>
    refine .ending fun us hu => ?_
    obtain ⟨line, xs, rfl, hx⟩ := exists_of_map_eq_cons hu
    exact (h line xs hx).trans (hq xs hx)
  | @stop before after s c hc hq =>
    have hstop : StopsAt p (t :: before) s after c := fun us line' vs hu hv => by
      obtain ⟨line, xs, rfl, hx⟩ := exists_of_map_eq_cons hu
      rw [List.cons_append, h line _ (by rw [List.map_append, List.map_cons, hx, hv]),
        hq xs line' vs hx hv]
    exact .stop hc hstop

/-- The parser takes the first token. -/
theorem take (a : α)
    (h : ∀ line us, us.map Located.token = ts → p (⟨t, line⟩ :: us) = .ok (a, us)) :
    Reads p (t :: ts) :=
  .behind (q := fun us => .ok (a, us)) (.pure a fun _ _ => rfl) h

/-- The parser stops at the first token. -/
theorem refuse {c : Cause} (hc : c.Blames t)
    (h : ∀ line us, us.map Located.token = ts → p (⟨t, line⟩ :: us) = .error ⟨c, line⟩) :
    Reads p (t :: ts) := by
  have hstop : StopsAt p [] t ts c := fun us line vs hu hv => by
    rw [List.map_eq_nil_iff.mp hu]
    exact h line vs hv
  exact .stop hc hstop

/-- The parser expects another token than the first one. -/
theorem expected (what : Text) (h : ∀ line us, us.map Located.token = ts →
    p (⟨t, line⟩ :: us) = .error (expected what ⟨t, line⟩)) : Reads p (t :: ts) := by
  have hc : Cause.Blames t
      (.unexpectedToken ("expected ".toList ++ what ++ ", found ".toList ++ t.quote)) :=
    .quoted _ rfl rfl
  exact .refuse hc h

/-- There is nothing to take. -/
theorem empty (h : p [] = .error endOfBlock) : Reads p [] :=
  .ending fun us hu => by rw [List.map_eq_nil_iff.mp hu, h]

/-- One parser after another one, which leaves some of the tokens for it. -/
theorem bind {f : α × List Located → Except TemplateError (β × List Located)} (hp : Reads p ts)
    (hf : ∀ a, Steady fun us => f (a, us)) : Reads (fun us => p us >>= f) ts := by
  cases hp with
  | @ok before after a hp =>
    cases hf a after with
    | @ok taken after b hfa =>
      rw [← List.append_assoc]
      refine .ok b fun us vs hu hv => ?_
      obtain ⟨xs, ys, rfl, hx, hy⟩ := List.map_eq_append_iff.mp hu
      rw [List.append_assoc, hp xs (ys ++ vs) hx (by rw [List.map_append, hy, hv])]
      exact hfa ys vs hy hv
    | ending hfa =>
      refine .ending fun us hu => ?_
      obtain ⟨xs, ys, rfl, hx, hy⟩ := List.map_eq_append_iff.mp hu
      rw [hp xs ys hx hy]
      exact hfa ys hy
    | @stop taken after t c hc hfa =>
      rw [← List.append_assoc]
      refine .stop hc fun us line vs hu hv => ?_
      obtain ⟨xs, ys, rfl, hx, hy⟩ := List.map_eq_append_iff.mp hu
      rw [List.append_assoc,
        hp xs (ys ++ ⟨t, line⟩ :: vs) hx (by rw [List.map_append, List.map_cons, hy, hv])]
      exact hfa ys line vs hy hv
  | ending hp =>
    refine .ending fun us hu => ?_
    rw [hp us hu]
    rfl
  | stop hc hp =>
    refine .stop hc fun us line vs hu hv => ?_
    rw [hp us line vs hu hv]
    rfl

end Reads

/-! ### What the levels of the grammar share -/

theorem chainFrom_steady {operand : Parsing α} {join? : Token → Option (α → α → α)}
    (ho : Steady operand) (fuel : Nat) : ∀ a, Steady (chainFrom operand join? fuel a) := by
  induction fuel with
  | zero => exact fun a _ => .pure a fun _ _ => rfl
  | succ fuel ih =>
    intro a ts
    cases ts with
    | nil => exact .pure a fun us hu => by rw [List.map_eq_nil_iff.mp hu, chainFrom]
    | cons t ts =>
      cases hj : join? t with
      | none =>
        refine .pure a fun us hu => ?_
        obtain ⟨line, us, rfl, -⟩ := exists_of_map_eq_cons hu
        simp only [chainFrom, hj]
      | some f =>
        have hrest := (ho ts).bind (f := fun r => chainFrom operand join? fuel (f a r.1) r.2)
          fun b => ih (f a b)
        exact .behind hrest fun line us _ => by simp only [chainFrom, hj]

theorem chain_steady {operand : Parsing α} {join? : Token → Option (α → α → α)}
    (ho : Steady operand) : Steady (chain operand join?) := by
  refine fun ts => (ho ts).bind fun a us => ?_
  refine .congr (q := chainFrom operand join? us.length a) (fun vs hv => ?_)
    (chainFrom_steady ho us.length a us)
  rw [← hv, List.length_map]

theorem expect_steady (token : Token) : Steady (expect token) := by
  intro ts
  cases ts with
  | nil => exact .empty rfl
  | cons t ts =>
    by_cases ht : t = token
    · exact .take () fun line us _ => by simp only [expect, ht, if_true]
    · exact .expected token.quote fun line us _ => by simp only [expect, ht, if_false]

theorem plainName_steady (what : Text) : Steady (plainName what) := by
  intro ts
  cases ts with
  | nil => exact .empty rfl
  | cons t ts =>
    cases t with
    | path p =>
      cases hp : Token.isPlainName p with
      | true => exact .take p fun line us _ => by simp [plainName, hp]
      | false => exact .expected what fun line us _ => by simp [plainName, hp]
    | _ => exact .expected what fun line us _ => rfl

end Parsing

/-! ### Elements -/

namespace Element

open Parsing
open TemplateError (Cause)

theorem argumentsFrom_steady {item : Parsing Element} (hi : Steady item) (fuel : Nat) :
    ∀ done, Steady (argumentsFrom item fuel done) := by
  induction fuel with
  | zero => exact fun done ts => .ending fun _ _ => rfl
  | succ fuel ih =>
    intro done ts
    refine (hi ts).bind fun e us => ?_
    cases us with
    | nil => exact .empty rfl
    | cons t us =>
      by_cases hcomma : t = .symbol .comma
      · exact .behind (ih (e :: done) us) fun line vs _ => by simp only [hcomma, if_true]
      · by_cases hclose : t = .symbol .closeParen
        · exact .take (e :: done).reverse fun line vs _ => by simp [hclose]
        · exact .expected "',' or ')'".toList fun line vs _ => by
            simp only [hcomma, hclose, if_false]

theorem arguments_steady {item : Parsing Element} (hi : Steady item) : Steady (arguments item) := by
  intro ts
  by_cases hclose : ∃ us, ts = .symbol .closeParen :: us
  · obtain ⟨us, rfl⟩ := hclose
    exact .take [] fun line vs _ => rfl
  · refine .congr (q := argumentsFrom item (ts.length + 1) []) (fun us hu => ?_)
      (argumentsFrom_steady hi _ [] ts)
    unfold arguments
    split
    · exact absurd ⟨_, hu.symm⟩ hclose
    · rw [← hu, List.length_map]

theorem sum_steady {operand : Parsing Element} (ho : Steady operand) : Steady (sum operand) :=
  chain_steady (chain_steady ho)

/-- A constant is read, or its token is shown. -/
theorem constant_steady {p : Parsing Element} {q : Value → Parsing Element} {t : Token}
    {ts : List Token} {spelling : Text} (hi : t.spelling <:+: spelling)
    (h : ∀ line us, us.map Located.token = ts →
      p (⟨t, line⟩ :: us) = (do let v ← constant? spelling line; q v us))
    (hq : ∀ v, Reads (q v) ts) : Reads p (t :: ts) := by
  cases hv : Value.ofConstant? spelling with
  | none =>
    refine .refuse (.token (c := .malformedConstant spelling) rfl rfl hi) fun line us hu => ?_
    rw [h line us hu, constant?, hv]
    rfl
  | some v =>
    refine .behind (hq v) fun line us hu => ?_
    rw [h line us hu, constant?, hv]
    rfl

/-- A number that a minus sign begins. -/
theorem operand_minus (depth : Nat) (ts : List Token) :
    Reads (operand (depth + 1)) (.symbol .minus :: ts) := by
  cases ts with
  | nil =>
    refine .ending fun us hu => ?_
    obtain ⟨line, vs, rfl, hv⟩ := exists_of_map_eq_cons hu
    rw [List.map_eq_nil_iff.mp hv]
    rfl
  | cons t ts =>
    by_cases hnumber : ∃ n, t = .number n
    · obtain ⟨n, rfl⟩ := hnumber
      -- the minus sign is the token that is shown, with the number behind it
      have hminus : Token.spelling (.symbol .minus) <:+: '-' :: n := ⟨[], n, rfl⟩
      refine constant_steady (q := fun v us => .ok (.constant ('-' :: n) v, us.tail)) hminus
        (fun line us hu => ?_) fun v => .take _ fun _ _ _ => rfl
      obtain ⟨line', vs, rfl, -⟩ := exists_of_map_eq_cons hu
      rfl
    · have herror : ∀ line line' us,
          operand (depth + 1) (⟨.symbol .minus, line⟩ :: ⟨t, line'⟩ :: us) =
            .error (expected "a number after '-'".toList ⟨t, line'⟩) := fun line line' us => by
        cases t with
        | number n => exact absurd ⟨n, rfl⟩ hnumber
        | _ => rfl
      have hnext : Reads (fun us => operand (depth + 1) (⟨.symbol .minus, 0⟩ :: us)) (t :: ts) :=
        .expected "a number after '-'".toList fun line us _ => herror 0 line us
      refine .behind hnext fun line us hu => ?_
      obtain ⟨line', vs, rfl, -⟩ := exists_of_map_eq_cons hu
      rw [herror, herror]

/-- A path, or a call of the function with its name. -/
theorem operand_path {depth : Nat} (hsum : Steady (sum (operand depth))) (p : Text)
    (ts : List Token) : Reads (operand (depth + 1)) (.path p :: ts) := by
  by_cases hopen : ∃ us, ts = .symbol .openParen :: us
  · obtain ⟨us, rfl⟩ := hopen
    cases hp : Token.isPlainName p with
    | true =>
      have hcall := (arguments_steady hsum us).bind (f := fun r => .ok (Element.call p r.1, r.2))
        fun as vs => .pure (.call p as) fun _ _ => rfl
      have hgroup : Reads (fun vs => arguments (sum (operand depth)) vs.tail >>=
          fun r => .ok (Element.call p r.1, r.2)) (.symbol .openParen :: us) :=
        .behind hcall fun line vs _ => rfl
      refine .behind hgroup fun line vs hv => ?_
      obtain ⟨line', ws, rfl, -⟩ := exists_of_map_eq_cons hv
      simp only [operand, hp, if_true]
      rfl
    | false =>
      refine .refuse (.token (c := .invalidFunctionName p) rfl rfl (List.infix_refl p))
        fun line vs hv => ?_
      obtain ⟨line', ws, rfl, -⟩ := exists_of_map_eq_cons hv
      simp only [operand, hp, Bool.false_eq_true, if_false]
  · refine .take (.access p) fun line us hu => ?_
    simp only [operand]
    split
    · exact absurd ⟨_, hu.symm⟩ hopen
    · rfl

/-- A group has its closing parenthesis right behind the element, or the opening one is blamed. -/
theorem operand_group {depth : Nat} (hsum : Steady (sum (operand depth))) (ts : List Token) :
    Reads (operand (depth + 1)) (.symbol .openParen :: ts) := by
  have hgroup := hsum ts
  cases hgroup with
  | @ok before after e hgroup =>
    by_cases hclose : ∃ behind, after = .symbol .closeParen :: behind
    · obtain ⟨behind, rfl⟩ := hclose
      have htail : ∀ e : Element, Steady fun us => .ok (e, us.tail) := fun e us => by
        cases us with
        | nil => exact .pure e fun us hu => by rw [List.map_eq_nil_iff.mp hu]; rfl
        | cons t us => exact .take e fun _ _ _ => rfl
      have hrest := (hsum (before ++ .symbol .closeParen :: behind)).bind
        (f := fun r => .ok (r.1, r.2.tail)) htail
      refine .behind hrest fun line us hu => ?_
      obtain ⟨xs, ys, rfl, -, hy, hread⟩ := hgroup.exists_rest hu
      obtain ⟨line', zs, rfl, -⟩ := exists_of_map_eq_cons hy
      simp only [operand, hread, bind, Except.bind]
      rfl
    · refine .refuse (.parenthesis rfl) fun line us hu => ?_
      obtain ⟨xs, ys, rfl, -, hy, hread⟩ := hgroup.exists_rest hu
      simp only [operand, hread, bind, Except.bind]
      split
      · exact absurd ⟨_, hy.symm⟩ hclose
      · rfl
  | ending hgroup =>
    refine .behind (.ending hgroup) fun line us hu => ?_
    simp only [operand, hgroup us hu, bind, Except.bind]
  | stop hc hgroup =>
    refine .behind (.stop hc hgroup) fun line us hu => ?_
    obtain ⟨xs, line', ys, rfl, -, -, hread⟩ := hgroup.exists_line hu
    simp only [operand, hread, bind, Except.bind]

/-- Whatever begins an operand, by induction on how deep calls and groups may stand in it. -/
theorem operand_steady (depth : Nat) : Steady (operand depth) := by
  induction depth with
  | zero => exact fun ts => .ending fun _ _ => rfl
  | succ depth ih =>
    intro ts
    match ts with
    | [] => exact .empty rfl
    | .number n :: ts =>
      exact constant_steady (q := fun v us => .ok (.constant n v, us)) (List.infix_refl n)
        (fun line us _ => rfl) fun v => .pure _ fun _ _ => rfl
    | .quoted q :: ts =>
      exact constant_steady (q := fun v us => .ok (ofValue v, us)) (List.infix_refl q)
        (fun line us _ => rfl) fun v => .pure _ fun _ _ => rfl
    | .bool b :: ts => exact .take _ fun line us _ => rfl
    | .keyword k :: ts => exact .expected "a value".toList fun line us _ => rfl
    | .path p :: ts => exact operand_path (sum_steady ih) p ts
    | .symbol m :: ts =>
      cases m with
      | minus => exact operand_minus depth ts
      | openParen => exact operand_group (sum_steady ih) ts
      | _ => exact .expected "a value".toList fun line us _ => rfl

theorem parse_steady : Steady parse := fun ts =>
  .congr (q := sum (operand ts.length)) (fun us hu => by rw [parse, ← hu, List.length_map])
    (sum_steady (operand_steady ts.length) ts)

end Element

/-! ### Conditions -/

namespace Condition

open Parsing
open TemplateError (Cause)

theorem kindName_steady : Steady kindName := by
  have hquote : ∀ t : Token, Cause.Blames t (.unknownKind t.quote) := fun t => .quoted [] rfl rfl
  intro ts
  match ts with
  | [] => exact .empty rfl
  | .path p :: ts =>
    cases hk : Kind.ofName? p with
    | none =>
      refine .refuse (.token (c := .unknownKind p) rfl rfl (List.infix_refl p)) fun line us _ => ?_
      simp only [kindName, hk]
    | some k => exact .take k fun line us _ => by simp only [kindName, hk]
  | .number _ :: ts | .quoted _ :: ts | .bool _ :: ts | .keyword _ :: ts | .symbol _ :: ts =>
    exact .refuse (hquote _) fun line us _ => rfl

theorem test_steady : Steady test := by
  refine fun ts => (Element.parse_steady ts).bind fun left us => ?_
  cases us with
  | nil => exact .pure (.single left) fun us hu => by rw [List.map_eq_nil_iff.mp hu]
  | cons t us =>
    by_cases his : t = .keyword .is_
    · have hkind := (kindName_steady us).bind (f := fun r => .ok (Condition.ofKind left r.1, r.2))
        fun k vs => .pure (.ofKind left k) fun _ _ => rfl
      exact .behind hkind fun line vs _ => by simp only [his, if_true]
    · cases hop : comparison? t with
      | some op =>
        have hright := (Element.parse_steady us).bind
          (f := fun r => .ok (Condition.compare op left r.1, r.2))
          fun right vs => .pure (.compare op left right) fun _ _ => rfl
        exact .behind hright fun line vs _ => by simp only [his, if_false, hop]
      | none =>
        refine .pure (.single left) fun vs hv => ?_
        obtain ⟨line, ws, rfl, -⟩ := exists_of_map_eq_cons hv
        simp only [his, if_false, hop]

/-- A group is read as one of a condition, or not, whatever lines its tokens are on. -/
theorem grouped?_steady {condition : Parsing Condition} (hc : Steady condition)
    (ts : List Token) :
    (∃ before after c, ts = before ++ after ∧ ∀ us vs, us.map Located.token = before →
      vs.map Located.token = after → grouped? condition (us ++ vs) = some (c, vs)) ∨
    ∀ us, us.map Located.token = ts → grouped? condition us = none := by
  cases hc ts with
  | @ok before after c hgroup =>
    by_cases hclose : ∃ behind, after = .symbol .closeParen :: behind ∧
        ∀ t ∈ behind.head?, continuesElement t = false
    · obtain ⟨behind, rfl, hnext⟩ := hclose
      refine .inl ⟨before ++ [.symbol .closeParen], behind, c, by simp, fun us vs hu hv => ?_⟩
      obtain ⟨xs, ys, rfl, hx, hy⟩ := List.map_eq_append_iff.mp hu
      obtain ⟨line, zs, rfl, hz⟩ := exists_of_map_eq_cons hy
      rw [List.map_eq_nil_iff.mp hz, List.append_assoc, grouped?,
        hgroup xs _ hx (by rw [List.singleton_append, List.map_cons, hv])]
      cases vs with
      | nil => rfl
      | cons t vs =>
        rw [List.map_cons] at hv
        have ht : continuesElement t.token = false := hnext _ (by rw [← hv]; rfl)
        simp [ht]
    · refine .inr fun us hu => ?_
      obtain ⟨xs, ys, rfl, -, hy, hread⟩ := hgroup.exists_rest hu
      rw [grouped?, hread]
      split
      · next line rest heq =>
        cases heq
        -- the parenthesis is closed, so what continues an element follows
        split
        · next t _ =>
          split
          · rfl
          · next ht =>
            refine absurd ⟨_, hy.symm, ?_⟩ hclose
            rintro s ⟨⟩
            simpa using ht
        · exact absurd ⟨_, hy.symm, nofun⟩ hclose
      · rfl
  | ending h => exact .inr fun us hu => by rw [grouped?, h us hu]
  | stop _ h =>
    refine .inr fun us hu => ?_
    obtain ⟨xs, line, ys, rfl, -, -, hread⟩ := h.exists_line hu
    rw [grouped?, hread]

theorem negation_steady {primary : Parsing Condition} (hp : Steady primary) :
    Steady (negation primary) := by
  intro ts
  induction ts with
  | nil => exact .congr (q := primary) (fun us hu => by rw [List.map_eq_nil_iff.mp hu]; rfl) (hp [])
  | cons t ts ih =>
    by_cases ht : t = .keyword .not_ ∨ t = .symbol .bang
    · have hrest := ih.bind (f := fun r => .ok (Condition.negated r.1, r.2))
        fun c us => .pure (.negated c) fun _ _ => rfl
      exact .behind hrest fun line us _ => by simp only [negation, ht, if_true]
    · refine .congr (q := primary) (fun us hu => ?_) (hp (t :: ts))
      obtain ⟨line, vs, rfl, -⟩ := exists_of_map_eq_cons hu
      simp only [negation, ht, if_false]

theorem disjunction_steady {primary : Parsing Condition} (hp : Steady primary) :
    Steady (disjunction primary) :=
  chain_steady (chain_steady (negation_steady hp))

theorem primary_steady (depth : Nat) : Steady (primary depth) := by
  induction depth with
  | zero => exact fun ts => .ending fun _ _ => rfl
  | succ depth ih =>
    intro ts
    cases ts with
    | nil => exact .empty rfl
    | cons t ts =>
      by_cases hexists : t = .keyword .exists_
      · subst hexists
        have hrest := (Element.parse_steady ts).bind
          (f := fun r => .ok (Condition.present r.1, r.2))
          fun e us => .pure (.present e) fun _ _ => rfl
        exact .behind hrest fun line us _ => rfl
      · by_cases hopen : t = .symbol .openParen
        · subst hopen
          rcases grouped?_steady (disjunction_steady ih) ts with
            ⟨before, after, c, rfl, hgroup⟩ | hnone
          · have htakes : Takes (primary (depth + 1)) (.symbol .openParen :: before) after c := by
              intro us vs hu hv
              obtain ⟨line, xs, rfl, hx⟩ := exists_of_map_eq_cons hu
              simp only [List.cons_append, primary, hgroup xs vs hx hv]
            exact .ok c htakes
          · refine .congr (q := test) (fun us hu => ?_) (test_steady _)
            obtain ⟨line, vs, rfl, hv⟩ := exists_of_map_eq_cons hu
            simp only [primary, hnone vs hv]
        · refine .congr (q := test) (fun us hu => ?_) (test_steady (t :: ts))
          obtain ⟨line, vs, rfl, -⟩ := exists_of_map_eq_cons hu
          unfold primary
          split <;> first | rfl | contradiction

theorem parse_steady : Steady parse := fun ts =>
  .congr (q := disjunction (primary ts.length))
    (fun us hu => by rw [parse, ← hu, List.length_map])
    (disjunction_steady (primary_steady ts.length) ts)

end Condition

/-! ### Statements -/

namespace Statement

open Parsing
open TemplateError (Cause)

theorem indexName_steady : Steady indexName := by
  intro ts
  by_cases hcomma : ∃ us, ts = .symbol .comma :: us
  · obtain ⟨us, rfl⟩ := hcomma
    have hname := (plainName_steady "loop index name".toList us).bind
      (f := fun r => .ok (some r.1, r.2)) fun i vs => .pure (some i) fun _ _ => rfl
    exact .behind hname fun line vs _ => rfl
  · refine .pure none fun us hu => ?_
    unfold indexName
    split
    · exact absurd ⟨_, hu.symm⟩ hcomma
    · rfl

theorem header_steady : Steady header := by
  refine fun ts => (plainName_steady _ ts).bind fun item ts => ?_
  refine (indexName_steady ts).bind fun index ts => ?_
  refine (expect_steady _ ts).bind fun _ ts => ?_
  match ts with
  | [] => exact .empty rfl
  | .path p :: ts => exact .take _ fun line us _ => rfl
  | .number _ :: ts | .quoted _ :: ts | .bool _ :: ts | .keyword _ :: ts | .symbol _ :: ts =>
    exact .expected "an access pattern after 'in'".toList fun line us _ => rfl

theorem body_steady : Steady body := by
  intro ts
  by_cases hkeyword : ∃ k us, ts = .keyword k :: us
  · obtain ⟨k, us, rfl⟩ := hkeyword
    cases k with
    | if_ =>
      have hrest := (Condition.parse_steady us).bind (f := fun r => .ok (Statement.if_ r.1, r.2))
        fun c vs => .pure (.if_ c) fun _ _ => rfl
      exact .behind hrest fun line vs _ => rfl
    | for_ =>
      have hrest := (header_steady us).bind (f := fun r => .ok (Statement.for_ r.1, r.2))
        fun h vs => .pure (.for_ h) fun _ _ => rfl
      exact .behind hrest fun line vs _ => rfl
    | else_ => exact .take .else_ fun line vs _ => rfl
    | end_ => exact .take .end_ fun line vs _ => rfl
    | in_ | and_ | or_ | not_ | exists_ | is_ =>
      exact .refuse (.token (c := .unknownKeyword _) rfl rfl (List.infix_refl _))
        fun line vs _ => rfl
  · have hrest := (Element.parse_steady ts).bind (f := fun r => .ok (Statement.emit r.1, r.2))
      fun e us => .pure (.emit e) fun _ _ => rfl
    refine .congr (fun us hu => ?_) hrest
    unfold body
    split
    · exact absurd ⟨_, _, hu.symm⟩ hkeyword
    · rfl

/-- What the tokens of a block make up, on whatever lines they are: a statement, or nothing, since
they end too early or for what is wrong with one of them. -/
theorem ofTokens_steady (ts : List Token) :
    (∃ s, ∀ us, us.map Located.token = ts → ofTokens us = .ok s) ∨ EndsEarly ofTokens ts ∨
      ∃ before t after c, ts = before ++ t :: after ∧ c.Blames t ∧
        StopsAt ofTokens before t after c := by
  cases body_steady ts with
  | @ok before after s hbody =>
    cases after with
    | nil =>
      refine .inl ⟨s, fun us hu => ?_⟩
      have h := hbody us [] (by rw [hu, List.append_nil]) rfl
      rw [List.append_nil] at h
      rw [ofTokens, h]
      rfl
    | cons t after =>
      refine .inr (.inr ⟨before, t, after, .trailingTokens t.quote, rfl, .quoted [] rfl rfl, ?_⟩)
      intro us line vs hu hv
      rw [ofTokens, hbody us (⟨t, line⟩ :: vs) hu (by rw [List.map_cons, hv])]
      rfl
  | ending h =>
    refine .inr (.inl fun us hu => ?_)
    rw [ofTokens, h us hu]
    rfl
  | @stop before after t c hc h =>
    refine .inr (.inr ⟨before, t, after, c, rfl, hc, fun us line vs hu hv => ?_⟩)
    rw [ofTokens, h us line vs hu hv]
    rfl

end Statement
end MailMerge
