import MailMerge.Condition
import MailMerge.Element.Parser

/-!
The grammar of conditions: `or` binds weaker than `and`, and both weaker than negation. A
parenthesis may group a condition or an element; it groups a condition if one can be read up to the
closing parenthesis and nothing that continues an element follows.
-/

namespace MailMerge.Condition

open Parsing

/-- The comparison that a token denotes. Equality has two spellings. -/
def comparison? : Token → Option Comparison
  | .symbol .equals => some .equal
  | .symbol .equalEqual => some .equal
  | .symbol .bangEqual => some .notEqual
  | .symbol .less => some .less
  | .symbol .lessEqual => some .lessEqual
  | .symbol .greater => some .greater
  | .symbol .greaterEqual => some .greaterEqual
  | _ => none

/-- Whether a token can follow an element in a condition. -/
def continuesElement (t : Token) : Bool :=
  (comparison? t).isSome || (Element.sumJoin? t).isSome || (Element.productJoin? t).isSome
    || t == .keyword .is_

/-- The operator of disjunctions. -/
def orJoin? : Token → Option (Condition → Condition → Condition)
  | .keyword .or_ => some .either
  | _ => none

/-- The operator of conjunctions. -/
def andJoin? : Token → Option (Condition → Condition → Condition)
  | .keyword .and_ => some .both
  | _ => none

/-- A primary condition after any number of negations. -/
def negation (primary : Parsing Condition) : Parsing Condition
  | [] => primary []
  | t :: ts =>
    if t.token = .keyword .not_ ∨ t.token = .symbol .bang then do
      let (c, rest) ← negation primary ts
      .ok (.negated c, rest)
    else primary (t :: ts)

/-- Disjunctions of conjunctions, given how to read a primary condition. -/
def disjunction (primary : Parsing Condition) : Parsing Condition :=
  chain (chain (negation primary) andJoin?) orJoin?

/-- The name of a kind of data, after `is`. -/
def kindName : Parsing Kind
  | [] => .error endOfBlock
  | ⟨.path p, line⟩ :: ts =>
    match Kind.ofName? p with
    | some k => .ok (k, ts)
    | none => .error ⟨.unknownKind p, line⟩
  | t :: _ => .error ⟨.unknownKind t.token.quote, t.line⟩

/-- A condition that begins with an element. -/
def test : Parsing Condition := fun ts => do
  let (left, rest) ← Element.parse ts
  match rest with
  | [] => .ok (.single left, [])
  | t :: ts =>
    if t.token = .keyword .is_ then do
      let (k, rest) ← kindName ts
      .ok (.ofKind left k, rest)
    else
      match comparison? t.token with
      | some op => do
        let (right, rest) ← Element.parse ts
        .ok (.compare op left right, rest)
      | none => .ok (.single left, t :: ts)

/-- The condition in a group, after the opening parenthesis, if the group is one of conditions. -/
def grouped? (condition : Parsing Condition) (ts : List Located) :
    Option (Condition × List Located) :=
  match condition ts with
  | .ok (c, ⟨.symbol .closeParen, _⟩ :: rest) =>
    match rest with
    | t :: _ => if continuesElement t.token then none else some (c, rest)
    | [] => some (c, [])
  | _ => none

/-- A primary condition. No more than `depth` groups stand inside each other in it. -/
def primary : Nat → Parsing Condition
  | 0, _ => .error endOfBlock
  | _ + 1, [] => .error endOfBlock
  | depth + 1, t :: ts =>
    match t.token with
    | .keyword .exists_ => do
      let (e, rest) ← Element.parse ts
      .ok (.present e, rest)
    | .symbol .openParen =>
      match grouped? (disjunction (primary depth)) ts with
      | some (c, rest) => .ok (c, rest)
      | none => test (t :: ts)
    | _ => test (t :: ts)

/-- A condition. Each group takes a token, so their number bounds the nesting. -/
def parse : Parsing Condition := fun ts => disjunction (primary ts.length) ts

end MailMerge.Condition
