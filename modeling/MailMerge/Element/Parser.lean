import MailMerge.Element
import MailMerge.Grammar

/-!
The grammar of elements: sums of products of operands, all associating to the left. Operands are
constants, paths, calls of plain names and elements in parentheses.
-/

namespace MailMerge.Element

open Parsing

/-- The operators of sums. -/
def sumJoin? : Token → Option (Element → Element → Element)
  | .symbol .plus => some (.arithmetic .add)
  | .symbol .minus => some (.arithmetic .sub)
  | _ => none

/-- The operators of products. -/
def productJoin? : Token → Option (Element → Element → Element)
  | .symbol .star => some (.arithmetic .mul)
  | .symbol .slash => some (.arithmetic .div)
  | _ => none

/-- Sums of products, given how to read an operand. -/
def sum (operand : Parsing Element) : Parsing Element := chain (chain operand productJoin?) sumJoin?

/-- The constant that `spelling` writes on line `line`. -/
def constant? (spelling : Text) (line : Nat) : Except TemplateError Value :=
  match Value.ofConstant? spelling with
  | some v => .ok v
  | none => .error ⟨.malformedConstant spelling, line⟩

/-- Arguments from one of them on, up to the closing parenthesis; `done` holds those before, last
one first. -/
def argumentsFrom (item : Parsing Element) : Nat → List Element → Parsing (List Element)
  | 0, _, _ => .error endOfBlock
  | fuel + 1, done, ts => do
    let (e, rest) ← item ts
    match rest with
    | [] => .error endOfBlock
    | t :: rest =>
      if t.token = .symbol .comma then argumentsFrom item fuel (e :: done) rest
      else if t.token = .symbol .closeParen then .ok ((e :: done).reverse, rest)
      else .error (expected "',' or ')'".toList t)

/-- The arguments of a call, after its opening parenthesis. -/
def arguments (item : Parsing Element) : Parsing (List Element)
  | ⟨.symbol .closeParen, _⟩ :: rest => .ok ([], rest)
  | ts => argumentsFrom item (ts.length + 1) [] ts

/-- An operand. No more than `depth` calls and groups stand inside each other in it. -/
def operand : Nat → Parsing Element
  | 0, _ => .error endOfBlock
  | _ + 1, [] => .error endOfBlock
  | depth + 1, ⟨t, line⟩ :: ts =>
    match t with
    | .number n => do .ok (.constant n (← constant? n line), ts)
    | .quoted q => do .ok (ofValue (← constant? q line), ts)
    | .bool b => .ok (ofValue (.bool b), ts)
    | .symbol .minus =>
      match ts with
      | ⟨.number n, _⟩ :: ts => do .ok (.constant ('-' :: n) (← constant? ('-' :: n) line), ts)
      | t :: _ => .error (expected "a number after '-'".toList t)
      | [] => .error endOfBlock
    | .path p =>
      match ts with
      | ⟨.symbol .openParen, _⟩ :: ts =>
        if Token.isPlainName p then do
          let (as, rest) ← arguments (sum (operand depth)) ts
          .ok (.call p as, rest)
        else .error ⟨.invalidFunctionName p, line⟩
      | ts => .ok (.access p, ts)
    | .symbol .openParen => do
      let (e, rest) ← sum (operand depth) ts
      match rest with
      | ⟨.symbol .closeParen, _⟩ :: rest => .ok (e, rest)
      | _ => .error ⟨.missingParenthesis [], line⟩
    | t => .error (expected "a value".toList ⟨t, line⟩)

/-- An element. Each call and group takes a token, so their number bounds the nesting. -/
def parse : Parsing Element := fun ts => sum (operand ts.length) ts

end MailMerge.Element
