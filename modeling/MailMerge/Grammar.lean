import MailMerge.TemplateError
import MailMerge.Token

/-!
What the grammars of elements, conditions and statements share: errors about the next token, and
chains of operands that associate to the left.
-/

namespace MailMerge

/-- A parser takes tokens from the front of a list and gives what it read and the tokens left. -/
abbrev Parsing (α : Type) := List Located → Except TemplateError (α × List Located)

namespace Parsing

/-- The block ends where more was due. Its text and line are filled in by the block. -/
def endOfBlock : TemplateError := ⟨.unexpectedEnd [], 0⟩

/-- Another token was due than `t`. -/
def expected (what : Text) (t : Located) : TemplateError :=
  ⟨.unexpectedToken ("expected ".toList ++ what ++ ", found ".toList ++ t.token.quote), t.line⟩

/-- Goes on after the operand `a`, joining it with every further one. -/
def chainFrom {α : Type} (operand : Parsing α) (join? : Token → Option (α → α → α)) :
    Nat → α → Parsing α
  | 0, a, ts => .ok (a, ts)
  | _ + 1, a, [] => .ok (a, [])
  | fuel + 1, a, t :: ts =>
    match join? t.token with
    | none => .ok (a, t :: ts)
    | some f => do
      let (b, rest) ← operand ts
      chainFrom operand join? fuel (f a b) rest

/-- Operands joined from left to right. -/
def chain {α : Type} (operand : Parsing α) (join? : Token → Option (α → α → α)) : Parsing α :=
  fun ts => do
    let (a, rest) ← operand ts
    chainFrom operand join? rest.length a rest

/-- The given token must come next. -/
def expect (token : Token) : Parsing Unit
  | [] => .error endOfBlock
  | t :: ts => if t.token = token then .ok ((), ts) else .error (expected token.quote t)

/-- A plain name must come next. -/
def plainName (what : Text) : Parsing Text
  | [] => .error endOfBlock
  | t :: ts =>
    match t.token with
    | .path p => if Token.isPlainName p then .ok (p, ts) else .error (expected what t)
    | _ => .error (expected what t)

/-- No token must be left. -/
def expectEnd : List Located → Except TemplateError Unit
  | [] => .ok ()
  | t :: _ => .error ⟨.trailingTokens t.token.quote, t.line⟩

end Parsing
end MailMerge
