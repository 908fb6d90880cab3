import MailMerge.TemplateError

/-!
Splitting a template at its markers. Between two markers stands an expression; an empty one stands
for the marker itself. The pieces of the source between its markers are therefore a literal text,
then pairs of an expression and a literal text.
-/

namespace MailMerge

/-- The character that opens and closes expressions. -/
def marker : Char := '$'

/-- A run of literal text, or the text of an expression, and the line on which it starts. -/
structure Block where
  text : Text
  isExpression : Bool
  line : Nat
deriving DecidableEq, Repr

namespace Block

/-- A literal text, left out if it is empty. -/
def literal (line : Nat) (t : Text) : List Block := if t.isEmpty then [] else [⟨t, false, line⟩]

/-- What stands between two markers. -/
def between (line : Nat) (e : Text) : Block :=
  if e.isEmpty then ⟨[marker], false, line⟩ else ⟨e, true, line⟩

/-- The blocks of pairs of an expression and a literal text. -/
def ofPairs (line : Nat) : List Text → Except TemplateError (List Block)
  | [] => .ok []
  | [e] => .error ⟨.unterminatedExpression e.trim, line⟩
  | e :: t :: r => do
    let after := line + e.lineFeeds
    let rest ← ofPairs (after + t.lineFeeds) r
    .ok (between line e :: (literal after t ++ rest))

/-- The blocks of a template. -/
def split (source : Text) : Except TemplateError (List Block) :=
  match source.pieces marker with
  | [] => .ok []
  | t :: r => (ofPairs (1 + t.lineFeeds) r).map (literal 1 t ++ ·)

/-- The text between markers that gives the block back; a literal marker is an empty expression. -/
def source (b : Block) : Text :=
  if b.isExpression then marker :: (b.text ++ [marker])
  else if b.text = [marker] then [marker, marker]
  else b.text

end Block
end MailMerge
