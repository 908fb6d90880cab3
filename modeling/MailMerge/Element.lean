import MailMerge.Value

/-!
Elements: what a template inserts, compares and passes to functions. Their display joins operands
and arguments without any parentheses and shows strings between quotes, without escapes.
-/

namespace MailMerge

/-- Something that has a value. -/
inductive Element where
  /-- A lookup in the record. -/
  | access (pattern : Text)
  /-- A constant: the text it is rendered as, and its value. -/
  | constant (text : Text) (value : Value)
  /-- Arithmetic on two numbers. -/
  | arithmetic (op : Arithmetic) (left right : Element)
  /-- A call of a user function. -/
  | call (function : Text) (arguments : List Element)
deriving Inhabited

namespace Element

/-- The constant with the given value. -/
def ofValue (v : Value) : Element := .constant v.plain v

mutual

/-- An element as messages name it. -/
def display : Element → Text
  | .access p => p
  | .constant t (.string _) => '"' :: (t ++ ['"'])
  | .constant t _ => t
  | .arithmetic op l r => l.display ++ ' ' :: (op.sign ++ ' ' :: r.display)
  | .call f as => f ++ '(' :: (displayAll as ++ [')'])

/-- Elements with commas between them. -/
def displayAll : List Element → Text
  | [] => []
  | [e] => e.display
  | e :: f :: r => e.display ++ ',' :: ' ' :: displayAll (f :: r)

end

end Element
end MailMerge
