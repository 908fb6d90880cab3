import MailMerge.Element

/-!
Conditions: what an `if` block tests.
-/

namespace MailMerge

/-- A condition. -/
inductive Condition where
  /-- An element that must be a truth value. -/
  | single (e : Element)
  /-- Both hold; the second one is left out if the first one fails. -/
  | both (a b : Condition)
  /-- One of the two holds; the second one is left out if the first one holds. -/
  | either (a b : Condition)
  /-- The other one fails. -/
  | negated (a : Condition)
  /-- Two elements compare as the operator says. -/
  | compare (op : Comparison) (left right : Element)
  /-- An element is present. -/
  | present (e : Element)
  /-- An element is of a kind. -/
  | ofKind (e : Element) (kind : Kind)
deriving Inhabited

end MailMerge
