import MailMerge.Record

/-!
Loop scopes. In a loop, the name of the index stands for the position or key, the name of the item
for the current element, and a pattern that begins with the item is looked up in that element. Every
other pattern is left to the scopes outside, and at last to the record.
-/

namespace MailMerge

/-- What the name of a loop's index stands for. -/
inductive Binding where
  /-- The position in an array, counted from 1. -/
  | position (n : Nat)
  /-- The key in an object. -/
  | key (k : Text)
deriving DecidableEq, Repr

namespace Binding

/-- The text and the kind of the index. -/
def describe : Binding → Text × Kind
  | .position n => (Text.ofNat n, .number)
  | .key k => (k, .string)

/-- A binding as notes name it. -/
def label : Binding → Text
  | .position n => '#' :: Text.ofNat n
  | .key k => '\'' :: (k ++ ['\''])

end Binding

/-- The names of one round of a loop and what they stand for. -/
structure Scope where
  item : Text
  index : Option Text
  element : Bytes
  kind : Kind
  binding : Binding
deriving DecidableEq, Repr

/-- What scopes make of a pattern. -/
inductive Route where
  /-- They know its text and kind. -/
  | found (text : Text) (kind : Kind)
  /-- It leads to nothing. -/
  | absent (pattern : Text)
  /-- The record getter is to be asked. -/
  | ask (data : Bytes) (pattern : Text)
deriving DecidableEq, Repr

namespace Scope

/-- Whether something can be looked up inside data of this kind. -/
def isContainer (k : Kind) : Bool := k == .array || k == .object

/-- What scopes, the innermost one first, make of a pattern in the given data. -/
def route : List Scope → Bytes → Text → Route
  | [], data, pattern => .ask data pattern
  | s :: outer, data, pattern =>
    if s.index = some pattern then .found s.binding.describe.1 s.binding.describe.2
    else
      match Pattern.afterItem? pattern s.item with
      | none => route outer data pattern
      | some [] =>
        if s.kind = .missing then .absent pattern
        else .found (Utf8.decodeLossy s.element) s.kind
      | some (c :: r) =>
        if isContainer s.kind then route outer s.element (c :: r) else .absent pattern

/-- The getter that scopes make of the record getter. -/
def through (scopes : List Scope) (root : Getter) : Getter := fun data pattern =>
  match route scopes data pattern with
  | .found t k => .ok (t, k)
  | .absent p => .error (.notExists p)
  | .ask d p => root d p

end Scope
end MailMerge
