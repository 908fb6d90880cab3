import MailMerge.Text

/-!
The kinds of values. `missing` is no kind of data: it is what a lookup reports for a pattern that
leads nowhere and for a null.
-/

namespace MailMerge

/-- The kind of a value or of looked-up data. -/
inductive Kind where
  | bool
  | string
  | number
  | array
  | object
  | missing
deriving DecidableEq, Repr, Inhabited

namespace Kind

/-- The name of a kind in templates and messages. -/
def name : Kind → Text
  | .bool => "bool".toList
  | .string => "string".toList
  | .number => "number".toList
  | .array => "array".toList
  | .object => "object".toList
  | .missing => "nonexistent".toList

/-- The kinds of data. -/
def ofData : List Kind := [.array, .object, .number, .string, .bool]

/-- The kind of data with the given name. -/
def ofName? (n : Text) : Option Kind := ofData.find? (·.name = n)

end Kind
end MailMerge
