import MailMerge.Json.Reader
import MailMerge.Pattern
import MailMerge.RenderError

/-!
Lookups in records, which are JSON documents given as bytes. Strings are handed out without quotes,
arrays and objects as they are written without blanks, so that they are records again; null counts
as missing.
-/

namespace MailMerge

/-- How patterns are looked up in data: the text found and its kind. -/
abbrev Getter := Bytes → Text → Except RenderError (Text × Kind)

namespace Record

/-- The value that one segment selects: an element of an array or a member of an object. -/
def select (document : Json) (segment : Text) : Option Json :=
  match Pattern.indexOf? segment, document with
  | some i, .array items => items[i]?
  | none, .object members => Json.member? segment members
  | _, _ => none

/-- The value that a pattern selects, its segments taken from left to right. -/
def resolve (document : Json) (pattern : Text) : Option Json :=
  (Pattern.segments pattern).foldlM select document

/-- The text and the kind of a document. -/
def describe : Json → Text × Kind
  | .null => (Json.write .null, .missing)
  | .bool b => (Text.ofBool b, .bool)
  | .integer i => (Json.write (.integer i), .number)
  | .real x => (Json.write (.real x), .number)
  | .string t => (t, .string)
  | .array items => (Json.write (.array items), .array)
  | .object members => (Json.write (.object members), .object)

/-- Looks a pattern up in a record. In data that is no document nothing can be found. -/
def get : Getter := fun data pattern =>
  match Json.read data with
  | .error _ => .error (.notExists pattern)
  | .ok document =>
    match (resolve document pattern).map describe with
    | some (t, k) => if k = .missing then .error (.notExists pattern) else .ok (t, k)
    | none => .error (.notExists pattern)

/-- The document that data holds. -/
def read (data : Bytes) : Except RenderError Json :=
  match Json.read data with
  | .ok document => .ok document
  | .error f => .error (.dataAccess (f.message data))

/-- The elements of an array, in order. -/
def elements (data : Bytes) : Except RenderError (List (Text × Kind)) := do
  match ← read data with
  | .array items => .ok (items.map describe)
  | d => .error (.dataAccess ("expected an array, found ".toList ++ (describe d).2.name))

/-- The members of an object with their names, in order. -/
def members (data : Bytes) : Except RenderError (List (Text × Text × Kind)) := do
  match ← read data with
  | .object ms => .ok (ms.map fun m => (m.1, describe m.2))
  | d => .error (.dataAccess ("expected an object, found ".toList ++ (describe d).2.name))

end Record
end MailMerge
