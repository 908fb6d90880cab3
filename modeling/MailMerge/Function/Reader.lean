import MailMerge.Decimal.Reader
import MailMerge.Function
import MailMerge.Json.Reader

/-!
Reading a functions file: a JSON object from names to definitions. A definition names its kind and
gives what that kind needs. Definitions are loaded in order, and one that is there to fail makes the
whole file fail.
-/

namespace MailMerge

namespace Json

/-- The member `name` of an object. -/
def get? (j : Json) (name : Text) : Option Json :=
  match j with
  | .object ms => member? name ms
  | _ => none

/-- The text that a document is. -/
def text? : Json → Option Text
  | .string t => some t
  | _ => none

/-- The natural number that a document is. -/
def nat? : Json → Option Nat
  | .integer i => if 0 ≤ i then some i.natAbs else none
  | _ => none

end Json

namespace Datum

/-- The integer that a text writes. -/
def readInt? : Text → Option Int
  | '-' :: r => if Text.isNumeral r then some (-(Text.numeralValue r : Int)) else none
  | r => if Text.isNumeral r then some (Text.numeralValue r) else none

/-- The bytes that pairs of hexadecimal digits write. -/
def readHex? : Text → Option Bytes
  | [] => some []
  | [_] => none
  | a :: b :: r => do
    let x ← Json.hexValue? (UInt8.ofNat a.toNat)
    let y ← Json.hexValue? (UInt8.ofNat b.toNat)
    some (UInt8.ofNat (16 * x + y) :: (← readHex? r))

/-- A datum named by a word. -/
def special? (name : Text) : Option Datum :=
  if name = "function".toList then some .function
  else if name = "thread".toList then some .thread
  else if name = "userdata".toList then some .userdata
  else if name = "callable".toList then some .callable
  else if name = "cycle".toList then some .cycle
  else none

mutual

/-- The datum that a document describes. -/
def ofJson? : Json → Option Datum
  | .null => some .nil
  | .bool b => some (.bool b)
  | .string t => some (.string (Utf8.encode t))
  | .object ms => ofMembers? ms
  | _ => none

/-- The datum that an object with a single member describes. -/
def ofMembers? : List (Text × Json) → Option Datum
  | [(name, .string t)] =>
    if name = "int".toList then (readInt? t).map .integer
    else if name = "float".toList then (Decimal.read? t).map .float
    else if name = "hex".toList then (readHex? t).map .string
    else if name = "special".toList then special? t
    else none
  | [(name, .array items)] =>
    if name = "list".toList then (ofItems? items).map .list
    else if name = "map".toList then
      match items with
      | [] => some (.entry none)
      | [.array [k, v]] => do some (.entry (some (← ofJson? k, ← ofJson? v)))
      | _ => none
    else none
  | _ => none

/-- The data that documents describe. -/
def ofItems? : List Json → Option (List Datum)
  | [] => some []
  | j :: js => do some ((← ofJson? j) :: (← ofItems? js))

end

end Datum

namespace Functions

/-- What an entry of a functions file does. -/
inductive Entry where
  | define (d : Definition)
  /-- Lets the file fail. -/
  | fail (message : Text)

/-- The entry that a document describes. -/
def Entry.ofJson? (j : Json) : Option Entry := do
  let kind ← (← j.get? "kind".toList).text?
  if kind = "const".toList then
    match ← j.get? "returns".toList with
    | .array items => some (.define (.const (← Datum.ofItems? items)))
    | _ => none
  else if kind = "join".toList then
    some (.define (.join (← (← j.get? "separator".toList).text?)))
  else if kind = "upper".toList then some (.define .upper)
  else if kind = "len".toList then some (.define .length)
  else if kind = "nargs".toList then some (.define .argumentCount)
  else if kind = "args".toList then some (.define .arguments)
  else if kind = "arg".toList then some (.define (.argument (← (← j.get? "n".toList).nat?)))
  else if kind = "number".toList then some (.define .number)
  else if kind = "equals".toList then
    some (.define (.equals (← (← j.get? "value".toList).text?)))
  else if kind = "count".toList then some (.define .count)
  else if kind = "raise".toList then
    some (.define (.raise (← (← j.get? "message".toList).text?)))
  else if kind = "value".toList then
    some (.define (.value (← Datum.ofJson? (← j.get? "value".toList))))
  else if kind = "load_error".toList then some (.fail (← (← j.get? "message".toList).text?))
  else none

/-- The name under which failures of the file itself are reported. -/
def fileName : Text := "functions".toList

/-- A failure of the file itself. -/
def loadError (message : Text) : RenderError := .functionFailure fileName message

/-- The definitions of the members of a functions file. -/
def ofMembers : List (Text × Json) → Except RenderError Functions
  | [] => .ok []
  | (name, j) :: r =>
    match Entry.ofJson? j with
    | some (.define d) => do .ok ((name, d) :: (← ofMembers r))
    | some (.fail m) => .error (loadError (Definition.raised m))
    | none => .error (loadError ("malformed definition of ".toList ++ name))

/-- The functions that a document defines. -/
def ofJson : Json → Except RenderError Functions
  | .object ms => ofMembers ms
  | _ => .error (loadError "expected an object".toList)

/-- The functions that a functions file defines; a blank one defines none. -/
def load (source : Bytes) : Except RenderError Functions :=
  if source.all Json.isSpace then .ok []
  else
    match Json.read source with
    | .ok j => ofJson j
    | .error f => .error (loadError (f.message source))

/-- Functions files as JSON objects; no counter has been called when one is loaded. -/
def loader : Loader Counters where
  load source := (load (Utf8.encode source)).map fun fs => ⟨fs.host, []⟩
  idle := []

end Functions
end MailMerge
