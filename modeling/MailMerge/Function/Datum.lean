import MailMerge.Json
import MailMerge.Value

/-!
The data that user functions return, and the values that templates make of them. Tables become JSON:
those with a first element are arrays, all others objects.
-/

namespace MailMerge

/-- What a user function returns. -/
inductive Datum where
  | nil
  | bool (b : Bool)
  | string (bytes : Bytes)
  | integer (i : Int)
  | float (x : Float)
  /-- A table with the elements of a list. -/
  | list (items : List Datum)
  /-- A table with at most one entry. -/
  | entry (kv : Option (Datum × Datum))
  | function
  | thread
  | userdata
  /-- An empty table that can be called. -/
  | callable
  /-- A list whose only element is itself. -/
  | cycle
deriving Inhabited

namespace Datum

/-- Whether a datum is nil. -/
def isNil : Datum → Bool
  | .nil => true
  | _ => false

/-- The wording for a datum that no document can hold. -/
def unsupported (type : Text) : Text := "unsupported value type `".toList ++ type ++ ['\x60']

/-- The wording for a datum that is no name of a member. -/
def invalidName (type : Text) : Text :=
  "invalid type: ".toList ++ type ++ ", expected a string key".toList

/-- A float as messages show it, always with a point. -/
def showFloat (x : Float) : Text :=
  let t := Decimal.plain x
  if t.contains '.' || x.isNaN || x.isInf then t else t ++ ".0".toList

/-- The integer that a float equals, if it is one of 64 bits. -/
def integerOf? (x : Float) : Option Int :=
  if x.floor == x && -9223372036854775808.0 ≤ x && x < 9223372036854775808.0 then
    some x.toInt64.toInt
  else none

/-- The name of a member. -/
def memberName : Datum → Except Text Text
  | .string b =>
    match Utf8.decode? b with
    | some t => .ok t
    | none => .error (invalidName "byte array".toList)
  | .bool b => .error (invalidName ("boolean `".toList ++ Text.ofBool b ++ ['\x60']))
  | .integer i => .error (invalidName ("integer `".toList ++ Text.ofInt i ++ ['\x60']))
  | .float x =>
    match integerOf? x with
    | some i => .error (invalidName ("integer `".toList ++ Text.ofInt i ++ ['\x60']))
    | none => .error (invalidName ("floating point `".toList ++ showFloat x ++ ['\x60']))
  | .function => .error (unsupported "function".toList)
  | .thread => .error (unsupported "thread".toList)
  | .userdata => .error (unsupported "userdata".toList)
  | .cycle => .error (invalidName "sequence".toList)
  | .list (_ :: _) => .error (invalidName "sequence".toList)
  | .nil => .error (invalidName "unit value".toList)
  | _ => .error (invalidName "map".toList)

/-- Whether an entry with this key is the first element of a list. -/
def isFirst : Datum → Bool
  | .integer i => i == 1
  | .float x => x == 1.0
  | _ => false

mutual

/-- The document that a datum writes. -/
def toJson : Datum → Except Text Json
  | .nil => .ok .null
  | .bool b => .ok (.bool b)
  | .string b =>
    match Utf8.decode? b with
    | some t => .ok (.string t)
    | none => .error "invalid type: byte array, expected any valid JSON value".toList
  | .integer i => .ok (.integer i)
  | .float x => .ok (if x.isNaN || x.isInf then .null else .real x)
  | .list items =>
    if items.all isNil then .ok (.object []) else (elements items).map .array
  | .entry none => .ok (.object [])
  | .entry (some (k, v)) =>
    if v.isNil then .ok (.object [])
    else if k.isFirst then do .ok (.array [← v.toJson])
    else do
      let name ← k.memberName
      .ok (.object [(name, ← v.toJson)])
  | .function => .error (unsupported "function".toList)
  | .thread => .error (unsupported "thread".toList)
  | .userdata => .error (unsupported "userdata".toList)
  | .callable => .ok (.object [])
  | .cycle => .error "recursive table detected".toList

/-- The documents of the elements of a list, which ends at the first nil. -/
def elements : List Datum → Except Text (List Json)
  | [] => .ok []
  | d :: ds =>
    if d.isNil then .ok []
    else do
      let v ← d.toJson
      .ok (v :: (← elements ds))

end

/-- The largest integer up to which floats hold every integer. -/
def exactLimit : Nat := 9007199254740991

/-- An integer as a float, if none in its place is left out. -/
def exactFloat? (i : Int) : Option Float :=
  if i.natAbs ≤ exactLimit then
    some (if i < 0 then -(Float.ofNat i.natAbs) else Float.ofNat i.natAbs)
  else none

/-- A table as a value. -/
def ofTable (d : Datum) : Except Text Value :=
  match d.toJson with
  | .ok (.array items) => .ok (.array (Utf8.encode (Json.write (.array items))))
  | .ok j => .ok (.object (Utf8.encode j.write))
  | .error m => .error ("deserialize error: ".toList ++ m)

/-- The value that templates make of a returned datum. -/
def toValue (d : Datum) : Except Text Value :=
  match d with
  | .nil => .ok (.string [])
  | .bool b => .ok (.bool b)
  | .string b => .ok (.string (Utf8.decodeLossy b))
  | .integer i =>
    match exactFloat? i with
    | some x => .ok (.number x)
    | none => .error ("integer ".toList ++ Text.ofInt i ++ " is too large".toList)
  | .float x => .ok (.number x)
  | .function => .ok (.string "function".toList)
  | .thread => .ok (.string "thread".toList)
  | .userdata => .ok (.string "userdata".toList)
  | d => d.ofTable

end Datum
end MailMerge
