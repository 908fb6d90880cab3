import MailMerge.Decimal.Layout
import MailMerge.Decimal.Reader
import MailMerge.RenderError
import MailMerge.Text.Blank
import MailMerge.Text.Utf8

/-!
The values that elements evaluate to. Arrays and objects are kept as the bytes that write them, so
that a loop or a further lookup can read them again.
-/

namespace MailMerge

/-- A value. -/
inductive Value where
  | bool (b : Bool)
  | string (t : Text)
  | number (x : Float)
  | array (raw : Bytes)
  | object (raw : Bytes)
deriving DecidableEq, Inhabited

namespace Value

/-- The kind of a value. -/
def kind : Value → Kind
  | .bool _ => .bool
  | .string _ => .string
  | .number _ => .number
  | .array _ => .array
  | .object _ => .object

/-- The text of a value, numbers in full precision. -/
def plain : Value → Text
  | .bool b => Text.ofBool b
  | .string t => t
  | .number x => Decimal.plain x
  | .array raw => Utf8.decodeLossy raw
  | .object raw => Utf8.decodeLossy raw

/-- The text of a value, numbers with two decimal places. -/
def display : Value → Text
  | .number x => Decimal.display x
  | v => v.plain

/-! ### Constants -/

/-- Resolves the escapes in the body of a string constant: a backslash stands before a quote, a
backslash, `n` for a line feed or `t` for a tab. -/
def unescape? : Text → Option Text
  | [] => some []
  | '\\' :: '"' :: r => (unescape? r).map ('"' :: ·)
  | '\\' :: '\\' :: r => (unescape? r).map ('\\' :: ·)
  | '\\' :: 'n' :: r => (unescape? r).map ('\n' :: ·)
  | '\\' :: 't' :: r => (unescape? r).map ('\t' :: ·)
  | '\\' :: _ => none
  | c :: r => (unescape? r).map (c :: ·)

/-- The value of a constant as templates write it. -/
def ofConstant? : Text → Option Value
  | '"' :: r => do some (.string (← unescape? (← Text.before? ['"'] r)))
  | t =>
    if t = "true".toList then some (.bool true)
    else if t = "false".toList then some (.bool false)
    else (Decimal.read? t).map .number

/-! ### Looked-up data -/

/-- The value of the given kind that `text` writes. -/
def coerce (text : Text) (kind : Kind) : Except RenderError Value :=
  match kind with
  | .string => .ok (.string text)
  | .bool =>
    if text = "true".toList then .ok (.bool true)
    else if text = "false".toList then .ok (.bool false)
    else .error (.coercion text .bool)
  | .number =>
    match Decimal.read? text.trim with
    | some x => .ok (.number x)
    | none => .error (.coercion text .number)
  | .array => .ok (.array (Utf8.encode text))
  | .object => .ok (.object (Utf8.encode text))
  | .missing => .error (.coercion text .missing)

/-! ### Comparison -/

/-- The order of two floats: a value that is no number is in no order with any. -/
def compareNumbers (x y : Float) : Option Ordering :=
  if x < y then some .lt else if x == y then some .eq else if y < x then some .gt else none

/-- The order of two values of one kind, false before true. -/
def order (a b : Value) : Except RenderError (Option Ordering) :=
  match a, b with
  | .bool x, .bool y => .ok (some (Ord.compare x y))
  | .string x, .string y => .ok (some (Text.compare x y))
  | .number x, .number y => .ok (compareNumbers x y)
  | .array _, .array _ => .error (.unsupportedComparison .array)
  | .object _, .object _ => .error (.unsupportedComparison .object)
  | a, b => .error (.incomparable a.kind b.kind)

/-- Whether a comparison of two values holds. Truth values can only be equal, and values in no order
are only ever different. -/
def satisfies (op : Comparison) (a b : Value) : Except RenderError Bool := do
  let o ← a.order b
  if a.kind = .bool ∧ op ≠ .equal then .error (.booleanComparison op)
  else .ok (match o with
    | some o => op.holds o
    | none => op == .notEqual)

end Value
end MailMerge
