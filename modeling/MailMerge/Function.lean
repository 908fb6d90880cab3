import MailMerge.Function.Datum
import MailMerge.Render

/-!
User functions, each of one of a few kinds. The only state they have is how often each counter was
called; it lives as long as the functions do.
-/

namespace MailMerge

/-- What a name stands for among user functions. -/
inductive Definition where
  /-- Returns the first of the given data, nil if there is none. -/
  | const (returns : List Datum)
  /-- Joins its arguments. -/
  | join (separator : Text)
  /-- Turns the ASCII letters of its first argument into capitals. -/
  | upper
  /-- Counts the bytes of its first argument. -/
  | length
  /-- Counts its arguments. -/
  | argumentCount
  /-- Lists its arguments. -/
  | arguments
  /-- Returns one of its arguments, counted from 1. -/
  | argument (n : Nat)
  /-- Reads its first argument as a number. -/
  | number
  /-- Tells whether its first argument is the given text. -/
  | equals (t : Text)
  /-- Counts its calls. -/
  | count
  /-- Fails. -/
  | raise (message : Text)
  /-- No function, but a value. Only if that is a function itself can it be called. -/
  | value (d : Datum)
deriving Inhabited

/-- Named definitions. -/
abbrev Functions := List (Text × Definition)

/-- How often counters were called. -/
abbrev Counters := List (Text × Nat)

namespace Counters

/-- How often the function `name` was called. -/
def get (cs : Counters) (name : Text) : Nat := (cs.lookup name).getD 0

/-- One more call of the function `name`. -/
def bump (cs : Counters) (name : Text) : Counters :=
  (name, cs.get name + 1) :: cs.filter (·.1 ≠ name)

end Counters

namespace Definition

/-- The first argument, or the empty text. -/
def first (as : List Text) : Text := as.headD []

/-- Whether a character is a blank around a number. -/
def isSpace (c : Char) : Bool := c == ' ' || ('\t' ≤ c && c ≤ '\r')

/-- Whether a text consists of characters that decimal numbers are written with. -/
def isDecimal (t : Text) : Bool :=
  t.all fun c => c.isDigit || c == '.' || c == '+' || c == '-' || c == 'e' || c == 'E'

/-- The number that an argument writes, with blanks around it allowed. -/
def readNumber? (t : Text) : Option Float :=
  let t := ((t.dropWhile isSpace).reverse.dropWhile isSpace).reverse
  if isDecimal t then (Decimal.read? t).map (· + 0.0) else none

/-- The message of an error raised by a function itself. -/
def raised (message : Text) : Text := "runtime error: ".toList ++ message

/-- What a function without state returns. -/
def run (as : List Text) : Definition → Except Text Datum
  | .const returns => .ok (returns.headD .nil)
  | .join separator => .ok (.string (Utf8.encode (Text.join separator as)))
  | .upper => .ok (.string (Utf8.encode ((first as).map Char.toUpper)))
  | .length => .ok (.integer (Utf8.size (first as)))
  | .argumentCount => .ok (.integer as.length)
  | .arguments => .ok (.list (as.map fun a => .string (Utf8.encode a)))
  | .argument n =>
    match n with
    | 0 => .ok .nil
    | k + 1 => .ok ((as[k]?).elim .nil fun a => .string (Utf8.encode a))
  | .number =>
    match as.head?.bind readNumber? with
    | some x => .ok (.float x)
    | none => .error (raised "not a number".toList)
  | .equals t => .ok (.bool (as.head? = some t))
  | .raise m => .error (raised m)
  | .count => .ok .nil
  | .value _ => .ok .nil

/-- Whether a definition can be called. -/
def isFunction : Definition → Bool
  | .value .function => true
  | .value _ => false
  | _ => true

end Definition

namespace Functions

/-- Calls the function `name`. -/
def call (fs : Functions) (name : Text) (as : List Text) (cs : Counters) :
    Except RenderError Value × Counters :=
  match fs.lookup name with
  | none => (.error (.unknownFunction name), cs)
  | some d =>
    if d.isFunction then
      match d with
      | .count => ((Datum.integer (cs.get name + 1)).toValue.mapError (.functionFailure name),
          cs.bump name)
      | d => (((d.run as).bind Datum.toValue).mapError (.functionFailure name), cs)
    else (.error (.unknownFunction name), cs)

/-- User functions as templates call them. -/
def host (fs : Functions) : Host Counters := ⟨fs.call⟩

end Functions

/-- Renders a template against a record, without user functions. -/
def renderRecord (source : Text) (record : Bytes) : Except (TemplateError ⊕ RenderError) Text :=
  match Template.parse source with
  | .error e => .error (.inl e)
  | .ok t => ((t.render (Context.ofRecord (σ := Unit) record none)) ()).result.mapError .inr

end MailMerge
