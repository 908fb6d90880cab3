import MailMerge.Text

/-!
Access patterns such as `user->address[0].city`: arrows and points separate names, and an index
keeps its brackets as a segment of its own.
-/

namespace MailMerge.Pattern

/-- Puts the segment read so far, last character first, before the others, if it is not empty. -/
def flush (current : Text) (rest : List Text) : List Text :=
  if current.isEmpty then rest else current.reverse :: rest

/-- The segments of a pattern of which `current`, last character first, is read. -/
def segmentsFrom : Text → Text → List Text
  | current, [] => flush current []
  | current, '-' :: '>' :: r => flush current (segmentsFrom [] r)
  | current, '.' :: r => flush current (segmentsFrom [] r)
  | current, '[' :: r => flush current (segmentsFrom ['['] r)
  | current, ']' :: r => flush (']' :: current) (segmentsFrom [] r)
  | current, c :: r => segmentsFrom (c :: current) r

/-- The segments of a pattern. Empty ones are left out. -/
def segments (pattern : Text) : List Text := segmentsFrom [] pattern

/-- One more than the largest index. -/
def indexLimit : Nat := UInt64.size

/-- The number that digits write, after an optional plus sign, if it is below the limit. -/
def index? (t : Text) : Option Nat :=
  let digits := ((Text.after? ['+'] t).getD t)
  if Text.isNumeral digits && Text.numeralValue digits < indexLimit then
    some (Text.numeralValue digits)
  else none

/-- The index in brackets that a segment is, if it is one. -/
def indexOf? (segment : Text) : Option Nat := do
  index? (← Text.before? [']'] (← Text.after? ['['] segment))

/-- Whether `rest` can follow a name in a pattern. -/
def isContinuation (rest : Text) : Bool :=
  rest.isEmpty || ['-', '>'].isPrefixOf rest || ['.'].isPrefixOf rest || ['['].isPrefixOf rest

/-- What follows the name `item` in a pattern that begins with it. -/
def afterItem? (pattern item : Text) : Option Text :=
  (Text.after? item pattern).filter isContinuation

end MailMerge.Pattern
