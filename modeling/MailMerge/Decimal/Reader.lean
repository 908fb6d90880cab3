import MailMerge.Text

/-!
Reading a 64-bit float from decimal text: an optional sign, then digits with an optional point and
an optional power of ten, or one of the words for infinity and "not a number" in any case. The
result is the float nearest to the number written.
-/

namespace MailMerge.Decimal

/-- Positive infinity. -/
def infinity : Float := Float.ofBits 0x7FF0000000000000

/-- A value that is no number. -/
def notANumber : Float := Float.ofBits 0x7FF8000000000000

/-- The float nearest to `digits · 10 ^ exponent`. Numbers of at least 10 ^ 310 and below 10 ^ -330
are decided by their size alone. -/
def nearest (digits : Nat) (exponent : Int) : Float :=
  if digits = 0 then 0
  else
    let size : Int := (Nat.toDigits 10 digits).length + exponent
    if size > 310 then infinity
    else if size < -330 then 0
    else if exponent < 0 then Float.ofScientific digits true exponent.natAbs
    else Float.ofScientific digits false exponent.natAbs

/-- Splits a leading sign off; `true` stands for minus. -/
def sign : Text → Bool × Text
  | '-' :: r => (true, r)
  | '+' :: r => (false, r)
  | t => (false, t)

/-- The power of ten that `t` gives as `e`, an optional sign and digits; nothing means zero. -/
def exponent? : Text → Option Int
  | [] => some 0
  | c :: r =>
    if c = 'e' ∨ c = 'E' then
      let (negative, digits) := sign r
      if Text.isNumeral digits then
        some (if negative then -(Text.numeralValue digits : Int) else Text.numeralValue digits)
      else none
    else none

/-- The digits after a leading point, and what follows them. -/
def fraction : Text → Text × Text
  | '.' :: r => (r.takeWhile Char.isDigit, r.dropWhile Char.isDigit)
  | t => ([], t)

/-- A number without sign: at least one digit before or after the point. -/
def unsigned? (t : Text) : Option Float :=
  let whole := t.takeWhile Char.isDigit
  let (places, rest) := fraction (t.dropWhile Char.isDigit)
  if whole.isEmpty && places.isEmpty then none
  else (exponent? rest).map fun e =>
    nearest (Text.numeralValue (whole ++ places)) (e - places.length)

/-- The words for values that have no digits, in lower case. -/
def word? (t : Text) : Option Float :=
  let w := t.map Char.toLower
  if w = "inf".toList ∨ w = "infinity".toList then some infinity
  else if w = "nan".toList then some notANumber
  else none

/-- The float that `t` writes, if it writes one. -/
def read? (t : Text) : Option Float :=
  let (negative, rest) := sign t
  ((word? rest).or (unsigned? rest)).map fun x => if negative then -x else x

end MailMerge.Decimal
