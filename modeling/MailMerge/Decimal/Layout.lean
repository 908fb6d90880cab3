import MailMerge.Decimal.Shortest

/-!
How numbers are written. Three formats share the digits: the plain one never uses a power of ten,
the displayed one has two decimal places, and the JSON one uses a power of ten for very large and
very small numbers and keeps a point in every float.
-/

namespace MailMerge.Decimal

/-- Digits with a point before the last `places` of them, and a zero where nothing would precede
the point. -/
def withPoint (digits : Text) (places : Nat) : Text :=
  if places = 0 then digits
  else
    let padded := List.replicate (places + 1 - digits.length) '0' ++ digits
    padded.take (padded.length - places) ++ '.' :: padded.drop (padded.length - places)

/-- A decimal written without a power of ten. -/
def positional (d : Digits) : Text :=
  let digits := Text.ofNat d.digits
  if d.exponent < 0 then withPoint digits d.exponent.natAbs
  else digits ++ List.replicate d.exponent.toNat '0'

/-- Puts a minus sign before the text of a negative number. -/
def signed (negative : Bool) (t : Text) : Text := if negative then '-' :: t else t

/-- The words for values without digits, and otherwise `finite` of the absolute value. -/
def write (finite : Float → Text) (x : Float) : Text :=
  if x.isNaN then "NaN".toList
  else signed (isNegative x) (if x.isInf then "inf".toList else finite x.abs)

/-- The shortest decimal of a non-negative float; zero has the digit `0`. -/
def digitsOf (x : Float) (tie : Tie) : Digits :=
  let b := Binary.ofFloat x
  if b.significand = 0 then ⟨0, 0⟩ else b.shortest tie

/-- Full precision: the fewest digits that read back, never with a power of ten. -/
def plain : Float → Text := write fun x => positional (digitsOf x .up)

/-- As displayed in documents: exactly two places, a half going to the even neighbour. -/
def display : Float → Text := write fun x => withPoint (Text.ofNat ((Binary.ofFloat x).fixed 2)) 2

/-- One digit before the point, and a power of ten that carries its sign. -/
def scientific (d : Digits) : Text :=
  let digits := Text.ofNat d.digits
  let power : Int := d.exponent + (digits.length - 1)
  let mantissa := withPoint digits (digits.length - 1)
  mantissa ++ 'e' :: (if power < 0 then '-' else '+') :: Text.ofNat power.natAbs

/-- A finite float in JSON: positional from 10 ^ -5 up to below 10 ^ 16, with `.0` after an integer,
and with a power of ten outside. -/
def json (x : Float) : Text :=
  let d := digitsOf x.abs .even
  let power : Int := d.exponent + ((Text.ofNat d.digits).length - 1)
  signed (isNegative x)
    (if power < -5 ∨ 16 ≤ power then scientific d
     else if d.exponent < 0 then positional d
     else positional d ++ ".0".toList)

end MailMerge.Decimal
