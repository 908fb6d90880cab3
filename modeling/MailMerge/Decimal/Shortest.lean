import MailMerge.Text

/-!
The decimal digits of a finite float, in exact arithmetic on natural numbers. A float is
`significand · 2 ^ exponent`; the reals that read back as it form an interval, closed if the
significand is even. Its shortest decimals are the points of the coarsest decimal grid with a point
in the interval, and of two such points the nearer one is taken.
-/

namespace MailMerge.Decimal

/-- A non-negative real of the form `significand · 2 ^ exponent`. -/
structure Binary where
  significand : Nat
  exponent : Int
deriving DecidableEq, Repr

/-- The sign bit of a float. -/
def isNegative (x : Float) : Bool := Nat.pow 2 63 ≤ x.toBits.toNat

/-- The absolute value of a finite float. -/
def Binary.ofFloat (x : Float) : Binary :=
  let fraction : Nat := x.toBits.toNat % Nat.pow 2 52
  let biased : Nat := x.toBits.toNat / Nat.pow 2 52 % Nat.pow 2 11
  if biased = 0 then ⟨fraction, -1074⟩ else ⟨fraction + Nat.pow 2 52, (biased : Int) - 1075⟩

/-- Which of two equally near decimals is taken. -/
inductive Tie where
  /-- The larger one. -/
  | up
  /-- The one whose last digit is even. -/
  | even
deriving DecidableEq, Repr

/-- `num / den` rounded to a natural number. -/
def roundDiv (num den : Nat) (tie : Tie) : Nat :=
  let q := num / den
  let twice := 2 * (num % den)
  if twice < den then q
  else if den < twice then q + 1
  else
    match tie with
    | .up => q + 1
    | .even => q + q % 2

/-- A decimal `digits · 10 ^ exponent`. -/
structure Digits where
  digits : Nat
  exponent : Int
deriving DecidableEq, Repr

/-- The same decimal without zeros at the end of its digits; `fuel` bounds how many are dropped. -/
def Digits.strip : Nat → Digits → Digits
  | 0, d => d
  | fuel + 1, d =>
    if d.digits % 10 = 0 ∧ d.digits ≠ 0 then strip fuel ⟨d.digits / 10, d.exponent + 1⟩ else d

/-- The reals that read back as a float, in quarters of a unit of its last binary place: the bounds,
the float itself, and whether the bounds belong to them. -/
structure Interval where
  low : Nat
  value : Nat
  high : Nat
  closed : Bool
deriving DecidableEq, Repr

/-- The interval of a positive float. Below a power of two the floats lie twice as close. -/
def Binary.interval (b : Binary) : Interval where
  low := if b.significand = Nat.pow 2 52 ∧ b.exponent ≠ -1074 then 4 * b.significand - 1
    else 4 * b.significand - 2
  value := 4 * b.significand
  high := 4 * b.significand + 2
  closed := b.significand % 2 = 0

/-- A decimal grid `10 ^ place`, measured in quarters of a binary unit: its step is `step / scale`.
-/
structure Grid where
  place : Int
  step : Nat
  scale : Nat

/-- The grid of the given decimal place for floats with last binary place `2 ^ exponent`. -/
def Grid.at (place exponent : Int) : Grid where
  place := place
  step := Nat.pow 10 place.toNat * Nat.pow 2 (2 - exponent).toNat
  scale := Nat.pow 10 (-place).toNat * Nat.pow 2 (exponent - 2).toNat

/-- Whether the `n`-th point of the grid lies in the interval. -/
def Interval.holds (i : Interval) (g : Grid) (n : Nat) : Bool :=
  if i.closed then i.low * g.scale ≤ n * g.step && n * g.step ≤ i.high * g.scale
  else i.low * g.scale < n * g.step && n * g.step < i.high * g.scale

/-- The point of the grid in the interval that is nearest to the float, if there is one. -/
def Interval.nearest? (i : Interval) (g : Grid) (tie : Tie) : Option Nat :=
  let below := i.value * g.scale / g.step
  match i.holds g below && 0 < below, i.holds g (below + 1) with
  | true, true => some (roundDiv (i.value * g.scale) g.step tie)
  | true, false => some below
  | false, true => some (below + 1)
  | false, false => none

/-- Looks for a point on ever finer grids, starting at `place`. -/
def Interval.search (i : Interval) (exponent : Int) (tie : Tie) : Nat → Int → Digits
  | 0, _ => ⟨0, 0⟩
  | fuel + 1, place =>
    match i.nearest? (Grid.at place exponent) tie with
    | some n => Digits.strip 20 ⟨n, place⟩
    | none => search i exponent tie fuel (place - 1)

/-- An integer `k` with `b < 10 ^ k`, at most two above the least such. -/
def Binary.magnitude (b : Binary) : Int :=
  (((b.significand.log2 : Int) + 1 + b.exponent) * 30103).fdiv 100000 + 1

/-- The shortest decimal that reads back as the positive float `b`. -/
def Binary.shortest (b : Binary) (tie : Tie) : Digits :=
  b.interval.search b.exponent tie 25 b.magnitude

/-- The number of hundredths (for `places = 2`) that is nearest to `b`, ties to even. -/
def Binary.fixed (b : Binary) (places : Nat) : Nat :=
  roundDiv (b.significand * Nat.pow 10 places * Nat.pow 2 b.exponent.toNat)
    (Nat.pow 2 (-b.exponent).toNat) .even

end MailMerge.Decimal
