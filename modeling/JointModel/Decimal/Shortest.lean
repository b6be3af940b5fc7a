/-!
# Shortest decimals

A finite double other than zero is `significand * 2 ^ exponent`.  The reals
that round to it form an interval, whose ends belong to it exactly when the
significand is even.  `Binary.shortest` is the decimal with the fewest digits
in that interval, the nearest one if there are two, and the larger one if both
are equally near.

Everything is computed on natural numbers.  The value and the ends of its
interval are brought to a common denominator, and the decimal grids are tried
from the coarsest one on: on each grid only the two neighbours of the value
can be hits.
-/

namespace JointModel.Decimal

/-- The positive number `significand * 2 ^ exponent` as a double stores it. -/
structure Binary where
  significand : Nat
  exponent : Int
  /-- The double below lies only half as far away as the one above. -/
  narrowBelow : Bool
deriving DecidableEq, Repr

/-- The decimal number `digits * 10 ^ exponent`. -/
structure Number where
  digits : Nat
  exponent : Int
deriving DecidableEq, Repr

/-- A number and the ends of the interval of reals that round to it, as
multiples of `1 / unit`. -/
structure Interval where
  value : Nat
  low : Nat
  high : Nat
  unit : Nat
  /-- The ends round to the number as well. -/
  closed : Bool
deriving DecidableEq, Repr

/-- The reals that round to `b`.  The ends are the midpoints between `b` and
the doubles next to it. -/
def Binary.interval (b : Binary) : Interval :=
  let shift := b.exponent - 2
  let scale := Nat.pow 2 shift.toNat
  { value := 4 * b.significand * scale
    low := (4 * b.significand - if b.narrowBelow then 1 else 2) * scale
    high := (4 * b.significand + 2) * scale
    unit := Nat.pow 2 (-shift).toNat
    closed := b.significand % 2 == 0 }

namespace Interval

/-- The interval in multiples of `10 ^ exponent / unit`. -/
def onGrid (i : Interval) (exponent : Int) : Interval :=
  let up := Nat.pow 10 (-exponent).toNat
  { i with
    value := i.value * up
    low := i.low * up
    high := i.high * up
    unit := i.unit * Nat.pow 10 exponent.toNat }

/-- The integer `n` lies in the interval. -/
def holds (i : Interval) (n : Nat) : Bool :=
  if i.closed then i.low ≤ n * i.unit && n * i.unit ≤ i.high
  else i.low < n * i.unit && n * i.unit < i.high

/-- The integer of the interval that is nearest to its value, the larger one
of two that are equally near.  Only the two neighbours of the value are
looked at. -/
def nearest? (i : Interval) : Option Nat :=
  let below := i.value / i.unit
  let rest := i.value % i.unit
  match i.holds below, i.holds (below + 1) with
  | true, true => if i.unit ≤ 2 * rest then some (below + 1) else some below
  | true, false => some below
  | false, true => some (below + 1)
  | false, false => none

/-- The greatest `e` with `10 ^ e ≤ value`. -/
def magnitude (i : Interval) : Int :=
  if i.unit ≤ i.value then ((Nat.toDigits 10 (i.value / i.unit)).length : Int) - 1
  else -((Nat.toDigits 10 ((i.unit - 1) / i.value)).length : Int)

end Interval

/-- The number of grids that are tried.  Seventeen digits tell all doubles
apart, and the first grid lies above the leading digit. -/
def gridCount : Nat := 18

/-- The shortest decimal that rounds to `b`. -/
def Binary.shortest (b : Binary) : Number :=
  let i := b.interval
  let top := i.magnitude + 1
  let hit (n : Nat) : Option Number :=
    (i.onGrid (top - n)).nearest?.map (⟨·, top - n⟩)
  ((List.range gridCount).findSome? hit).getD ⟨b.significand, 0⟩

example : (Binary.mk 1 (-1074) false).shortest = ⟨5, -324⟩ := by decide +kernel
example : (Binary.mk 2 (-1074) false).shortest = ⟨1, -323⟩ := by decide +kernel
example : (Binary.mk 4503599627370496 (-52) true).shortest = ⟨1, 0⟩ := by decide +kernel
example : (Binary.mk 5960464477539062 24 false).shortest = ⟨1, 23⟩ := by decide +kernel

end JointModel.Decimal
