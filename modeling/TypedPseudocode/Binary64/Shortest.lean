import TypedPseudocode.Binary64

/-!
The shortest decimal that stands for a double.

Every double owns the interval of reals that round to it.  Among the decimals
in that interval the one with the fewest digits is taken, and of several with
that many digits the nearest one.
-/

namespace TypedPseudocode.Binary64

structure Decimal where
  digits : Nat
  power : Int
  deriving DecidableEq, Repr

/--
The interval of a double, by its ends and its middle in a common unit.  The
ends belong to the interval exactly when the significand is even.
-/
structure Interval where
  low : Nat
  middle : Nat
  high : Nat
  unit : Nat
  closed : Bool

/-- Below a power of two the doubles lie twice as dense as above it. -/
def interval (x : Binary64) : Interval :=
  let quarter := x.exponent - 2
  let factor := twoTo quarter.toNat
  let below := if x.significand = twoTo 52 ∧ minExponent < x.exponent then 1 else 2
  { low := (4 * x.significand - below) * factor
    middle := 4 * x.significand * factor
    high := (4 * x.significand + 2) * factor
    unit := twoTo (-quarter).toNat
    closed := x.significand % 2 = 0 }

namespace Interval

def holds (i : Interval) (stretch width digits : Nat) : Bool :=
  if i.closed then
    decide (i.low * stretch ≤ digits * width) && decide (digits * width ≤ i.high * stretch)
  else
    decide (i.low * stretch < digits * width) && decide (digits * width < i.high * stretch)

def onGrid (i : Interval) (power : Int) : Option Nat :=
  let stretch := tenTo (-power).toNat
  let width := i.unit * tenTo power.toNat
  let floor := i.middle * stretch / width
  match i.holds stretch width floor, i.holds stretch width (floor + 1) with
  | true, true =>
      let below := i.middle * stretch - floor * width
      let above := (floor + 1) * width - i.middle * stretch
      if below < above ∨ (below = above ∧ floor % 2 = 0) then some floor else some (floor + 1)
  | true, false => some floor
  | false, true => some (floor + 1)
  | false, false => none

end Interval

def reaches (i : Interval) (power : Int) : Bool :=
  i.unit * tenTo power.toNat ≤ i.middle * tenTo (-power).toNat

def leadingPower (x : Binary64) : Int :=
  let i := x.interval
  let estimate := ((Nat.log2 x.significand : Int) + x.exponent) * 30103 / 100000
  if reaches i (estimate + 1) then estimate + 1
  else if reaches i estimate then estimate
  else estimate - 1

def Decimal.normalize (d : Decimal) : Nat → Decimal
  | 0 => d
  | fuel + 1 =>
      if d.digits ≠ 0 ∧ d.digits % 10 = 0 then
        Decimal.normalize ⟨d.digits / 10, d.power + 1⟩ fuel
      else d

/-- Seventeen digits tell any two doubles apart, so the search never runs out. -/
def maxDigits : Nat := 17

def shortest (x : Binary64) : Decimal :=
  if x.isZero then ⟨0, 0⟩
  else
    let lead := x.leadingPower
    let found := (List.range maxDigits).findSome? fun (more : Nat) =>
      let power := lead - more
      (x.interval.onGrid power).map fun digits => (⟨digits, power⟩ : Decimal)
    (found.getD ⟨0, 0⟩).normalize (maxDigits + 1)

end TypedPseudocode.Binary64
