import TypedPseudocode.Binary64

/-!
Doubles read from decimal digits.

The digits are gathered into a significand of at most 64 bits; digits that no
longer fit only move the decimal point.  The significand is rounded to a double
and scaled once by a power of ten.  A number with up to fifteen digits and a
small exponent is thereby read as the nearest double; a longer one may differ
from it in the last place.  Where that matters, `nearest` takes all digits into
account.
-/

namespace TypedPseudocode.Binary64

def maxPowerOfTen : Nat := 308

def gather (significand : Nat) : List Nat → Nat × List Nat
  | [] => (significand, [])
  | digit :: rest =>
      if significand * 10 + digit < UInt64.size then gather (significand * 10 + digit) rest
      else (significand, digit :: rest)

def divideRepeatedly (x : Binary64) : Nat → Option Binary64
  | 0 => some x
  | times + 1 => do
      let y ← x.div (← powerOfTen maxPowerOfTen)
      divideRepeatedly y times

/--
Scale by a power of ten.  Below the range of the powers of ten the division is
done in steps; three steps leave nothing of any significand, so more are not
taken.
-/
def scale (x : Binary64) (power : Int) : Option Binary64 :=
  if x.isZero then some x
  else if 0 ≤ power then
    if power.toNat ≤ maxPowerOfTen then do x.mul (← powerOfTen power.toNat) else none
  else do
    let places := (-power).toNat
    let steps := (places - 1) / maxPowerOfTen
    let y ← divideRepeatedly x (min steps 3)
    y.div (← powerOfTen (places - steps * maxPowerOfTen))

def ofDecimal (negative : Bool) (whole fraction : List Nat) (exponent : Int) :
    Option Binary64 := do
  let (first, dropped) := gather 0 whole
  let (significand, unread) := gather first fraction
  let taken := fraction.length - unread.length
  let x ← ofNat negative significand
  x.scale ((dropped.length : Int) - (taken : Int) + exponent)

def farPlaces : Int := 400

def nearest (negative : Bool) (digits : Nat) (power : Int) : Option Binary64 :=
  let places := power + ((Nat.repr digits).length : Int)
  if digits = 0 ∨ places < -farPlaces then some (zero negative)
  else if farPlaces < places then none
  else ofRatio negative (digits * tenTo power.toNat) (tenTo (-power).toNat)

end TypedPseudocode.Binary64
