/-!
Finite doubles as exact numbers.

A double is a sign, a significand below `2 ^ 53` and a binary exponent, so its
arithmetic is arithmetic of natural numbers followed by one rounding to the
nearest representable value, halves going to the even neighbour.  Infinities
and NaN have no place here: a result beyond the largest double is `none`.
-/

namespace TypedPseudocode

/-- The number `significand * 2 ^ exponent`, with a sign that zero keeps too. -/
structure Binary64 where
  negative : Bool
  significand : Nat
  exponent : Int
  deriving DecidableEq, Repr

namespace Binary64

def minExponent : Int := -1074

def maxExponent : Int := 971

def zero (negative : Bool) : Binary64 := ⟨negative, 0, minExponent⟩

def isZero (x : Binary64) : Bool := x.significand == 0

def twoTo (n : Nat) : Nat := Nat.pow 2 n

def tenTo (n : Nat) : Nat := Nat.pow 10 n

def numerator (x : Binary64) : Nat := x.significand * twoTo x.exponent.toNat

def denominator (x : Binary64) : Nat := twoTo (-x.exponent).toNat

/-- The integer nearest to a quotient; a half goes to the even neighbour. -/
def roundDiv (num den : Nat) : Nat :=
  let quotient := num / den
  let twice := 2 * (num % den)
  if twice < den then quotient
  else if den < twice then quotient + 1
  else if quotient % 2 = 0 then quotient
  else quotient + 1

def inUnits (num den : Nat) (exponent : Int) : Nat × Nat :=
  (num * twoTo (-exponent).toNat, den * twoTo exponent.toNat)

def leadingBit (num den : Nat) : Int :=
  let estimate : Int := (Nat.log2 num : Int) - (Nat.log2 den : Int)
  let (a, b) := inUnits num den estimate
  if b ≤ a then estimate else estimate - 1

def ofRatio (negative : Bool) (num den : Nat) : Option Binary64 :=
  if num = 0 then some (zero negative)
  else
    let exponent := max (leadingBit num den - 52) minExponent
    let (a, b) := inUnits num den exponent
    let significand := roundDiv a b
    let x : Binary64 :=
      if significand = twoTo 53 then ⟨negative, twoTo 52, exponent + 1⟩
      else ⟨negative, significand, exponent⟩
    if maxExponent < x.exponent then none else some x

def mul (x y : Binary64) : Option Binary64 :=
  ofRatio (x.negative != y.negative) (x.numerator * y.numerator)
    (x.denominator * y.denominator)

def div (x y : Binary64) : Option Binary64 :=
  ofRatio (x.negative != y.negative) (x.numerator * y.denominator)
    (x.denominator * y.numerator)

def ofNat (negative : Bool) (n : Nat) : Option Binary64 := ofRatio negative n 1

def powerOfTen (power : Nat) : Option Binary64 := ofNat false (tenTo power)

end Binary64

end TypedPseudocode
