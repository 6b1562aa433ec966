import TypedPseudocode.Binary64.Decimal
import TypedPseudocode.Binary64.Shortest
import TypedPseudocode.Json

/-!
Numbers in JSON text.

A numeral without fraction and exponent that fits 64 signed bits is an
integer.  Every other numeral is a double, negative zero and longer integers
included.  Doubles are written with the fewest digits that stand for them.
-/

namespace TypedPseudocode.Json

/-! ## Reading -/

def digit? (c : Char) : Option Nat :=
  if '0' ≤ c ∧ c ≤ '9' then some (c.toNat - '0'.toNat) else none

def takeDigits : List Char → List Nat × List Char
  | [] => ([], [])
  | c :: rest =>
      match digit? c with
      | some d =>
          let (digits, after) := takeDigits rest
          (d :: digits, after)
      | none => ([], c :: rest)

def ofDigits (digits : List Nat) : Nat := digits.foldl (fun n d => 10 * n + d) 0

structure Numeral where
  negative : Bool
  whole : List Nat
  fraction : Option (List Nat)
  exponent : Option Int
  deriving Repr

namespace Numeral

def readSign : List Char → Bool × List Char
  | '-' :: rest => (true, rest)
  | rest => (false, rest)

/-- A single zero, or digits that do not start with zero. -/
def readWhole (text : List Char) : Option (List Nat × List Char) :=
  match takeDigits text with
  | ([], _) => none
  | (0 :: _ :: _, _) => none
  | read => some read

def readFraction : List Char → Option (Option (List Nat) × List Char)
  | '.' :: rest =>
      match takeDigits rest with
      | ([], _) => none
      | (digits, after) => some (some digits, after)
  | rest => some (none, rest)

def readPower (negative : Bool) (text : List Char) : Option (Option Int × List Char) :=
  match takeDigits text with
  | ([], _) => none
  | (digits, after) =>
      let power : Int := ofDigits digits
      some (some (if negative then -power else power), after)

def readExponent : List Char → Option (Option Int × List Char)
  | c :: rest =>
      if c = 'e' ∨ c = 'E' then
        match rest with
        | '+' :: rest => readPower false rest
        | '-' :: rest => readPower true rest
        | rest => readPower false rest
      else some (none, c :: rest)
  | [] => some (none, [])

def ofText? (text : List Char) : Option Numeral := do
  let (negative, text) := readSign text
  let (whole, text) ← readWhole text
  let (fraction, text) ← readFraction text
  let (exponent, text) ← readExponent text
  if text.isEmpty then some ⟨negative, whole, fraction, exponent⟩ else none

def maxInt : Int := 9223372036854775807

def minInt : Int := -9223372036854775808

def toDouble? (n : Numeral) : Option Json :=
  (Binary64.ofDecimal n.negative n.whole (n.fraction.getD []) (n.exponent.getD 0)).map .double

def toJson? (n : Numeral) : Option Json :=
  if n.fraction.isSome || n.exponent.isSome then n.toDouble?
  else
    let magnitude : Int := ofDigits n.whole
    let value := if n.negative then -magnitude else magnitude
    if n.negative && magnitude == 0 then n.toDouble?
    else if minInt ≤ value ∧ value ≤ maxInt then some (.int value)
    else n.toDouble?

end Numeral

/-! ## Writing -/

structure DoubleLayout where
  leastPlain : Int
  greatestPlain : Int
  risingMark : String
  fallingMark : String

/--
Plain form from `0.00001` up to sixteen places before the point, always with a
fraction; otherwise the exponent carries its sign.
-/
def doubleLayout : DoubleLayout := ⟨-5, 15, "e+", "e-"⟩

namespace DoubleLayout

def plain (digits : List Char) (lead : Int) : List Char :=
  if lead < 0 then
    '0' :: '.' :: (List.replicate ((-lead).toNat - 1) '0' ++ digits)
  else
    let places := lead.toNat + 1
    if digits.length ≤ places then
      digits ++ List.replicate (places - digits.length) '0' ++ ['.', '0']
    else digits.take places ++ '.' :: digits.drop places

def scientific (layout : DoubleLayout) (digits : List Char) (lead : Int) : List Char :=
  let head := match digits with
    | first :: second :: rest => first :: '.' :: second :: rest
    | digits => digits
  let mark := if 0 ≤ lead then layout.risingMark else layout.fallingMark
  head ++ mark.toList ++ (Nat.repr lead.natAbs).toList

def magnitude (layout : DoubleLayout) (x : Binary64) : List Char :=
  let d := x.shortest
  let digits := (Nat.repr d.digits).toList
  let lead := d.power + (digits.length : Int) - 1
  if layout.leastPlain ≤ lead ∧ lead ≤ layout.greatestPlain then plain digits lead
  else layout.scientific digits lead

def write (layout : DoubleLayout) (x : Binary64) : List Char :=
  if x.negative then '-' :: layout.magnitude x else layout.magnitude x

end DoubleLayout

def intText (n : Int) : List Char :=
  if n < 0 then '-' :: (Nat.repr n.natAbs).toList else (Nat.repr n.natAbs).toList

end TypedPseudocode.Json
