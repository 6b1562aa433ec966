import TypedPseudocode.Json.Number
import TypedPseudocode.Json.Quoted
import TypedPseudocode.Toml
import TypedPseudocode.Toml.Moment

/-!
Booleans, numbers, dates and times in TOML text.

They are the words of the format: each ends where a character follows that no
word holds, except that a space may join a date and a time of day.
-/

namespace TypedPseudocode.Toml

/-! ## Numbers -/

/-- Remove the underscores that stand between two digits; others stay and spoil the number. -/
def joinDigits (isDigit : Char → Bool) : List Char → List Char
  | a :: '_' :: b :: rest =>
      if isDigit a && isDigit b then a :: joinDigits isDigit (b :: rest)
      else a :: '_' :: joinDigits isDigit (b :: rest)
  | a :: rest => a :: joinDigits isDigit rest
  | [] => []

def inRange (n : Int) : Option Value :=
  if Json.Numeral.minInt ≤ n ∧ n ≤ Json.Numeral.maxInt then some (.int n) else none

def radix? (base : Nat) (digits : List Char) : Option Value := do
  let values ← (joinDigits Char.isAlphanum digits).mapM Json.Quoted.hexValue?
  let magnitude : Nat := values.foldl (fun n d => base * n + d) 0
  if values ≠ [] ∧ values.all (· < base) then inRange magnitude else none

def whole? (n : Json.Numeral) : Option Value :=
  let magnitude : Int := Json.ofDigits n.whole
  inRange (if n.negative then -magnitude else magnitude)

/-- A float too large for a double is refused, unless it is negative. -/
def float? (n : Json.Numeral) : Option Value :=
  let fraction := n.fraction.getD []
  let digits := Json.ofDigits (n.whole ++ fraction)
  match Binary64.nearest n.negative digits (n.exponent.getD 0 - (fraction.length : Int)) with
  | some number => some (.float (some number))
  | none => if n.negative then some (.float none) else none

def decimal? (text : List Char) : Option Value := do
  let n ← Json.Numeral.ofText? (joinDigits Char.isDigit text)
  if n.fraction.isNone ∧ n.exponent.isNone then whole? n else float? n

/-! ## Words -/

def isWord (c : Char) : Bool := c.isAlphanum || c ∈ ['_', '-', '+', '.', ':']

def signed? : List Char → Option Value
  | ['i', 'n', 'f'] => some (.float none)
  | ['n', 'a', 'n'] => some (.float none)
  | text => decimal? text

def word? : List Char → Option Value
  | ['t', 'r', 'u', 'e'] => some (.bool true)
  | ['f', 'a', 'l', 's', 'e'] => some (.bool false)
  | '0' :: 'x' :: digits => radix? 16 digits
  | '0' :: 'o' :: digits => radix? 8 digits
  | '0' :: 'b' :: digits => radix? 2 digits
  | '+' :: '-' :: _ => none
  | '+' :: text => signed? text
  | ['-', 'i', 'n', 'f'] => some (.float none)
  | ['-', 'n', 'a', 'n'] => some (.float none)
  | text => if isMoment text then some (.moment (String.ofList text)) else signed? text

def takeWord (text : List Char) : Option (Value × List Char) :=
  (word? (text.takeWhile isWord)).map fun v => (v, text.dropWhile isWord)

def takeScalar (text : List Char) : Option (Value × List Char) :=
  let first := text.takeWhile isWord
  match text.dropWhile isWord with
  | ' ' :: rest =>
      let second := rest.takeWhile isWord
      if isDate first ∧ (second.head?.any Char.isDigit) then
        if isZonedClock second then
          some (.moment (String.ofList (first ++ ' ' :: second)), rest.dropWhile isWord)
        else none
      else takeWord text
  | _ => takeWord text

end TypedPseudocode.Toml
