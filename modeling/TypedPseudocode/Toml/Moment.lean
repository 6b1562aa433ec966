import TypedPseudocode.Json.Number

/-!
Dates and times of day in TOML text, such as `1979-05-27`, `07:32:00.5` and
`1979-05-27T07:32:00-08:00`.

A month has up to 31 days, and a minute up to 61 seconds.  A date and a time
may be joined by a space or the letter `T`, and only then the distance to the
standard time may follow.
-/

namespace TypedPseudocode.Toml

def takeCount (least greatest : Nat) : List Char → Option (List Char)
  | a :: b :: rest => do
      let count := 10 * (← Json.digit? a) + (← Json.digit? b)
      if least ≤ count ∧ count ≤ greatest then some rest else none
  | _ => none

def takeMark (mark : Char) : List Char → Option (List Char)
  | c :: rest => if c = mark then some rest else none
  | [] => none

def takeDate (text : List Char) : Option (List Char) := do
  let text ← takeCount 0 99 text
  let text ← takeCount 0 99 text
  let text ← takeMark '-' text
  let text ← takeCount 1 12 text
  let text ← takeMark '-' text
  takeCount 1 31 text

def takeFraction : List Char → Option (List Char)
  | '.' :: rest =>
      match Json.takeDigits rest with
      | ([], _) => none
      | (_, rest) => some rest
  | text => some text

def takeClock (text : List Char) : Option (List Char) := do
  let text ← takeCount 0 23 text
  let text ← takeMark ':' text
  let text ← takeCount 0 59 text
  let text ← takeMark ':' text
  let text ← takeCount 0 60 text
  takeFraction text

def takeZone : List Char → Option (List Char)
  | [] => some []
  | c :: rest =>
      if c = 'Z' ∨ c = 'z' then some rest
      else if c = '+' ∨ c = '-' then do
        let text ← takeCount 0 23 rest
        let text ← takeMark ':' text
        takeCount 0 59 text
      else some (c :: rest)

def isDate (text : List Char) : Bool := takeDate text = some []

def isZonedClock (text : List Char) : Bool := (takeClock text).bind takeZone = some []

def isMoment (text : List Char) : Bool :=
  takeClock text = some [] ||
    match takeDate text with
    | some [] => true
    | some (c :: rest) => (c = 'T' || c = 't') && isZonedClock rest
    | none => false

end TypedPseudocode.Toml
