/-!
Quoted strings in JSON text.

Writing escapes the quotation mark, the backslash and the control characters
and leaves every other character as it is.  Reading knows all escapes of the
format; two escapes that form a surrogate pair are one character, and a
surrogate on its own stands for no text, although it is well formed.
-/

namespace TypedPseudocode.Json.Quoted

/-! ## Writing -/

def hexDigit (n : Nat) : Char :=
  if n < 10 then Char.ofNat ('0'.toNat + n) else Char.ofNat ('a'.toNat + (n - 10))

def escapeChar (c : Char) : List Char :=
  if c = '"' then ['\\', '"']
  else if c = '\\' then ['\\', '\\']
  else if 0x20 ≤ c.toNat then [c]
  else if c = '\x08' then ['\\', 'b']
  else if c = '\t' then ['\\', 't']
  else if c = '\n' then ['\\', 'n']
  else if c = '\x0c' then ['\\', 'f']
  else if c = '\r' then ['\\', 'r']
  else ['\\', 'u', '0', '0', hexDigit (c.toNat / 16), hexDigit (c.toNat % 16)]

def escape (text : List Char) : List Char := text.flatMap escapeChar

/-! ## Reading -/

def hexValue? (c : Char) : Option Nat :=
  if '0' ≤ c ∧ c ≤ '9' then some (c.toNat - '0'.toNat)
  else if 'a' ≤ c ∧ c ≤ 'f' then some (c.toNat - 'a'.toNat + 10)
  else if 'A' ≤ c ∧ c ≤ 'F' then some (c.toNat - 'A'.toNat + 10)
  else none

def codeUnit? (a b c d : Char) : Option Nat := do
  let a ← hexValue? a
  let b ← hexValue? b
  let c ← hexValue? c
  let d ← hexValue? d
  return ((a * 16 + b) * 16 + c) * 16 + d

def isLeading (unit : Nat) : Bool := 0xd800 ≤ unit && unit ≤ 0xdbff

def isTrailing (unit : Nat) : Bool := 0xdc00 ≤ unit && unit ≤ 0xdfff

def joinPair (leading trailing : Nat) : Char :=
  Char.ofNat (0x10000 + (leading - 0xd800) * 0x400 + (trailing - 0xdc00))

def simpleEscape? (c : Char) : Option Char :=
  match c with
  | '"' => some '"'
  | '\\' => some '\\'
  | '/' => some '/'
  | 'b' => some '\x08'
  | 'f' => some '\x0c'
  | 'n' => some '\n'
  | 'r' => some '\r'
  | 't' => some '\t'
  | _ => none

/-- Whether every backslash starts an escape of the format, of a surrogate or not. -/
def isWellFormed : List Char → Bool
  | '\\' :: 'u' :: a :: b :: c :: d :: rest => (codeUnit? a b c d).isSome && isWellFormed rest
  | '\\' :: c :: rest => (simpleEscape? c).isSome && isWellFormed rest
  | c :: rest => c != '\\' && isWellFormed rest
  | [] => true

inductive Pending where
  | nothing
  | escape
  | digits (read : List Char)
  | trailingSlash (leading : Nat)
  | trailingMark (leading : Nat)
  | trailingDigits (leading : Nat) (read : List Char)

def stepDigits (done : List Char) : List Char → Option (List Char × Pending)
  | [a, b, c, d] => do
      let unit ← codeUnit? a b c d
      if isLeading unit then some (done, .trailingSlash unit)
      else if isTrailing unit then none
      else some (Char.ofNat unit :: done, .nothing)
  | read => some (done, .digits read)

def stepTrailing (done : List Char) (leading : Nat) :
    List Char → Option (List Char × Pending)
  | [a, b, c, d] => do
      let unit ← codeUnit? a b c d
      if isTrailing unit then some (joinPair leading unit :: done, .nothing) else none
  | read => some (done, .trailingDigits leading read)

/-- One character of the text; `done` is what has been read, back to front. -/
def step (done : List Char) : Pending → Char → Option (List Char × Pending)
  | .nothing, c => if c = '\\' then some (done, .escape) else some (c :: done, .nothing)
  | .escape, c =>
      if c = 'u' then some (done, .digits [])
      else (simpleEscape? c).map fun plain => (plain :: done, .nothing)
  | .digits read, c => stepDigits done (read ++ [c])
  | .trailingSlash leading, c => if c = '\\' then some (done, .trailingMark leading) else none
  | .trailingMark leading, c =>
      if c = 'u' then some (done, .trailingDigits leading []) else none
  | .trailingDigits leading read, c => stepTrailing done leading (read ++ [c])

def unescapeFrom (done : List Char) : Pending → List Char → Option (List Char)
  | .nothing, [] => some done.reverse
  | _, [] => none
  | pending, c :: rest =>
      match step done pending c with
      | some (done', pending') => unescapeFrom done' pending' rest
      | none => none

def unescape (raw : List Char) : Option (List Char) := unescapeFrom [] .nothing raw

end TypedPseudocode.Json.Quoted
