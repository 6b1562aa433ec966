import TypedPseudocode.Json.Number
import TypedPseudocode.Json.Quoted

/-!
JSON values as text.

`compact` writes no white space at all.  `pretty` starts a new line, indented
by two more blanks, for every element and every member, and keeps empty arrays
and objects on one line.  Each writer puts its text in front of the characters
that follow it.
-/

namespace TypedPseudocode.Json

def openBrace : Char := '\x7b'

def closeBrace : Char := '\x7d'

def writeQuoted (text : String) (rest : List Char) : List Char :=
  '"' :: (Quoted.escape text.toList ++ '"' :: rest)

def writeWord (word : String) (rest : List Char) : List Char := word.toList ++ rest

/-! ## Compact text -/

mutual

def write : Json → List Char → List Char
  | .null, rest => writeWord "null" rest
  | .bool true, rest => writeWord "true" rest
  | .bool false, rest => writeWord "false" rest
  | .int n, rest => intText n ++ rest
  | .double x, rest => doubleLayout.write x ++ rest
  | .str text, rest => writeQuoted text rest
  | .arr [], rest => '[' :: ']' :: rest
  | .arr (v :: vs), rest => '[' :: write v (writeElements vs rest)
  | .obj [], rest => openBrace :: closeBrace :: rest
  | .obj ((key, v) :: ms), rest =>
      openBrace :: writeQuoted key (':' :: write v (writeMembers ms rest))

def writeElements : List Json → List Char → List Char
  | [], rest => ']' :: rest
  | v :: vs, rest => ',' :: write v (writeElements vs rest)

def writeMembers : List (String × Json) → List Char → List Char
  | [], rest => closeBrace :: rest
  | (key, v) :: ms, rest =>
      ',' :: writeQuoted key (':' :: write v (writeMembers ms rest))

end

def compact (v : Json) : String := String.ofList (v.write [])

/-! ## Indented text -/

def newLine (indent : Nat) (rest : List Char) : List Char :=
  '\n' :: (List.replicate (2 * indent) ' ' ++ rest)

mutual

def writePretty (indent : Nat) : Json → List Char → List Char
  | .arr (v :: vs), rest =>
      '[' :: newLine (indent + 1)
        (writePretty (indent + 1) v (writePrettyElements indent vs rest))
  | .obj ((key, v) :: ms), rest =>
      openBrace :: newLine (indent + 1)
        (writeQuoted key (':' :: ' ' ::
          writePretty (indent + 1) v (writePrettyMembers indent ms rest)))
  | v, rest => write v rest

def writePrettyElements (indent : Nat) : List Json → List Char → List Char
  | [], rest => newLine indent (']' :: rest)
  | v :: vs, rest =>
      ',' :: newLine (indent + 1)
        (writePretty (indent + 1) v (writePrettyElements indent vs rest))

def writePrettyMembers (indent : Nat) : List (String × Json) → List Char → List Char
  | [], rest => newLine indent (closeBrace :: rest)
  | (key, v) :: ms, rest =>
      ',' :: newLine (indent + 1)
        (writeQuoted key (':' :: ' ' ::
          writePretty (indent + 1) v (writePrettyMembers indent ms rest)))

end

def pretty (v : Json) : String := String.ofList (v.writePretty 0 [])

end TypedPseudocode.Json
