import TypedPseudocode.Toml.Quoted
import TypedPseudocode.Toml.Scalar

/-!
TOML text as drafts.

Each reader takes its part off the front of the text and gives back the rest.
Arrays and inline tables nest to a bounded depth, headers and dotted keys may
lead deeper.  The number that bounds a nested reader's steps is the length of
the text, of which every step takes a character.
-/

namespace TypedPseudocode.Toml

/-! ## Values -/

def maxNesting : Nat := 127

mutual

/-- A value; `depth` is how many arrays and inline tables may still be opened. -/
def takeValue : Nat → Nat → List Char → Option (Value × List Char)
  | 0, _, _ => none
  | fuel + 1, depth, '[' :: rest =>
      match depth with
      | 0 => none
      | depth + 1 => do
          let (elements, rest) ← takeElements fuel depth rest
          return (.arr elements, rest)
  | fuel + 1, depth, '\x7b' :: rest =>
      match depth, skipSpaces rest with
      | 0, _ => none
      | _ + 1, '\x7d' :: rest => some (.table [], rest)
      | depth + 1, rest => do
          let (members, rest) ← takePairs fuel depth [] rest
          return (.table members, rest)
  | _ + 1, _, text =>
      if text.head? = some '"' ∨ text.head? = some '\'' then
        (takeString text).map fun taken => (.str (String.ofList taken.1), taken.2)
      else takeScalar text

def takeElements : Nat → Nat → List Char → Option (List Value × List Char)
  | 0, _, _ => none
  | fuel + 1, depth, text => do
      match ← skipLines false text with
      | ']' :: rest => return ([], rest)
      | text =>
          let (v, text) ← takeValue fuel depth text
          match ← skipLines false text with
          | ',' :: rest =>
              let (vs, rest) ← takeElements fuel depth rest
              return (v :: vs, rest)
          | ']' :: rest => return ([v], rest)
          | _ => none

def takePairs : Nat → Nat → List (String × Value) → List Char →
    Option (List (String × Value) × List Char)
  | 0, _, _, _ => none
  | fuel + 1, depth, members, text => do
      let ((path, key), text) ← takePath maxParts text
      match text with
      | '=' :: text =>
          let (v, text) ← takeValue fuel depth (skipSpaces text)
          let members ← Value.assign key v path members
          match skipSpaces text with
          | ',' :: rest => takePairs fuel depth members rest
          | '\x7d' :: rest => return (members, rest)
          | _ => none
      | _ => none

end

/-! ## Statements -/

def takeStatements : Nat → List String → Members → List Char → Option Members
  | 0, _, _, _ => none
  | fuel + 1, opened, root, text => do
      match ← skipLines false text with
      | [] => return root
      | '[' :: '[' :: text =>
          let ((path, key), text) ← takePath maxParts text
          match text with
          | ']' :: ']' :: text =>
              let root ← openItem path key root
              takeStatements fuel (path ++ [key]) root (← endLine text)
          | _ => none
      | '[' :: text =>
          let ((path, key), text) ← takePath maxParts text
          match text with
          | ']' :: text =>
              let root ← openTable path key root
              takeStatements fuel (path ++ [key]) root (← endLine text)
          | _ => none
      | text =>
          let ((path, key), text) ← takePath maxParts text
          match text with
          | '=' :: text =>
              let (v, text) ← takeValue (text.length + 1) maxNesting (skipSpaces text)
              let root ← assignUnder opened path key v root
              takeStatements fuel opened root (← endLine text)
          | _ => none

def skipMark : List Char → List Char
  | '\ufeff' :: text => text
  | text => text

def ofText? (text : String) : Option Json.Draft :=
  let chars := skipMark text.toList
  (takeStatements (chars.length + 1) [] [] chars).map fun root => .obj (nodeDrafts root)

end TypedPseudocode.Toml
