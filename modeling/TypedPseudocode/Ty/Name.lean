import TypedPseudocode.Text.Blank
import TypedPseudocode.Ty

/-!
The written names of types.

A name is one of the base names followed by one `[]` for each array level.
Reading is more generous than writing: it knows the short names `bool`, `float`
and `str`, and allows blanks around the name and before every `[]`.
-/

namespace TypedPseudocode.Ty

def name : Ty → String
  | .unknown => "unknown"
  | .void => "void"
  | .boolean => "boolean"
  | .int => "int"
  | .double => "double"
  | .string => "string"
  | .type => "type"
  | .array element => element.name ++ "[]"

instance : ToString Ty := ⟨name⟩

def ofBaseName? : String → Option Ty
  | "unknown" => some .unknown
  | "void" => some .void
  | "boolean" | "bool" => some .boolean
  | "int" => some .int
  | "double" | "float" => some .double
  | "string" | "str" => some .string
  | "type" => some .type
  | _ => none

/--
Take the array levels off a text that is given back to front.  Blanks after
the base name and after each level are skipped.
-/
def takeLevels : List Char → Nat × List Char
  | ']' :: '[' :: rest =>
      let (levels, base) := takeLevels rest
      (levels + 1, base)
  | c :: rest => if Text.isBlank c then takeLevels rest else (0, c :: rest)
  | [] => (0, [])

/-- Read a type name; the error is the base name that is not known. -/
def ofName (text : String) : Except String Ty :=
  let (levels, reversed) := takeLevels text.toList.reverse
  let base := String.ofList (Text.trimStart reversed.reverse)
  match ofBaseName? base with
  | some ty => .ok (ty.arrays levels)
  | none => .error base

def unknownNameMessage (base : String) : String := s!"unknown type name '{base}'"

/--
A type as documents state it: the name of the element type and a flag for the
outermost array level only.
-/
structure Published where
  name : String
  array : Bool
  deriving DecidableEq, Repr

def published : Ty → Published
  | .array element => ⟨element.name, true⟩
  | ty => ⟨ty.name, false⟩

end TypedPseudocode.Ty
