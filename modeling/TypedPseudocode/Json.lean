import TypedPseudocode.Binary64

/-!
JSON values.

Integers and doubles are different values.  An object lists its members in the
order of the text, repetitions included, so what a repetition means is left to
whoever reads the object.
-/

namespace TypedPseudocode

inductive Json where
  | null
  | bool (value : Bool)
  | int (value : Int)
  | double (value : Binary64)
  | str (text : String)
  | arr (elements : List Json)
  | obj (members : List (String × Json))
  deriving Repr, Inhabited

end TypedPseudocode
