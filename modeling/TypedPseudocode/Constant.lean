import TypedPseudocode.Json
import TypedPseudocode.Ty

/-!
Scalar constants: the values that literals hold, in source trees and in the
pseudocode alike.
-/

namespace TypedPseudocode

inductive Constant where
  | null
  | bool (value : Bool)
  | int (value : Int)
  | double (value : Binary64)
  | str (text : String)
  deriving DecidableEq, Repr

namespace Constant

def ty : Constant → Ty
  | .null => .unknown
  | .bool _ => .boolean
  | .int _ => .int
  | .double _ => .double
  | .str _ => .string

def toJson : Constant → Json
  | .null => .null
  | .bool value => .bool value
  | .int value => .int value
  | .double value => .double value
  | .str text => .str text

def ofJson? : Json → Option Constant
  | .null => some .null
  | .bool value => some (.bool value)
  | .int value => some (.int value)
  | .double value => some (.double value)
  | .str text => some (.str text)
  | .arr _ | .obj _ => none

@[simp] theorem ofJson?_toJson (c : Constant) : ofJson? c.toJson = some c := by
  cases c <;> rfl

end Constant

end TypedPseudocode
