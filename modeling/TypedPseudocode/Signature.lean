import TypedPseudocode.OrderedMap
import TypedPseudocode.Ty

/-!
Signatures: what is known of a procedure from outside its definition, or
observed where it is called.
-/

namespace TypedPseudocode

structure Signature.Argument where
  name : Option String
  ty : Ty
  deriving DecidableEq, Repr

structure Signature where
  returns : Ty
  arguments : List Signature.Argument
  deriving DecidableEq, Repr

/-- Signatures by procedure name, in the order in which the names arrived. -/
abbrev SignatureTable := OrderedMap String Signature

namespace Signature

/--
The type of the parameter `name` that stands at `position`.  Named arguments
are found by their name, and only an argument without a name is found by its
position.
-/
def argumentTy? (s : Signature) (name : String) (position : Nat) : Option Ty :=
  match s.arguments.find? (·.name = some name) with
  | some argument => some argument.ty
  | none =>
      match s.arguments[position]? with
      | some ⟨none, ty⟩ => some ty
      | _ => none

def ofCall (returns : Ty) (arguments : List Ty) : Signature :=
  ⟨returns, arguments.map (⟨none, ·⟩)⟩

end Signature

end TypedPseudocode
