/-!
The types of the pseudocode and their unification.

`unknown` lies below every type, arrays are ordered by their elements, and two
other types are comparable only when they are equal.  There is no widening
between numeric types.  `unify` computes least upper bounds in this order.
-/

namespace TypedPseudocode

inductive Ty where
  | unknown
  | void
  | boolean
  | int
  | double
  | string
  /-- The type of type names such as `int` when they are read as values. -/
  | type
  | array (element : Ty)
  deriving DecidableEq, Repr, Inhabited

namespace Ty

/-- The order of information: `a` says no more than `b`. -/
inductive Below : Ty → Ty → Prop
  | unknown (a : Ty) : Below .unknown a
  | refl (a : Ty) : Below a a
  | array {a b : Ty} : Below a b → Below (.array a) (.array b)

def element : Ty → Ty
  | .array element => element
  | _ => .unknown

def unify : Ty → Ty → Option Ty
  | .unknown, b => some b
  | a, .unknown => some a
  | .array a, .array b => (unify a b).map .array
  | a, b => if a = b then some a else none

/-- Two types without a common upper bound: what was known and what came next. -/
structure Conflict where
  existing : Ty
  candidate : Ty
  deriving DecidableEq, Repr

def unifyFrom (known : Ty) : List Ty → Except Conflict Ty
  | [] => .ok known
  | candidate :: rest =>
      match unify known candidate with
      | some known' => unifyFrom known' rest
      | none => .error ⟨known, candidate⟩

/-- Unify from left to right, stopping at the first candidate that does not fit. -/
def unifyAll (candidates : List Ty) : Except Conflict Ty := unifyFrom .unknown candidates

@[simp] theorem unify_unknown_left (a : Ty) : unify .unknown a = some a := by
  cases a <;> rfl

@[simp] theorem unify_unknown_right (a : Ty) : unify a .unknown = some a := by
  cases a <;> rfl

@[simp] theorem unify_array (a b : Ty) :
    unify (.array a) (.array b) = (unify a b).map .array := rfl

def arrays (base : Ty) : Nat → Ty
  | 0 => base
  | levels + 1 => .array (arrays base levels)

end Ty

end TypedPseudocode
