import TypedPseudocode.Ty

/-!
The operators of the pseudocode, their published names and their result types.
-/

namespace TypedPseudocode

inductive BinOp where
  | add | sub | mul | div | intDiv | mod | pow
  | and | or
  | equal | different | greater | greaterEq | smaller | smallerEq
  deriving DecidableEq, Repr

inductive UnOp where
  | not | neg
  deriving DecidableEq, Repr

namespace BinOp

def name : BinOp → String
  | .add => "add"
  | .sub => "sub"
  | .mul => "mul"
  | .div => "div"
  | .intDiv => "intdiv"
  | .mod => "mod"
  | .pow => "pow"
  | .and => "and"
  | .or => "or"
  | .equal => "equal"
  | .different => "different"
  | .greater => "greater"
  | .greaterEq => "greater_eq"
  | .smaller => "smaller"
  | .smallerEq => "smaller_eq"

def isComparison : BinOp → Bool
  | .equal | .different | .greater | .greaterEq | .smaller | .smallerEq => true
  | _ => false

def isLogical : BinOp → Bool
  | .and | .or => true
  | _ => false

/--
The type of an operator's result.  Comparisons and connectives are boolean;
among the arithmetic operators a string operand wins over division and
doubles, and these win over integers.
-/
def resultTy (op : BinOp) (left right : Ty) : Ty :=
  if op.isComparison || op.isLogical then .boolean
  else if left = .string ∨ right = .string then .string
  else if op = .div ∨ left = .double ∨ right = .double then .double
  else if left = .int ∨ right = .int then .int
  else .unknown

end BinOp

def UnOp.name : UnOp → String
  | .not => "not"
  | .neg => "neg"

end TypedPseudocode
