import TypedPseudocode.Constant
import TypedPseudocode.Operator

/-!
Pseudocode: expressions and statements in which every name is resolved and
every expression carries a type.

One shape serves the whole way from inference to publication.  It leaves open
how variables, procedures and types are referred to: while types are inferred
these are handles into the symbol table and inferred types, in a document they
are ids and published types.
-/

namespace TypedPseudocode.Code

inductive Expression (V P T : Type) where
  | read (target : V) (ty : T)
  | readBuiltin (name : String) (ty : T)
  | call (procedure : P) (arguments : List (Expression V P T)) (ty : T)
  | callBuiltin (name : String) (arguments : List (Expression V P T)) (ty : T)
  | arrayLength (target : Expression V P T)
  | arrayElement (target index : Expression V P T) (ty : T)
  | literal (value : Constant) (ty : T)
  | aggregate (elements : List (Expression V P T)) (ty : T)
  | binary (op : BinOp) (left right : Expression V P T) (ty : T)
  | unary (op : UnOp) (operand : Expression V P T) (ty : T)
  deriving Repr

/-- Statements; `D` is what the declaration of a variable says. -/
inductive Statement (D V P T : Type) where
  | declare (declaration : D)
  | call (procedure : P) (arguments : List (Expression V P T))
  | callBuiltin (name : String) (arguments : List (Expression V P T))
  | ret (value : Option (Expression V P T))
  | assign (target : V) (value : Expression V P T)
  | assignElement (target : V) (indexes : List (Expression V P T)) (value : Expression V P T)
  | selection (guard : Expression V P T) (body alternative : List (Statement D V P T))
  /-- The guard is tested before each pass. -/
  | loop (guard : Expression V P T) (body : List (Statement D V P T))
  | breakLoop
  | continueLoop
  deriving Repr

variable {D V P T D' V' P' T' : Type}

/-! ## Changing references and types -/

mutual

def Expression.map (f : V → V') (g : P → P') (h : T → T') :
    Expression V P T → Expression V' P' T'
  | .read target ty => .read (f target) (h ty)
  | .readBuiltin name ty => .readBuiltin name (h ty)
  | .call procedure arguments ty =>
      .call (g procedure) (Expression.mapAll f g h arguments) (h ty)
  | .callBuiltin name arguments ty =>
      .callBuiltin name (Expression.mapAll f g h arguments) (h ty)
  | .arrayLength target => .arrayLength (target.map f g h)
  | .arrayElement target index ty =>
      .arrayElement (target.map f g h) (index.map f g h) (h ty)
  | .literal value ty => .literal value (h ty)
  | .aggregate elements ty => .aggregate (Expression.mapAll f g h elements) (h ty)
  | .binary op left right ty => .binary op (left.map f g h) (right.map f g h) (h ty)
  | .unary op operand ty => .unary op (operand.map f g h) (h ty)

def Expression.mapAll (f : V → V') (g : P → P') (h : T → T') :
    List (Expression V P T) → List (Expression V' P' T')
  | [] => []
  | e :: es => e.map f g h :: Expression.mapAll f g h es

end

mutual

def Statement.map (d : D → D') (f : V → V') (g : P → P') (h : T → T') :
    Statement D V P T → Statement D' V' P' T'
  | .declare declaration => .declare (d declaration)
  | .call procedure arguments => .call (g procedure) (Expression.mapAll f g h arguments)
  | .callBuiltin name arguments => .callBuiltin name (Expression.mapAll f g h arguments)
  | .ret value => .ret (value.map (Expression.map f g h))
  | .assign target value => .assign (f target) (value.map f g h)
  | .assignElement target indexes value =>
      .assignElement (f target) (Expression.mapAll f g h indexes) (value.map f g h)
  | .selection guard body alternative =>
      .selection (guard.map f g h) (Statement.mapAll d f g h body)
        (Statement.mapAll d f g h alternative)
  | .loop guard body => .loop (guard.map f g h) (Statement.mapAll d f g h body)
  | .breakLoop => .breakLoop
  | .continueLoop => .continueLoop

def Statement.mapAll (d : D → D') (f : V → V') (g : P → P') (h : T → T') :
    List (Statement D V P T) → List (Statement D' V' P' T')
  | [] => []
  | s :: ss => s.map d f g h :: Statement.mapAll d f g h ss

end

/-! ## Called procedures -/

mutual

def Expression.calls : Expression V P T → List P
  | .read .. | .readBuiltin .. | .literal .. => []
  | .call procedure arguments _ => procedure :: Expression.callsAll arguments
  | .callBuiltin _ arguments _ => Expression.callsAll arguments
  | .arrayLength target => target.calls
  | .arrayElement target index _ => target.calls ++ index.calls
  | .aggregate elements _ => Expression.callsAll elements
  | .binary _ left right _ => left.calls ++ right.calls
  | .unary _ operand _ => operand.calls

def Expression.callsAll : List (Expression V P T) → List P
  | [] => []
  | e :: es => e.calls ++ Expression.callsAll es

end

mutual

def Statement.calls : Statement D V P T → List P
  | .declare _ | .ret none | .breakLoop | .continueLoop => []
  | .call procedure arguments => procedure :: Expression.callsAll arguments
  | .callBuiltin _ arguments => Expression.callsAll arguments
  | .ret (some value) => value.calls
  | .assign _ value => value.calls
  | .assignElement _ indexes value => Expression.callsAll indexes ++ value.calls
  | .selection guard body alternative =>
      guard.calls ++ Statement.callsAll body ++ Statement.callsAll alternative
  | .loop guard body => guard.calls ++ Statement.callsAll body

def Statement.callsAll : List (Statement D V P T) → List P
  | [] => []
  | s :: ss => s.calls ++ Statement.callsAll ss

end

/-! ## Typed code -/

/-- A variable of the symbol table, by its place among the variables. -/
structure VarId where
  index : Nat
  deriving DecidableEq, Repr

structure ProcId where
  index : Nat
  deriving DecidableEq, Repr

abbrev TypedExpression := Expression VarId ProcId Ty

abbrev TypedStatement := Statement VarId VarId ProcId Ty

namespace Expression

def ty : Expression V P Ty → Ty
  | .read _ ty | .readBuiltin _ ty | .call _ _ ty | .callBuiltin _ _ ty
  | .arrayElement _ _ ty | .literal _ ty | .aggregate _ ty | .binary _ _ _ ty
  | .unary _ _ ty => ty
  | .arrayLength _ => .int

def target? : Expression V P T → Option V
  | .read target _ => some target
  | _ => none

abbrev constant (value : Constant) : Expression V P Ty := .literal value value.ty

def int (value : Int) : Expression V P Ty := constant (.int value)

/-- `a op (b op c)`: one connective between any number of conditions. -/
def chain? (op : BinOp) : List (Expression V P Ty) → Option (Expression V P Ty)
  | [] => none
  | [e] => some e
  | e :: es => (chain? op es).map fun rest => .binary op e rest .boolean

def comparisons : List BinOp → List (Expression V P Ty) → List (Expression V P Ty)
  | op :: ops, left :: right :: rest =>
      .binary op left right .boolean :: comparisons ops (right :: rest)
  | _, _ => []

end Expression

end TypedPseudocode.Code
