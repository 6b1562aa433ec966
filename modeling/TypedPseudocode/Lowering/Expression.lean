import TypedPseudocode.Builtin
import TypedPseudocode.Lowering.Basic

/-!
Lowering of expressions.

Names are resolved through the symbol table, operands are lowered from left to
right, and the type of each expression is computed from those of its parts.
An expression declares nothing; `append` is the only construct that tells
something new of a variable's type.
-/

namespace TypedPseudocode.Lowering

open Code TypedPseudocode.Tree

variable {σ ι : Type} [Inhabited ι]

/-! ## Operators -/

def binOp? : Operator → Option BinOp
  | .add => some .add
  | .sub => some .sub
  | .mult => some .mul
  | .div => some .div
  | .floorDiv => some .intDiv
  | .mod => some .mod
  | .pow => some .pow
  | .matMult | .lShift | .rShift | .bitOr | .bitXor | .bitAnd => none

def connective : BoolOperator → BinOp
  | .and => .and
  | .or => .or

def comparison? : Comparison → Option BinOp
  | .eq => some .equal
  | .notEq => some .different
  | .gt => some .greater
  | .ge => some .greaterEq
  | .lt => some .smaller
  | .le => some .smallerEq
  | .identical | .notIdentical | .member | .notMember => none

def lowerOperator (op : Operator) (line : Nat) : LoweringWith σ ι BinOp :=
  match binOp? op with
  | some op => pure op
  | none => refuse (.operation (Labelled.label op)) line

def lowerComparisons (line : Nat) : List Comparison → LoweringWith σ ι (List BinOp)
  | [] => pure []
  | op :: ops =>
      match comparison? op with
      | some op => return op :: (← lowerComparisons line ops)
      | none => refuse (.operation (Labelled.label op)) line

/-! ## Names and calls -/

/-- A name that is written to is only looked for in the innermost scope. -/
def reachOf : Context → Reach
  | .store => .innermost
  | .load | .del => .enclosing

def lowerName (line : Nat) (id : String) (ctx : Context) :
    LoweringWith σ ι TypedExpression := do
  match ← lookupVariable id (reachOf ctx) line with
  | some v => readVariable v
  | none =>
      match Builtin.variableTy? id with
      | some ty => pure (.readBuiltin id ty)
      | none => fail (.missingName id) line

def resolveArray : Expr → LoweringWith σ ι VarId
  | .name line id _ => do
      match ← lookupVariable id .enclosing line with
      | some v => pure v
      | none =>
          if (Builtin.variableTy? id).isSome then refuse (.assignmentToBuiltin id) line
          else fail (.missingName id) line
  | base => fail (.unexpectedKind ["Name"] base.label) base.line

def requireName (e : Expr) : LoweringWith σ ι Unit :=
  ofExcept (Diagnostic.requireKind ["Name"] e.label e.line)

def callBuiltin (line nameLine : Nat) (name : String) (arguments : List TypedExpression) :
    LoweringWith σ ι TypedExpression :=
  if name = "len" then
    match arguments with
    | [target] => pure (.arrayLength target)
    | _ => fail .notOneArgument line
  else if Builtin.isFunction name then do
    let ty ← ofExcept (Builtin.callTy name (arguments.map (·.ty)) line)
    return .callBuiltin name arguments ty
  else fail (.missingName name) nameLine

/-- A declared procedure wins over a provided function of the same name. -/
def callName (line nameLine : Nat) (name : String) (arguments : List TypedExpression) :
    LoweringWith σ ι TypedExpression := do
  match ← lookupCalled name .enclosing (arguments.map (·.ty)) nameLine with
  | some p =>
      let ty ← gets fun t => (t.procAt p).ty
      return .call p arguments ty
  | none => callBuiltin line nameLine name arguments

def appendTo (line : Nat) (v : VarId) (value : TypedExpression) :
    LoweringWith σ ι TypedExpression := do
  let _ ← constrainVariable v (.array value.ty) line
  let target ← readVariable v
  return .callBuiltin "append" [target, value] .void

/-! ## Composite expressions -/

def aggregate (line : Nat) (elements : List TypedExpression) :
    LoweringWith σ ι TypedExpression := do
  let element ← ofExcept
    ((Ty.unifyAll (elements.map (·.ty))).mapError (Diagnostic.conflict .elements · line))
  return .aggregate elements (.array element)

def connect (line : Nat) (op : BinOp) (operands : List TypedExpression) :
    LoweringWith σ ι TypedExpression :=
  match Expression.chain? op operands with
  | some e => pure e
  | none => fail .tooFewOperands line

def compareAll (line : Nat) (ops : List BinOp) (operands : List TypedExpression) :
    LoweringWith σ ι TypedExpression :=
  match Expression.chain? .and (Expression.comparisons ops operands) with
  | some e => pure e
  | none => fail .noComparison line

/-- Where an expression stands: in a subscript some kinds mean something else. -/
inductive Place where
  | operand
  | index
  deriving DecidableEq, Repr

mutual

def lowerExpr (place : Place) : Expr → LoweringWith σ ι TypedExpression
  | .name line id ctx => lowerName line id ctx
  | .constant _ value => pure (.constant value)
  | .num _ value => pure (.constant value)
  | .nameConstant _ value => pure (.constant value)
  | .str _ text => pure (.constant (.str text))
  | .list line elements _ => do aggregate line (← lowerExprs elements)
  | .tuple line elements _ => do aggregate line (← lowerExprs elements)
  | .binOp line left op right => do
      let op ← lowerOperator op line
      let left ← lowerExpr .operand left
      let right ← lowerExpr .operand right
      return .binary op left right (op.resultTy left.ty right.ty)
  | .boolOp line op values => do connect line (connective op) (← lowerExprs values)
  | .compare line left ops comparators => do
      if ops.length ≠ comparators.length then
        fail (.comparatorCount ops.length comparators.length) line
      else
        let ops ← lowerComparisons line ops
        let first ← lowerExpr .operand left
        let rest ← lowerExprs comparators
        compareAll line ops (first :: rest)
  | .unaryOp line op operand => do
      let operand ← lowerExpr .operand operand
      match op with
      | .plus => return operand
      | .not => return .unary .not operand operand.ty
      | .minus => return .unary .neg operand operand.ty
      | .invert => refuse (.operation (Labelled.label op)) line
  | .call line func args keywords =>
      if keywords.isEmpty then
        match func with
        | .name nameLine id _ => do callName line nameLine id (← lowerExprs args)
        | .attribute _ target attr _ =>
            if attr = "append" then
              match args with
              | [value] => do
                  let v ← resolveArray target
                  let value ← lowerExpr .operand value
                  appendTo line v value
              | _ => fail .notOneArgument line
            else refuse (.methodCall attr) line
        | _ => refuse (.callOf func.label) line
      else refuse .keywordArguments line
  | .subscript _ base slice _ => do
      requireName base
      let target ← lowerExpr .operand base
      match slice with
      | .slice _ none none none => return target
      | .slice line _ _ _ => refuse .sliceWithBounds line
      | _ =>
          let index ← lowerExpr .index slice
          return .arrayElement target index target.ty.element
  | .attribute line _ attr _ => refuse (.attributeAccess attr) line
  | .index line value =>
      match place with
      | .index => lowerExpr .operand value
      | .operand => refuse (.node (Labelled.label ExprKind.index)) line
  | .slice line _ _ _ =>
      match place with
      | .index => refuse .sliceAsIndex line
      | .operand => refuse (.node (Labelled.label ExprKind.slice)) line
  | .other line kind =>
      if place = .index ∧ kind = .extSlice then refuse .sliceAsIndex line
      else refuse (.node kind.label) line

def lowerExprs : List Expr → LoweringWith σ ι (List TypedExpression)
  | [] => pure []
  | e :: es => do
      let first ← lowerExpr .operand e
      let rest ← lowerExprs es
      return first :: rest

end

def lowerValue (e : Expr) : LoweringWith σ ι TypedExpression := lowerExpr .operand e

def lowerIndex (e : Expr) : LoweringWith σ ι TypedExpression := lowerExpr .index e

end TypedPseudocode.Lowering
