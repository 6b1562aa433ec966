import TypedPseudocode.Lowering.Expression

/-!
Lowering of statements.

A list of statements is gone through twice.  The first pass lowers every
statement and declares the functions without looking into them; the second pass
lowers their bodies, each in a scope of its own.  Hence every function of a
list is visible in the bodies of all of them, its own included.
-/

namespace TypedPseudocode.Lowering

open Code TypedPseudocode.Tree

variable {σ ι : Type} [Inhabited ι] [IdSource σ ι]

/-- A lowered list of statements, and the least type above all that it returns. -/
structure Block where
  statements : List TypedStatement
  returns : Ty
  deriving Repr

structure FirstPass extends Block where
  declared : List ProcId
  deriving Repr

def twoPasses (first : LoweringWith σ ι FirstPass)
    (second : List ProcId → LoweringWith σ ι Unit) : LoweringWith σ ι Block := do
  let pass ← first
  second pass.declared
  return pass.toBlock

def joinReturns (line : Nat) (known ty : Ty) : LoweringWith σ ι Ty :=
  match known.unify ty with
  | some unified => pure unified
  | none => ofExcept (.error (.conflict .returns ⟨known, ty⟩ line))

/-! ## Assignments -/

/--
The variable of that name in the innermost scope.  If there is none it is
declared there with the given type; otherwise its type is constrained.
-/
def bindName (line : Nat) (name : String) (ty : Ty) :
    LoweringWith σ ι (VarId × List TypedStatement) := do
  match ← lookupVariable name .innermost line with
  | some v =>
      let _ ← constrainVariable v ty line
      return (v, [])
  | none =>
      let v ← declareVariable name (some ty) none
      return (v, [.declare v])

def assignTo (value : TypedExpression) : Expr → LoweringWith σ ι (List TypedStatement)
  | .name line id _ => do
      let (v, declaration) ← bindName line id value.ty
      return declaration ++ [.assign v value]
  | .subscript line base slice _ => do
      let v ← resolveArray base
      let index ← lowerIndex slice
      let _ ← constrainVariable v (.array value.ty) line
      return [.assignElement v [index] value]
  | target => fail (.unexpectedKind ["Name", "Subscript"] target.label) target.line

def elementsFor (line count : Nat) (value : Expr) : LoweringWith σ ι (List Expr) :=
  match value.elements? with
  | none => refuse (.unpackingOf value.label) value.line
  | some values =>
      if count = values.length then pure values
      else fail (.unpackCount count values.length) line

mutual

def unpack : Expr → Expr → LoweringWith σ ι (List TypedStatement)
  | .list line targets _, value => do
      unpackEach targets (← elementsFor line targets.length value)
  | .tuple line targets _, value => do
      unpackEach targets (← elementsFor line targets.length value)
  | target, value => do assignTo (← lowerValue value) target

def unpackEach : List Expr → List Expr → LoweringWith σ ι (List TypedStatement)
  | target :: targets, value :: values => do
      let first ← unpack target value
      let rest ← unpackEach targets values
      return first ++ rest
  | _, _ => pure []

end

/-- Assign one value to several targets; it is lowered once for all plain ones. -/
def assignAll (value : Expr) :
    List Expr → Option TypedExpression → LoweringWith σ ι (List TypedStatement)
  | [], _ => pure []
  | target :: targets, lowered =>
      match target.elements? with
      | some _ => do
          let first ← unpack target value
          let rest ← assignAll value targets lowered
          return first ++ rest
      | none => do
          let e ← match lowered with
            | some e => pure e
            | none => lowerValue value
          let first ← assignTo e target
          let rest ← assignAll value targets (some e)
          return first ++ rest

def augment (op : Operator) (value : Expr) (target : Expr) :
    LoweringWith σ ι (List TypedStatement) := do
  let op ← lowerOperator op target.line
  match target with
  | .name line id _ =>
      match ← lookupVariable id .innermost line with
      | none => fail (.missingName id) line
      | some v =>
          let current ← readVariable v
          let value ← lowerValue value
          let ty := op.resultTy current.ty value.ty
          let _ ← constrainVariable v ty line
          return [.assign v (.binary op current value ty)]
  | .subscript line base slice _ =>
      let v ← resolveArray base
      let index ← lowerIndex slice
      let value ← lowerValue value
      let array ← readVariable v
      let element := .arrayElement array index array.ty.element
      let ty := op.resultTy array.ty.element value.ty
      let _ ← constrainVariable v (.array ty) line
      return [.assignElement v [index] (.binary op element value ty)]
  | _ => fail (.unexpectedKind ["Name", "Subscript"] target.label) target.line

def assignHinted (target typeHint : Expr) (value : Option Expr) :
    LoweringWith σ ι (List TypedStatement) := do
  let ty ← ofExcept (Builtin.hintTy typeHint)
  match target with
  | .name line id _ =>
      let (v, declaration) ← bindName line id ty
      match value with
      | none => return declaration
      | some value =>
          let e ← lowerValue value
          let _ ← constrainVariable v e.ty value.line
          return declaration ++ [.assign v e]
  | _ => refuse (.hintedTarget target.label) target.line

/-! ## Calls as statements -/

def droppedName? (func : Expr) (t : Table σ ι) : Option String :=
  func.identifier?.filter fun name =>
    Builtin.isIgnored name && (t.lookup name .enclosing).isNone

def standAlone (line : Nat) : TypedExpression → LoweringWith σ ι (List TypedStatement)
  | .call p arguments _ => pure [.call p arguments]
  | .callBuiltin name arguments _ =>
      if name = "append" then pure [.callBuiltin name arguments]
      else refuse (.builtinStatement name) line
  | _ => refuse .expressionStatement line

def lowerStandAlone (line : Nat) : Expr → LoweringWith σ ι (List TypedStatement)
  | .constant _ (.str _) => pure []
  | .str _ _ => pure []
  | e@(.call _ func _ _) => do
      match ← gets (droppedName? func) with
      | some name =>
          tell (.droppedCall name line)
          return []
      | none => standAlone line (← lowerValue e)
  | e => do standAlone line (← lowerValue e)

/-! ## Functions -/

def checkParameters (line : Nat) (name : String) (ps : Parameters) : LoweringWith σ ι Unit :=
  if ps.variadic.isSome ∨ ps.keywordVariadic.isSome then
    refuse (.variadicParameters name) line
  else if ps.positionalOnly ≠ [] ∨ ps.keywordOnly ≠ [] then
    refuse (.restrictedParameters name) line
  else if ps.defaults ≠ [] then refuse (.defaultValues name) line
  else pure ()

def declareFunction (line : Nat) (name : String) (ps : Parameters) (decorators : List Expr)
    (returns : Option Expr) : LoweringWith σ ι ProcId := do
  match decorators with
  | decorator :: _ => refuse (.decorator name) decorator.line
  | [] =>
      checkParameters line name ps
      let stated ← ofExcept (Builtin.hintTy? returns)
      declareProcedure (some name) stated

def declareParameters (owner : String) :
    Nat → List Parameter → LoweringWith σ ι (List VarId)
  | _, [] => pure []
  | position, p :: ps => do
      let stated ← ofExcept (Builtin.hintTy? p.typeHint)
      let v ← declareVariable p.name stated (some ⟨owner, position⟩)
      let vs ← declareParameters owner (position + 1) ps
      return v :: vs

def lowerFunction (line : Nat) (name : String) (ps : Parameters) (p : ProcId)
    (body : LoweringWith σ ι Block) : LoweringWith σ ι Unit := do
  tell (.reachedBody name)
  let (parameters, block) ← inChildScope do
    let parameters ← declareParameters name 0 ps.positional
    let block ← body
    return (parameters, block)
  let _ ← constrainProcedure p block.returns line
  modify (·.define p parameters block.statements)

/-! ## Loops over ranges -/

structure Range where
  start : TypedExpression
  stop : TypedExpression
  step : TypedExpression
  deriving Repr

def rangeOf (line iterLine : Nat) : TypedExpression → LoweringWith σ ι Range
  | .callBuiltin name arguments _ =>
      if name = "range" then
        match arguments with
        | [stop] => pure ⟨.int 0, stop, .int 1⟩
        | [start, stop] => pure ⟨start, stop, .int 1⟩
        | [start, stop, step] => pure ⟨start, stop, step⟩
        | _ => refuse (.rangeArguments arguments.length) iterLine
      else refuse .loopNotOverRange line
  | _ => refuse .loopNotOverRange line

/--
A loop over a range counts until its variable meets the end: the variable takes
the start, the loop runs while it differs from the end, and each pass closes
with one step.
-/
def countingLoop (line targetLine iterLine : Nat) (name : String)
    (iter : LoweringWith σ ι TypedExpression) (body : LoweringWith σ ι Block) (returns : Ty) :
    LoweringWith σ ι Block := do
  let (v, declaration) ← bindName targetLine name .int
  let range ← rangeOf line iterLine (← iter)
  let _ ← constrainVariable v range.start.ty targetLine
  let guard := .binary .different (← readVariable v) range.stop .boolean
  let block ← body
  let stepTy := BinOp.add.resultTy (← gets (·.tyOf v)) range.step.ty
  let _ ← constrainVariable v stepTy targetLine
  let advance := .assign v (.binary .add (← readVariable v) range.step stepTy)
  let returns ← joinReturns line returns block.returns
  return ⟨declaration ++
    [.assign v range.start, .loop guard (block.statements ++ [advance])], returns⟩

/-! ## Statements -/

def isIgnoredKind : OtherStmt → Bool
  | .pass | .delete | .importNames | .importFrom | .assertion => true
  | _ => false

def lowerOther (line : Nat) (kind : OtherStmt) : LoweringWith σ ι (List TypedStatement) :=
  match kind with
  | .breakLoop => pure [.breakLoop]
  | .continueLoop => pure [.continueLoop]
  | _ =>
      if isIgnoredKind kind then do
        tell (.ignoredStatement kind.label line)
        return []
      else refuse (.node kind.label) line

mutual

/-- Lower one statement; `returns` is the least type above all returned before. -/
def lowerStmt (returns : Ty) : Stmt → LoweringWith σ ι FirstPass
  | .functionDef line name ps _ decorators hint => do
      let p ← declareFunction line name ps decorators hint
      return ⟨⟨[], returns⟩, [p]⟩
  | .ret line none => do
      let returns ← joinReturns line returns .void
      return ⟨⟨[.ret none], returns⟩, []⟩
  | .ret line (some value) => do
      let e ← lowerValue value
      let returns ← joinReturns line returns e.ty
      return ⟨⟨[.ret (some e)], returns⟩, []⟩
  | .assign _ targets value => do
      return ⟨⟨← assignAll value targets none, returns⟩, []⟩
  | .augAssign _ target op value => do
      return ⟨⟨← augment op value target, returns⟩, []⟩
  | .annAssign _ target hint value => do
      return ⟨⟨← assignHinted target hint value, returns⟩, []⟩
  | .branch line test body orelse => do
      let guard ← lowerValue test
      let yes ← twoPasses (lowerStmts .unknown body) (lowerBodies body)
      let no ← twoPasses (lowerStmts .unknown orelse) (lowerBodies orelse)
      let returns ← joinReturns line returns yes.returns
      let returns ← joinReturns line returns no.returns
      return ⟨⟨[.selection guard yes.statements no.statements], returns⟩, []⟩
  | .whileLoop line test body orelse => do
      if orelse.isEmpty then
        let guard ← lowerValue test
        let block ← twoPasses (lowerStmts .unknown body) (lowerBodies body)
        let returns ← joinReturns line returns block.returns
        return ⟨⟨[.loop guard block.statements], returns⟩, []⟩
      else refuse (.elseBlock (Labelled.label StmtKind.whileLoop)) line
  | .forLoop line target iter body orelse => do
      if orelse.isEmpty then
        match target with
        | .name targetLine name _ =>
            let block ← countingLoop line targetLine iter.line name (lowerValue iter)
              (twoPasses (lowerStmts .unknown body) (lowerBodies body)) returns
            return ⟨block, []⟩
        | _ => fail (.unexpectedKind ["Name"] target.label) target.line
      else refuse (.elseBlock (Labelled.label StmtKind.forLoop)) line
  | .raise line none => do
      tell (.ignoredStatement (Labelled.label StmtKind.raise) line)
      return ⟨⟨[], returns⟩, []⟩
  | .raise line (some _) => refuse (.node (Labelled.label StmtKind.raise)) line
  | .expression line value => do
      return ⟨⟨← lowerStandAlone line value, returns⟩, []⟩
  | .other line kind => do
      return ⟨⟨← lowerOther line kind, returns⟩, []⟩

def lowerStmts (returns : Ty) : List Stmt → LoweringWith σ ι FirstPass
  | [] => pure ⟨⟨[], returns⟩, []⟩
  | s :: rest => do
      tell (.reachedStatement s.label s.line)
      let here ← lowerStmt returns s
      let there ← lowerStmts here.returns rest
      return ⟨⟨here.statements ++ there.statements, there.returns⟩,
        here.declared ++ there.declared⟩

/-- The second pass over a list, with the handles that the first one declared. -/
def lowerBodies : List Stmt → List ProcId → LoweringWith σ ι Unit
  | .functionDef line name ps body _ _ :: rest, p :: declared => do
      lowerFunction line name ps p
        (twoPasses (lowerStmts .unknown body) (lowerBodies body))
      lowerBodies rest declared
  | _ :: rest, declared => lowerBodies rest declared
  | [], _ => pure ()

end

def lowerBlock (body : List Stmt) : LoweringWith σ ι Block :=
  twoPasses (lowerStmts .unknown body) (lowerBodies body)

end TypedPseudocode.Lowering
