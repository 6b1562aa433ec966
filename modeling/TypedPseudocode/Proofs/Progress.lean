import Mathlib.Logic.Relation
import TypedPseudocode.Proofs.Operands
import TypedPseudocode.Proofs.Views

/-!
Lowering in progress.

Between the first and the last statement of a module there is more to the state
of lowering than its symbol table: functions whose bodies are being lowered,
lists of statements that are not complete yet, and expressions that have been
lowered but not used.  A `State` holds all of this, `Step` says how it can change,
and every successful run of lowering is a sequence of such steps.  What holds of
all states that steps can reach then holds of every document.
-/

namespace TypedPseudocode.Lowering

open Code TypedPseudocode.Tree

structure Hint where
  name : String
  ty : Ty
  target : VarId

structure Waiting where
  place : ProcId
  name : String
  enclosing : List (Option ProcId)

structure Frame where
  place : Option ProcId
  enclosing : List (Option ProcId)
  name : Option String
  /-- The parameters, each with the type that it started with. -/
  parameters : List Hint
  block : Block
  /-- The lists of statements around it, from the inside out. -/
  around : List Block
  /-- Expressions that no statement has used yet, the last of them last. -/
  operands : List TypedExpression
  hints : List Hint

structure State where
  table : Table
  frame : Frame
  outer : List Frame
  finished : List Frame
  pending : List Waiting

namespace Frame

def start (place : Option ProcId) (enclosing : List (Option ProcId)) (name : Option String) :
    Frame :=
  ⟨place, enclosing, name, [], ⟨[], .unknown⟩, [], [], []⟩

def lineage (f : Frame) : List (Option ProcId) := f.place :: f.enclosing

def codeOf (block : Block) (around : List Block) : List TypedStatement :=
  around.reverse.flatMap (·.statements) ++ block.statements

def code (f : Frame) : List TypedStatement := codeOf f.block f.around

def locals (f : Frame) : List VarId := f.parameters.map (·.target) ++ declared f.code

def view {β : Type} (w : View β) (f : Frame) : List β := w.code f.code ++ w.operands f.operands

def told (f : Frame) : List (VarId × Ty) :=
  (f.parameters ++ f.hints).map (fun hint => (hint.target, hint.ty)) ++ f.view View.types

end Frame

/-! ## Steps -/

/-- How a name is bound to a variable of the innermost scope, and what is emitted for it. -/
inductive Binds (t : Table) (name : String) (ty : Ty) :
    VarId → List TypedStatement → Table → Prop
  | known {v : VarId} {unified : Ty} (h : t.scope.get? name = some (.variable v))
      (hty : (t.tyOf v).unify ty = some unified) : Binds t name ty v [] (t.raise v unified)
  | fresh (h : t.scope.get? name = none) :
      Binds t name ty ⟨t.vars.length⟩ [.declare ⟨t.vars.length⟩]
        (t.withVariable name (some ty) none)

theorem Binds.get? {t t' : Table} {name : String} {ty : Ty} {v : VarId}
    {declaration : List TypedStatement}
    (h : Binds t name ty v declaration t') : t'.scope.get? name = some (.variable v) := by
  cases h with
  | known h _ => exact h
  | fresh h => simp

inductive Uses : List TypedExpression → TypedStatement → Ty → Prop
  | ret : Uses [] (.ret none) .void
  | retValue (value : TypedExpression) : Uses [value] (.ret (some value)) value.ty
  | call (p : ProcId) (arguments : List TypedExpression) (ty : Ty) :
      Uses [.call p arguments ty] (.call p arguments) .unknown
  | append (arguments : List TypedExpression) (ty : Ty) :
      Uses [.callBuiltin "append" arguments ty] (.callBuiltin "append" arguments) .unknown
  | breakLoop : Uses [] .breakLoop .unknown
  | continueLoop : Uses [] .continueLoop .unknown

inductive Bounds : List TypedExpression → Range → Prop
  | stop (stop : TypedExpression) : Bounds [stop] ⟨.int 0, stop, .int 1⟩
  | start (start stop : TypedExpression) : Bounds [start, stop] ⟨start, stop, .int 1⟩
  | step (start stop step : TypedExpression) : Bounds [start, stop, step] ⟨start, stop, step⟩

def augmented (op : BinOp) (v : VarId) (ty : Ty) (index value : TypedExpression) :
    TypedExpression :=
  .binary op (.arrayElement (.read v ty) index ty.element) value (op.resultTy ty.element value.ty)

inductive Step : State → State → Prop
  | eval {s : State} {t : Table} {operands : List TypedExpression}
      (h : Eval s.table s.frame.operands t operands) :
      Step s { s with table := t, frame := { s.frame with operands } }
  | again {s : State} {value : TypedExpression}
      (h : ∃ assignment ∈ s.frame.block.statements, value ∈ assignment.operands) :
      Step s { s with frame := { s.frame with operands := s.frame.operands ++ [value] } }
  | spread {s : State} {below arguments : List TypedExpression} {ty : Ty} {range : Range}
      (hoperands : s.frame.operands = below ++ [.callBuiltin "range" arguments ty])
      (hrange : Bounds arguments range) :
      Step s { s with
        frame := { s.frame with
          operands := below ++ [range.step, range.stop, range.start] } }
  | guard {s : State} {below : List TypedExpression} {stop : TypedExpression} {name : String}
      {v : VarId} (hoperands : s.frame.operands = below ++ [stop])
      (hv : s.table.scope.get? name = some (.variable v)) :
      Step s { s with
        frame := { s.frame with
          operands :=
            below ++ [.binary .different (.read v (s.table.tyOf v)) stop .boolean] } }
  | use {s : State} {below operands : List TypedExpression} {statement : TypedStatement}
      {ty returns : Ty} (hoperands : s.frame.operands = below ++ operands)
      (h : Uses operands statement ty)
      (hreturns : s.frame.block.returns.unify ty = some returns) :
      Step s { s with
        frame := { s.frame with
          operands := below
          block := ⟨s.frame.block.statements ++ [statement], returns⟩ } }
  | assign {s : State} {below : List TypedExpression} {value : TypedExpression}
      {name : String} {v : VarId} {declaration : List TypedStatement} {t : Table}
      (hoperands : s.frame.operands = below ++ [value])
      (h : Binds s.table name value.ty v declaration t) :
      Step s { s with
        table := t
        frame := { s.frame with
          operands := below
          block := ⟨s.frame.block.statements ++ (declaration ++ [.assign v value]),
            s.frame.block.returns⟩ } }
  | hint {s : State} {name : String} {ty : Ty} {v : VarId}
      {declaration : List TypedStatement} {t : Table}
      (h : Binds s.table name ty v declaration t) :
      Step s { s with
        table := t
        frame := { s.frame with
          block := ⟨s.frame.block.statements ++ declaration, s.frame.block.returns⟩
          hints := s.frame.hints ++ [⟨name, ty, v⟩] } }
  | assignElement {s : State} {below : List TypedExpression} {value index : TypedExpression}
      {name : String} {v : VarId} {unified : Ty}
      (hoperands : s.frame.operands = below ++ [value, index])
      (hv : s.table.lookup name .enclosing = some (.variable v))
      (hty : (s.table.tyOf v).unify (.array value.ty) = some unified) :
      Step s { s with
        table := s.table.raise v unified
        frame := { s.frame with
          operands := below
          block := ⟨s.frame.block.statements ++ [.assignElement v [index] value],
            s.frame.block.returns⟩ } }
  | augmentElement {s : State} {below : List TypedExpression} {index value : TypedExpression}
      {name : String} {v : VarId} {op : BinOp} {unified : Ty}
      (hoperands : s.frame.operands = below ++ [index, value])
      (hv : s.table.lookup name .enclosing = some (.variable v))
      (hty : (s.table.tyOf v).unify
        (.array (op.resultTy (s.table.tyOf v).element value.ty)) = some unified) :
      Step s { s with
        table := s.table.raise v unified
        frame := { s.frame with
          operands := below
          block := ⟨s.frame.block.statements ++
            [.assignElement v [index] (augmented op v (s.table.tyOf v) index value)],
            s.frame.block.returns⟩ } }
  | openBlock {s : State} :
      Step s { s with
        frame := { s.frame with
          block := ⟨[], .unknown⟩
          around := s.frame.block :: s.frame.around } }
  | closeSelection {s : State} {below : List TypedExpression} {guard : TypedExpression}
      {body before : Block} {around : List Block} {joined returns : Ty}
      (hoperands : s.frame.operands = below ++ [guard])
      (haround : s.frame.around = body :: before :: around)
      (hbody : before.returns.unify body.returns = some joined)
      (hreturns : joined.unify s.frame.block.returns = some returns) :
      Step s { s with
        frame := { s.frame with
          operands := below
          block := ⟨before.statements ++
            [.selection guard body.statements s.frame.block.statements], returns⟩
          around := around } }
  | closeLoop {s : State} {below : List TypedExpression} {guard : TypedExpression}
      {before : Block} {around : List Block} {returns : Ty}
      (hoperands : s.frame.operands = below ++ [guard])
      (haround : s.frame.around = before :: around)
      (hreturns : before.returns.unify s.frame.block.returns = some returns) :
      Step s { s with
        frame := { s.frame with
          operands := below
          block := ⟨before.statements ++ [.loop guard s.frame.block.statements], returns⟩
          around := around } }
  | advance {s : State} {below : List TypedExpression} {step guard start : TypedExpression}
      {before : Block} {around : List Block} {v : VarId} {unified : Ty}
      (hoperands : s.frame.operands = below ++ [step, guard])
      (haround : s.frame.around = before :: around)
      (hv : .assign v start ∈ before.statements)
      (hty : (s.table.tyOf v).unify (BinOp.add.resultTy (s.table.tyOf v) step.ty) =
        some unified) :
      Step s { s with
        table := s.table.raise v unified
        frame := { s.frame with
          operands := below ++ [guard]
          block := ⟨s.frame.block.statements ++
            [.assign v (.binary .add (.read v ((s.table.raise v unified).tyOf v)) step
              (BinOp.add.resultTy (s.table.tyOf v) step.ty))],
            s.frame.block.returns⟩ } }
  | declareFunction {s : State} {name : String} {stated : Option Ty} :
      Step s { s with
        table := s.table.withProcedure name stated
        pending := s.pending ++ [⟨⟨s.table.procedures.length⟩, name, s.frame.lineage⟩] }
  | openFunction {s : State} {p : ProcId} {name : String} {before after : List Waiting}
      (h : s.pending = before ++ ⟨p, name, s.frame.lineage⟩ :: after) :
      Step s { s with
        table := s.table.enter
        frame := .start (some p) s.frame.lineage (some name)
        outer := s.frame :: s.outer
        pending := before ++ after }
  | parameter {s : State} {name : String} {stated : Option Ty} {slot : Option Slot}
      (hblock : s.frame.block.statements = []) (haround : s.frame.around = [])
      (hhints : s.frame.hints = []) :
      Step s { s with
        table := s.table.withVariable name stated slot
        frame := { s.frame with
          parameters := s.frame.parameters ++
            [⟨name, s.table.variableSeed name stated slot, ⟨s.table.vars.length⟩⟩] } }
  | closeFunction {s : State} {p : ProcId} {f : Frame} {outer : List Frame} {unified : Ty}
      (hplace : s.frame.place = some p) (houter : s.outer = f :: outer)
      (haround : s.frame.around = []) (hoperands : s.frame.operands = [])
      (hty : (s.table.leave.procAt p).ty.unify s.frame.block.returns = some unified) :
      Step s { s with
        table := s.table.leave.complete p unified (s.frame.parameters.map (·.target))
          s.frame.block.statements
        frame := f
        outer := outer
        finished := s.finished ++ [s.frame] }

abbrev Runs : State → State → Prop := Relation.ReflTransGen Step

theorem Evals.runs {t t' : Table} {operands operands' : List TypedExpression}
    (h : Evals t operands t' operands') {s : State} (htable : s.table = t)
    (hoperands : s.frame.operands = operands) :
    Runs s { s with table := t', frame := { s.frame with operands := operands' } } := by
  induction h with
  | refl =>
      subst htable hoperands
      exact .refl
  | tail _ step ih => exact (ih hoperands).tail (.eval step)

end TypedPseudocode.Lowering
