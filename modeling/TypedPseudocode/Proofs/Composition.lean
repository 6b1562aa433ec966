import TypedPseudocode.Lowering.Statement
import TypedPseudocode.Proofs.Bindings

/-!
Composition: what holds of the parts of lowering holds of the whole.

Everything that is lowered is put together from a few elementary steps.  A property
that these have, and that one step after another has when both have it, is therefore
a property of lowering at large.  Expressions take the fewest kinds of steps,
assignments also declare variables, and only whole lists of statements declare
procedures and open scopes; a property may hold of the former without holding of
the latter.
-/

namespace TypedPseudocode

open Code TypedPseudocode.Tree

/-- The id that is drawn where a declaration is told of. -/
def Event.drawn? : Event → Option Nat
  | .declaredProcedure _ serial _ | .declaredVariable _ serial _ => some serial
  | _ => none

namespace Lowering

/-! ## Expressions -/

/-- A property of the steps that look at the table, kept by taking one after another. -/
structure Looking (P : ∀ {α : Type}, Lowering α → Prop) : Prop where
  ofExcept {α : Type} (result : Except Diagnostic α) : P (ofExcept result)
  bind {α β : Type} {step : Lowering α} {next : α → Lowering β} :
    P step → (∀ a, P (next a)) → P (step >>= next)
  tell {event : Event} (hevent : event.drawn? = none) : P (tell event)
  /-- Declarations and scopes may be looked at, but not what is known of signatures. -/
  gets {α : Type} (look : Declarations → List Scope → α) :
    P (gets fun t => look t.toDeclarations (t.scope :: t.outer))
  lookupVariable (name : String) (reach : Reach) (line : Nat) : P (lookupVariable name reach line)

structure Stepwise (P : ∀ {α : Type}, Lowering α → Prop) : Prop extends Looking P where
  lookupCalled (name : String) (reach : Reach) (arguments : List Ty) (line : Nat) :
    P (lookupCalled name reach arguments line)
  constrainVariable (v : VarId) (ty : Ty) (line : Nat) : P (constrainVariable v ty line)

namespace Looking

variable {P : ∀ {α : Type}, Lowering α → Prop} {α : Type} (h : Looking P)
include h

theorem pure (a : α) : P (Pure.pure a : Lowering α) := h.ofExcept (.ok a)

theorem fail (fault : Fault) (line : Nat) : P (fail fault line : Lowering α) :=
  h.ofExcept (.error ⟨fault, line⟩)

theorem refuse (construct : Construct) (line : Nat) : P (refuse construct line : Lowering α) :=
  h.fail _ line

theorem readVariable (v : VarId) : P (readVariable v) :=
  h.gets fun ds _ => Expression.read v (ds.tyOf v)

theorem lowerOperator (op : Operator) (line : Nat) : P (lowerOperator op line) := by
  unfold Lowering.lowerOperator
  split
  · exact h.pure _
  · exact h.refuse _ _

theorem lowerComparisons (line : Nat) (ops : List Comparison) : P (lowerComparisons line ops) := by
  induction ops with
  | nil => exact h.pure _
  | cons op ops ih =>
      simp only [Lowering.lowerComparisons]
      split
      · exact h.bind ih fun _ => h.pure _
      · exact h.refuse _ _

theorem lowerName (line : Nat) (id : String) (ctx : Context) : P (lowerName line id ctx) := by
  refine h.bind (h.lookupVariable id (reachOf ctx) line) fun found => ?_
  cases found with
  | some v => exact h.readVariable v
  | none =>
      simp only
      split
      · exact h.pure _
      · exact h.fail _ _

theorem resolveArray (base : Expr) : P (resolveArray base) := by
  cases base with
  | name line id ctx =>
      refine h.bind (h.lookupVariable id .enclosing line) fun found => ?_
      cases found with
      | some v => exact h.pure v
      | none =>
          simp only
          split
          · exact h.refuse _ _
          · exact h.fail _ _
  | _ => exact h.fail _ _

theorem callBuiltin (line nameLine : Nat) (name : String) (arguments : List TypedExpression) :
    P (callBuiltin line nameLine name arguments) := by
  unfold Lowering.callBuiltin
  split
  · split
    · exact h.pure _
    · exact h.fail _ _
  · split
    · exact h.bind (h.ofExcept _) fun _ => h.pure _
    · exact h.fail _ _

theorem aggregate (line : Nat) (elements : List TypedExpression) : P (aggregate line elements) :=
  h.bind (h.ofExcept _) fun _ => h.pure _

theorem connect (line : Nat) (op : BinOp) (operands : List TypedExpression) :
    P (connect line op operands) := by
  unfold Lowering.connect
  split
  · exact h.pure _
  · exact h.fail _ _

theorem compareAll (line : Nat) (ops : List BinOp) (operands : List TypedExpression) :
    P (compareAll line ops operands) := by
  unfold Lowering.compareAll
  split
  · exact h.pure _
  · exact h.fail _ _

end Looking

namespace Stepwise

variable {P : ∀ {α : Type}, Lowering α → Prop} (h : Stepwise P)
include h

theorem callName (line nameLine : Nat) (name : String) (arguments : List TypedExpression) :
    P (callName line nameLine name arguments) := by
  refine h.bind (h.lookupCalled _ _ _ _) fun found => ?_
  cases found with
  | some p => exact h.bind (h.gets fun ds _ => (ds.procAt p).ty) fun _ => h.pure _
  | none => exact h.callBuiltin _ _ _ _

theorem appendTo (line : Nat) (v : VarId) (value : TypedExpression) :
    P (appendTo line v value) :=
  h.bind (h.constrainVariable v _ line) fun _ =>
    h.bind (h.readVariable v) fun _ => h.pure _

mutual

theorem lowerExpr (e : Expr) (place : Place) : P (lowerExpr place e) := by
  cases e with
  | name line id ctx =>
      rw [Lowering.lowerExpr]
      exact h.lowerName _ _ _
  | constant line value =>
      rw [Lowering.lowerExpr]
      exact h.pure _
  | num line value =>
      rw [Lowering.lowerExpr]
      exact h.pure _
  | nameConstant line value =>
      rw [Lowering.lowerExpr]
      exact h.pure _
  | str line text =>
      rw [Lowering.lowerExpr]
      exact h.pure _
  | list line elements ctx =>
      rw [Lowering.lowerExpr]
      exact h.bind (lowerExprs elements) fun _ => h.aggregate _ _
  | tuple line elements ctx =>
      rw [Lowering.lowerExpr]
      exact h.bind (lowerExprs elements) fun _ => h.aggregate _ _
  | binOp line left op right =>
      rw [Lowering.lowerExpr]
      refine h.bind (h.lowerOperator op line) fun op => ?_
      refine h.bind (lowerExpr left .operand) fun left => ?_
      exact h.bind (lowerExpr right .operand) fun right => h.pure _
  | boolOp line op values =>
      rw [Lowering.lowerExpr]
      exact h.bind (lowerExprs values) fun _ => h.connect _ _ _
  | compare line left ops comparators =>
      rw [Lowering.lowerExpr]
      split
      · exact h.fail _ _
      · refine h.bind (h.lowerComparisons line ops) fun ops => ?_
        refine h.bind (lowerExpr left .operand) fun first => ?_
        exact h.bind (lowerExprs comparators) fun _ => h.compareAll _ _ _
  | unaryOp line op operand =>
      rw [Lowering.lowerExpr]
      refine h.bind (lowerExpr operand .operand) fun operand => ?_
      cases op with
      | invert => exact h.refuse _ _
      | _ => exact h.pure _
  | call line func args keywords =>
      unfold Lowering.lowerExpr
      split
      · split
        · exact h.bind (lowerExprs args) fun _ => h.callName _ _ _ _
        · split
          · match args with
            | [value] =>
                refine h.bind (h.resolveArray _) fun v => ?_
                exact h.bind (lowerExpr value .operand) fun _ => h.appendTo _ _ _
            | [] | _ :: _ :: _ => exact h.fail _ _
          · exact h.refuse _ _
        · exact h.refuse _ _
      · exact h.refuse _ _
  | subscript line base slice ctx =>
      rw [Lowering.lowerExpr]
      refine h.bind (h.ofExcept _) fun _ => ?_
      refine h.bind (lowerExpr base .operand) fun target => ?_
      split
      · exact h.pure _
      · exact h.refuse _ _
      · exact h.bind (lowerExpr slice .index) fun _ => h.pure _
  | «attribute» line value attr ctx =>
      rw [Lowering.lowerExpr]
      exact h.refuse _ _
  | index line value =>
      simp only [Lowering.lowerExpr]
      cases place with
      | index => exact lowerExpr value .operand
      | operand => exact h.refuse _ _
  | slice line lower upper step =>
      simp only [Lowering.lowerExpr]
      cases place <;> exact h.refuse _ _
  | other line kind =>
      rw [Lowering.lowerExpr]
      split <;> exact h.refuse _ _

theorem lowerExprs (es : List Expr) : P (lowerExprs es) := by
  cases es with
  | nil =>
      rw [Lowering.lowerExprs]
      exact h.pure _
  | cons e es =>
      rw [Lowering.lowerExprs]
      refine h.bind (lowerExpr e .operand) fun first => ?_
      exact h.bind (lowerExprs es) fun rest => h.pure _

end

theorem joinReturns (line : Nat) (known ty : Ty) : P (joinReturns line known ty) := by
  unfold Lowering.joinReturns
  split
  · exact h.pure _
  · exact h.ofExcept _

theorem elementsFor (line count : Nat) (value : Expr) : P (elementsFor line count value) := by
  unfold Lowering.elementsFor
  split
  · exact h.refuse _ _
  · split
    · exact h.pure _
    · exact h.fail _ _

theorem augment (op : Operator) (value target : Expr) : P (augment op value target) := by
  refine h.bind (h.lowerOperator op target.line) fun op => ?_
  cases target with
  | name line id ctx =>
      refine h.bind (h.lookupVariable id .innermost line) fun found => ?_
      cases found with
      | none => exact h.fail _ _
      | some v =>
          refine h.bind (h.readVariable v) fun current => ?_
          refine h.bind (h.lowerExpr value .operand) fun x => ?_
          exact h.bind (h.constrainVariable v _ line) fun _ => h.pure _
  | subscript line base slice ctx =>
      refine h.bind (h.resolveArray base) fun v => ?_
      refine h.bind (h.lowerExpr slice .index) fun index => ?_
      refine h.bind (h.lowerExpr value .operand) fun x => ?_
      refine h.bind (h.readVariable v) fun array => ?_
      exact h.bind (h.constrainVariable v _ line) fun _ => h.pure _
  | _ => exact h.fail _ _

theorem standAlone (line : Nat) (e : TypedExpression) : P (standAlone line e) := by
  unfold Lowering.standAlone
  split
  · exact h.pure _
  · split
    · exact h.pure _
    · exact h.refuse _ _
  · exact h.refuse _ _

theorem droppedName? (func : Expr) : P (Lowering.gets (droppedName? func)) :=
  h.gets fun _ scopes => func.identifier?.filter fun name =>
    Builtin.isIgnored name && (scopes.findSome? fun scope : Scope => scope.get? name).isNone

theorem lowerStandAlone (line : Nat) (e : Expr) : P (lowerStandAlone line e) := by
  unfold Lowering.lowerStandAlone
  split
  · exact h.pure _
  · exact h.pure _
  · refine h.bind (h.droppedName? _) fun dropped => ?_
    cases dropped with
    | some name => exact h.bind (h.tell rfl) fun _ => h.pure _
    | none => exact h.bind (h.lowerExpr _ .operand) fun _ => h.standAlone _ _
  · exact h.bind (h.lowerExpr _ .operand) fun _ => h.standAlone _ _

theorem lowerOther (line : Nat) (kind : OtherStmt) : P (lowerOther line kind) := by
  unfold Lowering.lowerOther
  split
  · exact h.pure _
  · exact h.pure _
  · split
    · exact h.bind (h.tell rfl) fun _ => h.pure _
    · exact h.refuse _ _

theorem rangeOf (line iterLine : Nat) (e : TypedExpression) : P (rangeOf line iterLine e) := by
  unfold Lowering.rangeOf
  split
  · split
    · split
      · exact h.pure _
      · exact h.pure _
      · exact h.pure _
      · exact h.refuse _ _
    · exact h.refuse _ _
  · exact h.refuse _ _

theorem checkParameters (line : Nat) (name : String) (ps : Parameters) :
    P (checkParameters line name ps) := by
  unfold Lowering.checkParameters
  split
  · exact h.refuse _ _
  · split
    · exact h.refuse _ _
    · split
      · exact h.refuse _ _
      · exact h.pure _

end Stepwise

/-! ## Assignments -/

structure Assigning (allowed : String → Prop) (P : ∀ {α : Type}, Lowering α → Prop) : Prop
    extends Stepwise P where
  declareVariable {name : String} (hname : allowed name) (stated : Option Ty) :
    P (declareVariable name stated none)

namespace Assigning

variable {allowed : String → Prop} {P : ∀ {α : Type}, Lowering α → Prop} (h : Assigning allowed P)
include h

theorem bindName (line : Nat) {name : String} (hname : allowed name) (ty : Ty) :
    P (bindName line name ty) := by
  refine h.bind (h.lookupVariable name .innermost line) fun found => ?_
  cases found with
  | some v => exact h.bind (h.constrainVariable v ty line) fun _ => h.pure _
  | none => exact h.bind (h.declareVariable hname _) fun _ => h.pure _

theorem assignTo (value : TypedExpression) (target : Expr)
    (hnames : ∀ name ∈ target.targetNames, allowed name) : P (assignTo value target) := by
  cases target with
  | name line id ctx =>
      refine h.bind (h.bindName line (hnames id ?_) value.ty) fun _ => h.pure _
      simp [Expr.targetNames]
  | subscript line base slice ctx =>
      refine h.bind (h.resolveArray base) fun v => ?_
      refine h.bind (h.lowerExpr slice .index) fun index => ?_
      exact h.bind (h.constrainVariable v _ line) fun _ => h.pure _
  | _ => exact h.fail _ _

mutual

theorem unpack (target value : Expr) (hnames : ∀ name ∈ target.targetNames, allowed name) :
    P (unpack target value) := by
  cases target with
  | list line targets ctx =>
      simp only [Lowering.unpack]
      refine h.bind (h.elementsFor line targets.length value) fun values => ?_
      exact unpackEach targets values (by simpa only [Expr.targetNames] using hnames)
  | tuple line targets ctx =>
      simp only [Lowering.unpack]
      refine h.bind (h.elementsFor line targets.length value) fun values => ?_
      exact unpackEach targets values (by simpa only [Expr.targetNames] using hnames)
  | _ =>
      simp only [Lowering.unpack]
      exact h.bind (h.lowerExpr value .operand) fun x => h.assignTo x _ hnames

theorem unpackEach (targets values : List Expr)
    (hnames : ∀ name ∈ Expr.targetNamesAll targets, allowed name) :
    P (unpackEach targets values) := by
  cases targets with
  | nil =>
      simp only [Lowering.unpackEach]
      exact h.pure _
  | cons target targets =>
      cases values with
      | nil =>
          simp only [Lowering.unpackEach]
          exact h.pure _
      | cons value values =>
          simp only [Expr.targetNamesAll, List.forall_mem_append] at hnames
          simp only [Lowering.unpackEach]
          refine h.bind (unpack target value hnames.1) fun first => ?_
          exact h.bind (unpackEach targets values hnames.2) fun _ => h.pure _

end

theorem assignAll (value : Expr) (targets : List Expr) (lowered : Option TypedExpression)
    (hnames : ∀ name ∈ Expr.targetNamesAll targets, allowed name) :
    P (assignAll value targets lowered) := by
  induction targets generalizing lowered with
  | nil => exact h.pure _
  | cons target targets ih =>
      simp only [Expr.targetNamesAll, List.forall_mem_append] at hnames
      simp only [Lowering.assignAll]
      split
      · refine h.bind (h.unpack target value hnames.1) fun first => ?_
        exact h.bind (ih lowered hnames.2) fun _ => h.pure _
      · have hrest (e : TypedExpression) : P (do
            let first ← Lowering.assignTo e target
            let rest ← Lowering.assignAll value targets (some e)
            return first ++ rest) := by
          refine h.bind (h.assignTo e target hnames.1) fun first => ?_
          exact h.bind (ih (some e) hnames.2) fun _ => h.pure _
        cases lowered with
        | some e => exact h.bind (h.pure e) hrest
        | none => exact h.bind (h.lowerExpr value .operand) hrest

theorem assignHinted (target typeHint : Expr) (value : Option Expr)
    (hnames : ∀ name ∈ target.identifier?, allowed name) :
    P (assignHinted target typeHint value) := by
  refine h.bind (h.ofExcept _) fun ty => ?_
  cases target with
  | name line id ctx =>
      refine h.bind (h.bindName line (hnames id rfl) ty) fun bound => ?_
      obtain ⟨v, declaration⟩ := bound
      cases value with
      | none => exact h.pure _
      | some value =>
          refine h.bind (h.lowerExpr value .operand) fun e => ?_
          exact h.bind (h.constrainVariable v _ _) fun _ => h.pure _
  | _ => exact h.refuse _ _

theorem countingLoop (line targetLine iterLine : Nat) {name : String}
    {iter : Lowering TypedExpression} {body : Lowering Block} (returns : Ty)
    (hname : allowed name) (hiter : P iter) (hbody : P body) :
    P (countingLoop line targetLine iterLine name iter body returns) := by
  refine h.bind (h.bindName targetLine hname .int) fun bound => ?_
  obtain ⟨v, declaration⟩ := bound
  refine h.bind hiter fun x => h.bind (h.rangeOf line iterLine x) fun range => ?_
  refine h.bind (h.constrainVariable v _ targetLine) fun _ => ?_
  refine h.bind (h.readVariable v) fun current => h.bind hbody fun block => ?_
  refine h.bind (h.gets fun ds _ => ds.tyOf v) fun ty => ?_
  refine h.bind (h.constrainVariable v _ targetLine) fun _ => ?_
  refine h.bind (h.readVariable v) fun later => ?_
  exact h.bind (h.joinReturns _ _ _) fun _ => h.pure _

end Assigning

end Lowering

/-! ## Lists of statements -/

namespace Tree

mutual

def Stmt.defines : Stmt → List String
  | .functionDef _ name _ body _ _ => name :: Stmt.definesAll body
  | .forLoop _ _ _ body orelse | .whileLoop _ _ body orelse | .branch _ _ body orelse =>
      Stmt.definesAll body ++ Stmt.definesAll orelse
  | _ => []

def Stmt.definesAll : List Stmt → List String
  | [] => []
  | s :: rest => s.defines ++ Stmt.definesAll rest

end

end Tree

namespace Lowering

/--
A property of all steps: variables of any name are declared, and procedures and
their parameters for the functions of the given names.
-/
structure Pervasive (functions : List String) (P : ∀ {α : Type}, Lowering α → Prop) : Prop
    extends Assigning (fun _ => True) P where
  declareParameter {owner : String} (howner : owner ∈ functions) (name : String)
    (stated : Option Ty) (position : Nat) :
    P (Lowering.declareVariable name stated (some ⟨owner, position⟩))
  declareProcedure {name : String} (hname : name ∈ functions) (stated : Option Ty) :
    P (declareProcedure (some name) stated)
  constrainProcedure (p : ProcId) (ty : Ty) (line : Nat) : P (constrainProcedure p ty line)
  define (p : ProcId) (parameters : List VarId) (body : List TypedStatement) :
    P (modify (·.define p parameters body))
  inChildScope {α : Type} {step : Lowering α} : P step → P (inChildScope step)

namespace Pervasive

variable {functions : List String} {P : ∀ {α : Type}, Lowering α → Prop}
  (h : Pervasive functions P)
include h

theorem declareFunction (line : Nat) {name : String} (ps : Parameters) (decorators : List Expr)
    (returns : Option Expr) (hname : name ∈ functions) :
    P (declareFunction line name ps decorators returns) := by
  unfold Lowering.declareFunction
  split
  · exact h.refuse _ _
  · refine h.bind (h.checkParameters line name ps) fun _ => ?_
    exact h.bind (h.ofExcept _) fun stated => h.declareProcedure hname stated

theorem declareParameters {owner : String} (howner : owner ∈ functions) (position : Nat)
    (ps : List Parameter) : P (declareParameters owner position ps) := by
  induction ps generalizing position with
  | nil => exact h.pure _
  | cons p ps ih =>
      refine h.bind (h.ofExcept _) fun stated => ?_
      refine h.bind (h.declareParameter howner p.name stated position) fun v => ?_
      exact h.bind (ih (position + 1)) fun vs => h.pure _

theorem lowerFunction (line : Nat) {name : String} (ps : Parameters) (p : ProcId)
    {body : Lowering Block} (hname : name ∈ functions) (hbody : P body) :
    P (lowerFunction line name ps p body) := by
  refine h.bind (h.tell rfl) fun _ => ?_
  have hinside : P (do
      let parameters ← Lowering.declareParameters name 0 ps.positional
      let block ← body
      return (parameters, block)) :=
    h.bind (h.declareParameters hname 0 _) fun _ => h.bind hbody fun _ => h.pure _
  refine h.bind (h.inChildScope hinside) fun made => ?_
  obtain ⟨parameters, block⟩ := made
  exact h.bind (h.constrainProcedure p _ line) fun _ => h.define p _ _

theorem twoPasses {first : Lowering FirstPass} {second : List ProcId → Lowering Unit}
    (hfirst : P first) (hsecond : ∀ declared, P (second declared)) :
    P (twoPasses first second) :=
  h.bind hfirst fun pass => h.bind (hsecond pass.declared) fun _ => h.pure _

mutual

theorem lowerStmt (s : Stmt) (returns : Ty) (hnames : s.defines ⊆ functions) :
    P (lowerStmt returns s) := by
  cases s with
  | functionDef line name ps body decorators hint =>
      simp only [Lowering.lowerStmt]
      refine h.bind (h.declareFunction line ps decorators hint (hnames ?_)) fun _ => h.pure _
      simp [Stmt.defines]
  | ret line value =>
      cases value with
      | none =>
          simp only [Lowering.lowerStmt]
          exact h.bind (h.joinReturns _ _ _) fun _ => h.pure _
      | some value =>
          simp only [Lowering.lowerStmt]
          refine h.bind (h.lowerExpr value .operand) fun e => ?_
          exact h.bind (h.joinReturns _ _ _) fun _ => h.pure _
  | assign line targets value =>
      simp only [Lowering.lowerStmt]
      exact h.bind (h.assignAll value targets none fun _ _ => trivial) fun _ => h.pure _
  | augAssign line target op value =>
      simp only [Lowering.lowerStmt]
      exact h.bind (h.augment op value target) fun _ => h.pure _
  | annAssign line target hint value =>
      simp only [Lowering.lowerStmt]
      exact h.bind (h.assignHinted target hint value fun _ _ => trivial) fun _ => h.pure _
  | branch line test body orelse =>
      simp only [Stmt.defines, List.append_subset] at hnames
      simp only [Lowering.lowerStmt]
      have hbody := h.twoPasses (lowerStmts body .unknown hnames.1) (lowerBodies body hnames.1)
      have horelse := h.twoPasses (lowerStmts orelse .unknown hnames.2)
        (lowerBodies orelse hnames.2)
      refine h.bind (h.lowerExpr test .operand) fun guard => ?_
      refine h.bind hbody fun yes => h.bind horelse fun no => ?_
      refine h.bind (h.joinReturns _ _ _) fun _ => ?_
      exact h.bind (h.joinReturns _ _ _) fun _ => h.pure _
  | whileLoop line test body orelse =>
      simp only [Stmt.defines, List.append_subset] at hnames
      simp only [Lowering.lowerStmt]
      split
      · have hbody := h.twoPasses (lowerStmts body .unknown hnames.1) (lowerBodies body hnames.1)
        refine h.bind (h.lowerExpr test .operand) fun guard => h.bind hbody fun block => ?_
        exact h.bind (h.joinReturns _ _ _) fun _ => h.pure _
      · exact h.refuse _ _
  | forLoop line target iter body orelse =>
      simp only [Stmt.defines, List.append_subset] at hnames
      simp only [Lowering.lowerStmt]
      split
      · split
        · have hbody := h.twoPasses (lowerStmts body .unknown hnames.1)
            (lowerBodies body hnames.1)
          refine h.bind ?_ fun _ => h.pure _
          exact h.countingLoop line _ _ returns trivial (h.lowerExpr iter .operand) hbody
        · exact h.fail _ _
      · exact h.refuse _ _
  | raise line cause =>
      cases cause with
      | none =>
          simp only [Lowering.lowerStmt]
          exact h.bind (h.tell rfl) fun _ => h.pure _
      | some cause =>
          simp only [Lowering.lowerStmt]
          exact h.refuse _ _
  | expression line value =>
      simp only [Lowering.lowerStmt]
      exact h.bind (h.lowerStandAlone line value) fun _ => h.pure _
  | other line kind =>
      simp only [Lowering.lowerStmt]
      exact h.bind (h.lowerOther line kind) fun _ => h.pure _

theorem lowerStmts (ss : List Stmt) (returns : Ty) (hnames : Stmt.definesAll ss ⊆ functions) :
    P (lowerStmts returns ss) := by
  cases ss with
  | nil =>
      simp only [Lowering.lowerStmts]
      exact h.pure _
  | cons s ss =>
      simp only [Stmt.definesAll, List.append_subset] at hnames
      simp only [Lowering.lowerStmts]
      refine h.bind (h.tell rfl) fun _ => h.bind (lowerStmt s returns hnames.1) fun here => ?_
      exact h.bind (lowerStmts ss here.returns hnames.2) fun there => h.pure _

theorem lowerBodies (ss : List Stmt) (hnames : Stmt.definesAll ss ⊆ functions)
    (declared : List ProcId) : P (lowerBodies ss declared) := by
  cases ss with
  | nil =>
      simp only [Lowering.lowerBodies]
      exact h.pure _
  | cons s ss =>
      simp only [Stmt.definesAll, List.append_subset] at hnames
      cases s with
      | functionDef line name ps body decorators hint =>
          simp only [Stmt.defines, List.cons_subset] at hnames
          cases declared with
          | nil =>
              simp only [Lowering.lowerBodies]
              exact lowerBodies ss hnames.2 []
          | cons p declared =>
              simp only [Lowering.lowerBodies]
              have hbody := h.twoPasses (lowerStmts body .unknown hnames.1.2)
                (lowerBodies body hnames.1.2)
              refine h.bind (h.lowerFunction line ps p hnames.1.1 hbody) fun _ => ?_
              exact lowerBodies ss hnames.2 declared
      | _ =>
          simp only [Lowering.lowerBodies]
          exact lowerBodies ss hnames.2 declared

end

theorem lowerBlock (body : List Stmt) (hnames : Stmt.definesAll body ⊆ functions) :
    P (lowerBlock body) :=
  h.twoPasses (h.lowerStmts body .unknown hnames) (h.lowerBodies body hnames)

end Pervasive

end Lowering

end TypedPseudocode
