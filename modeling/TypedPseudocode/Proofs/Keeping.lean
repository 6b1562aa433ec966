import TypedPseudocode.Proofs.Composition
import TypedPseudocode.Proofs.Passes

/-!
What lowering may change in the symbol table.

Tables only grow, by the names that the source binds and by new declarations.
This holds whether lowering succeeds or fails, and wherever it fails: each step
keeps the relation, however it ends, and so does every sequence of steps.
-/

namespace TypedPseudocode.Lowering

open Code TypedPseudocode.Tree

variable {α β : Type} {names names' : List String} {opened opened' : List ProcId}

/-! ## Steps that keep something -/

/-- However a step ends, the tables before and after it are so related. -/
def Keeps (R : Table → Table → Prop) (step : Lowering α) : Prop := ∀ t, R t (step t).table

theorem related_bind {R : Table → Table → Prop} [IsTrans Table R] {step : Lowering α}
    {next : α → Lowering β} {t : Table} (h : R t (step t).table)
    (h' : ∀ a t', Yields step t a t' → R t' (next a t').table) :
    R t ((step >>= next) t).table := by
  rcases hstep : step t with ⟨result, t', events⟩
  rw [hstep] at h
  cases result with
  | error d =>
      rw [bind_run_error hstep]
      exact h
  | ok a =>
      rw [bind_run_ok hstep]
      exact IsTrans.trans _ _ _ h (h' a t' ⟨by rw [hstep], by rw [hstep]⟩)

theorem Keeps.bind {R : Table → Table → Prop} [IsTrans Table R] {step : Lowering α}
    {next : α → Lowering β} (h : Keeps R step)
    (h' : ∀ t a t', Yields step t a t' → R t' (next a t').table) : Keeps R (step >>= next) :=
  fun t => related_bind (h t) (h' t)

theorem Keeps.andThen {R : Table → Table → Prop} [IsTrans Table R] {step : Lowering α}
    {next : α → Lowering β} (h : Keeps R step) (h' : ∀ a, Keeps R (next a)) :
    Keeps R (step >>= next) :=
  h.bind fun _ a t' _ => h' a t'

theorem Keeps.mono {step : Lowering α} (h : Keeps (Table.Grows names opened) step)
    (hnames : names ⊆ names') (hopened : opened ⊆ opened') :
    Keeps (Table.Grows names' opened') step :=
  fun t => (h t).mono hnames hopened

theorem keeps_of_still {step : Lowering α} (h : ∀ t, (step t).table = t) :
    Keeps (Table.Grows names opened) step := by
  intro t
  rw [h t]
  exact .refl names opened t

section Elementary

theorem keeps_lookupCalled (name : String) (reach : Reach) (arguments : List Ty) (line : Nat) :
    Keeps (Table.Grows names opened) (lookupCalled name reach arguments line) := by
  intro t
  simp only [lookupCalled, Table.lookupCalled]
  cases t.lookup name reach with
  | none => exact .refl names opened t
  | some d =>
      cases d with
      | procedure p => exact t.grows_reach names opened name p arguments
      | «variable» v => exact .refl names opened t

theorem table_constrainVariable (v : VarId) (ty : Ty) (line : Nat) (t : Table) :
    (constrainVariable v ty line t).table = t ∨ ∃ unified,
      (t.tyOf v).unify ty = some unified ∧
        (constrainVariable v ty line t).table = t.raise v unified := by
  cases hunify : (t.tyOf v).unify ty with
  | some unified =>
      have hyields : Yields (constrainVariable v ty line) t unified (t.raise v unified) :=
        yields_constrainVariable.mpr ⟨hunify, rfl⟩
      exact .inr ⟨unified, rfl, hyields.2⟩
  | none =>
      simp only [Declarations.tyOf] at hunify
      exact .inl (by
        simp [constrainVariable, ofTable, Table.constrainVariable, TypeStore.constrain, hunify])

theorem keeps_constrainVariable (v : VarId) (ty : Ty) (line : Nat) :
    Keeps (Table.Grows names opened) (constrainVariable v ty line) := by
  intro t
  rcases table_constrainVariable v ty line t with hsame | ⟨unified, hunify, hraised⟩
  · rw [hsame]
    exact .refl names opened t
  · rw [hraised]
    exact t.grows_raise names opened hunify

theorem keeps_constrainProcedure {p : ProcId} (hp : p ∈ opened) (ty : Ty) (line : Nat) :
    Keeps (Table.Grows names opened) (constrainProcedure p ty line) := by
  intro t
  cases hunify : (t.procAt p).ty.unify ty with
  | some unified =>
      have hyields : Yields (constrainProcedure p ty line) t unified _ :=
        yields_constrainProcedure.mpr ⟨hunify, rfl⟩
      rw [hyields.2]
      exact t.grows_updateProcedure names opened hp (fun _ => rfl) fun _ => rfl
  | none =>
      have hsame : (constrainProcedure p ty line t).table = t := by
        simp [constrainProcedure, ofTable, Table.constrainProcedure, hunify]
      rw [hsame]
      exact .refl names opened t

theorem keeps_define {p : ProcId} (hp : p ∈ opened) (parameters : List VarId)
    (body : List TypedStatement) :
    Keeps (Table.Grows names opened) (modify (·.define p parameters body)) :=
  fun t => t.grows_updateProcedure names opened hp (fun _ => rfl) fun _ => rfl

theorem keeps_declareVariable {name : String} (hname : name ∈ names) (stated : Option Ty)
    (slot : Option Slot) : Keeps (Table.Grows names opened) (declareVariable name stated slot) :=
  fun t => t.grows_withVariable names opened hname stated slot

theorem keeps_declareProcedure {name : String} (hname : name ∈ names) (stated : Option Ty) :
    Keeps (Table.Grows names opened) (declareProcedure (some name) stated) :=
  fun t => t.grows_withProcedure names opened hname stated

theorem keeps_inChildScope {step : Lowering α} (h : Keeps (Table.Grows names opened) step) :
    Keeps (Table.Grows names' opened) (inChildScope step) :=
  fun t => (h t.enter).leave.mono (List.nil_subset _) (List.Subset.refl _)

end Elementary

theorem assigning_grows : Assigning (· ∈ names) (Keeps (Table.Grows names opened)) where
  ofExcept _ := keeps_of_still fun _ => rfl
  bind := Keeps.andThen
  tell _ := keeps_of_still fun _ => rfl
  gets _ := keeps_of_still fun _ => rfl
  lookupVariable _ _ _ := keeps_of_still fun _ => rfl
  lookupCalled := keeps_lookupCalled
  constrainVariable := keeps_constrainVariable
  declareVariable hname stated := keeps_declareVariable hname stated none

/-! ## Functions -/

theorem keeps_declareFunction (line : Nat) {name : String} (ps : Parameters)
    (decorators : List Expr) (returns : Option Expr) (hname : name ∈ names) :
    Keeps (Table.Grows names opened) (declareFunction line name ps decorators returns) := by
  unfold declareFunction
  split
  · exact assigning_grows.refuse _ _
  · refine (assigning_grows.checkParameters line name ps).andThen fun _ => ?_
    exact (assigning_grows.ofExcept _).andThen fun stated => keeps_declareProcedure hname stated

theorem keeps_declareParameters (owner : String) (position : Nat) (ps : List Parameter)
    (hnames : ps.map (·.name) ⊆ names) :
    Keeps (Table.Grows names opened) (declareParameters owner position ps) := by
  induction ps generalizing position with
  | nil => exact assigning_grows.pure _
  | cons p ps ih =>
      simp only [List.map_cons, List.cons_subset] at hnames
      refine (assigning_grows.ofExcept _).andThen fun stated => ?_
      refine (keeps_declareVariable hnames.1 stated _).andThen fun v => ?_
      exact (ih (position + 1) hnames.2).andThen fun vs => assigning_grows.pure _

theorem keeps_lowerFunction (line : Nat) (name : String) (ps : Parameters) {p : ProcId}
    {body : Lowering Block} {inner : List String} (hp : p ∈ opened)
    (hbody : Keeps (Table.Grows inner opened) body) :
    Keeps (Table.Grows names opened) (lowerFunction line name ps p body) := by
  refine (assigning_grows.tell rfl).andThen fun _ => ?_
  have hinside : Keeps (Table.Grows (ps.positional.map (·.name) ++ inner) opened) (do
      let parameters ← declareParameters name 0 ps.positional
      let block ← body
      return (parameters, block)) := by
    refine (keeps_declareParameters name 0 _ (List.subset_append_left _ _)).andThen fun vs => ?_
    refine (hbody.mono (List.subset_append_right _ _) (List.Subset.refl _)).andThen fun _ => ?_
    exact assigning_grows.pure _
  refine (keeps_inChildScope hinside).andThen fun (parameters, block) => ?_
  exact (keeps_constrainProcedure hp _ line).andThen fun _ => keeps_define hp _ _

/-! ## Both passes -/

/-- The procedures that the first pass declares are new, so the second may complete them. -/
theorem keeps_twoPasses {first : Lowering FirstPass} {second : List ProcId → Lowering Unit}
    (hfirst : Keeps (Table.Grows names []) first)
    (hfresh : ∀ {t pass t'}, Yields first t pass t' →
      ∀ p ∈ pass.declared, t.procedures.length ≤ p.index)
    (hsecond : ∀ declared, Keeps (Table.Grows [] declared) (second declared)) :
    Keeps (Table.Grows names []) (twoPasses first second) := by
  intro t
  rcases hstep : first t with ⟨result, t', events⟩
  have hbefore : Table.Grows names [] t t' := by
    have hkeeps := hfirst t
    rwa [hstep] at hkeeps
  unfold twoPasses
  cases result with
  | error d =>
      rw [bind_run_error hstep]
      exact hbefore
  | ok pass =>
      rw [bind_run_ok hstep]
      have hyields : Yields first t pass t' := ⟨by rw [hstep], by rw [hstep]⟩
      have hafter := ((hsecond pass.declared).andThen fun _ =>
        assigning_grows.pure pass.toBlock) t'
      exact hbefore.trans_fresh (hafter.mono (List.nil_subset _) (List.Subset.refl _))
        fun p hp => .inr (hfresh hyields p hp)

theorem declared_lowerStmt {s : Stmt} {returns : Ty} {t t' : Table} {pass : FirstPass}
    (h : Yields (lowerStmt returns s) t pass t') :
    ∀ p ∈ pass.declared, p = ⟨t.procedures.length⟩ := by
  let state : State :=
    ⟨t, { Frame.start none [] none with block := ⟨[], returns⟩ }, [], [], []⟩
  obtain ⟨-, -, -, -, -, hplaces, -⟩ := lowers_lowerStmt (s := state) s h
  rw [hplaces]
  cases s <;> simp [Stmt.outline, Outline.twice, Outline.append, state]

mutual

theorem keeps_lowerStmt (s : Stmt) (returns : Ty) :
    Keeps (Table.Grows s.binds []) (lowerStmt returns s) := by
  cases s with
  | functionDef line name ps body decorators hint =>
      simp only [lowerStmt]
      refine (keeps_declareFunction line ps decorators hint ?_).andThen fun _ =>
        assigning_grows.pure _
      simp [Stmt.binds]
  | ret line value =>
      cases value with
      | none =>
          simp only [lowerStmt]
          exact (assigning_grows.joinReturns _ _ _).andThen fun _ => assigning_grows.pure _
      | some value =>
          simp only [lowerStmt]
          refine (assigning_grows.lowerExpr value .operand).andThen fun e => ?_
          exact (assigning_grows.joinReturns _ _ _).andThen fun _ => assigning_grows.pure _
  | assign line targets value =>
      simp only [lowerStmt]
      refine (assigning_grows.assignAll value targets none ?_).andThen fun _ =>
        assigning_grows.pure _
      simp [Stmt.binds]
  | augAssign line target op value =>
      simp only [lowerStmt]
      exact (assigning_grows.augment op value target).andThen fun _ => assigning_grows.pure _
  | annAssign line target hint value =>
      simp only [lowerStmt]
      refine (assigning_grows.assignHinted target hint value ?_).andThen fun _ =>
        assigning_grows.pure _
      simp [Stmt.binds]
  | branch line test body orelse =>
      simp only [lowerStmt]
      have hbody := keeps_twoPasses (keeps_lowerStmts body .unknown)
        (declared_lowerStmts body) (keeps_lowerBodies body)
      have horelse := keeps_twoPasses (keeps_lowerStmts orelse .unknown)
        (declared_lowerStmts orelse) (keeps_lowerBodies orelse)
      refine (assigning_grows.lowerExpr test .operand).andThen fun guard => ?_
      refine (hbody.mono (List.subset_append_left _ _) (List.Subset.refl _)).andThen fun yes => ?_
      refine (horelse.mono (List.subset_append_right _ _) (List.Subset.refl _)).andThen
        fun no => ?_
      refine (assigning_grows.joinReturns _ _ _).andThen fun _ => ?_
      exact (assigning_grows.joinReturns _ _ _).andThen fun _ => assigning_grows.pure _
  | whileLoop line test body orelse =>
      simp only [lowerStmt]
      split
      · have hbody := keeps_twoPasses (keeps_lowerStmts body .unknown)
          (declared_lowerStmts body) (keeps_lowerBodies body)
        refine (assigning_grows.lowerExpr test .operand).andThen fun guard => ?_
        refine (hbody.mono (List.subset_append_left _ _) (List.Subset.refl _)).andThen
          fun block => ?_
        exact (assigning_grows.joinReturns _ _ _).andThen fun _ => assigning_grows.pure _
      · exact assigning_grows.refuse _ _
  | forLoop line target iter body orelse =>
      simp only [lowerStmt]
      split
      · split
        · rename_i targetLine name ctx
          have hbody := keeps_twoPasses (keeps_lowerStmts body .unknown)
            (declared_lowerStmts body) (keeps_lowerBodies body)
          refine (assigning_grows.countingLoop line targetLine iter.line returns ?_
            (assigning_grows.lowerExpr iter .operand) (hbody.mono ?_ (List.Subset.refl _))).andThen
              fun _ => assigning_grows.pure _
          · simp [Stmt.binds, Expr.identifier?]
          · exact List.Subset.trans (List.subset_append_left _ _) (List.subset_append_right _ _)
        · exact assigning_grows.fail _ _
      · exact assigning_grows.refuse _ _
  | raise line cause =>
      cases cause with
      | none =>
          simp only [lowerStmt]
          exact (assigning_grows.tell rfl).andThen fun _ => assigning_grows.pure _
      | some cause =>
          simp only [lowerStmt]
          exact assigning_grows.refuse _ _
  | expression line value =>
      simp only [lowerStmt]
      exact (assigning_grows.lowerStandAlone line value).andThen fun _ => assigning_grows.pure _
  | other line kind =>
      simp only [lowerStmt]
      exact (assigning_grows.lowerOther line kind).andThen fun _ => assigning_grows.pure _

theorem keeps_lowerStmts (ss : List Stmt) (returns : Ty) :
    Keeps (Table.Grows (Stmt.bindsAll ss) []) (lowerStmts returns ss) := by
  cases ss with
  | nil =>
      simp only [lowerStmts]
      exact assigning_grows.pure _
  | cons s ss =>
      simp only [lowerStmts, Stmt.bindsAll]
      refine (assigning_grows.tell rfl).andThen fun _ => ?_
      refine ((keeps_lowerStmt s returns).mono (List.subset_append_left _ _)
        (List.Subset.refl _)).andThen fun here => ?_
      refine ((keeps_lowerStmts ss here.returns).mono (List.subset_append_right _ _)
        (List.Subset.refl _)).andThen fun _ => assigning_grows.pure _

theorem declared_lowerStmts (ss : List Stmt) {returns : Ty} {t : Table} {pass : FirstPass}
    {t' : Table} (h : Yields (lowerStmts returns ss) t pass t') :
    ∀ p ∈ pass.declared, t.procedures.length ≤ p.index := by
  cases ss with
  | nil =>
      simp only [lowerStmts, yields_pure] at h
      obtain ⟨rfl, rfl⟩ := h
      exact nofun
  | cons s ss =>
      simp only [lowerStmts, yields_bind, yields_tell, yields_return] at h
      obtain ⟨_, _, rfl, here, t₁, hhere, there, t₂, hthere, rfl, rfl⟩ := h
      have hlength := (keeps_lowerStmt s returns t).procedures_length
      rw [hhere.2] at hlength
      intro p hp
      rcases List.mem_append.mp hp with hp | hp
      · rw [declared_lowerStmt hhere p hp]
      · exact hlength.trans (declared_lowerStmts ss hthere p hp)

theorem keeps_lowerBodies (ss : List Stmt) (declared : List ProcId) :
    Keeps (Table.Grows [] declared) (lowerBodies ss declared) := by
  cases ss with
  | nil =>
      simp only [lowerBodies]
      exact assigning_grows.pure _
  | cons s ss =>
      cases s with
      | functionDef line name ps body decorators hint =>
          cases declared with
          | nil =>
              simp only [lowerBodies]
              exact keeps_lowerBodies ss []
          | cons p declared =>
              simp only [lowerBodies]
              have hbody := keeps_twoPasses (keeps_lowerStmts body .unknown)
                (declared_lowerStmts body) (keeps_lowerBodies body)
              refine (keeps_lowerFunction line name ps List.mem_cons_self
                (hbody.mono (List.Subset.refl _) (List.nil_subset _))).andThen fun _ => ?_
              exact (keeps_lowerBodies ss declared).mono (List.Subset.refl _)
                (List.subset_cons_self _ _)
      | _ =>
          simp only [lowerBodies]
          exact keeps_lowerBodies ss declared

end

theorem keeps_lowerBlock (body : List Stmt) :
    Keeps (Table.Grows (Stmt.bindsAll body) []) (lowerBlock body) :=
  keeps_twoPasses (keeps_lowerStmts body .unknown) (declared_lowerStmts body)
    (keeps_lowerBodies body)

end TypedPseudocode.Lowering
