import TypedPseudocode.Lowering.Module
import TypedPseudocode.Proofs.Tables

/-!
Successful steps.

`Yields step t a t'` says that `step`, taken on the table `t`, succeeds with `a`
and leaves `t'` behind.  A step that is put together succeeds exactly when its
parts do, one after the other, so each equivalence below takes one construct of
lowering apart.
-/

namespace TypedPseudocode.Lowering

open Code TypedPseudocode.Tree

variable {α β : Type} {t t' : Table}

def Yields (step : Lowering α) (t : Table) (a : α) (t' : Table) : Prop :=
  (step t).result = .ok a ∧ (step t).table = t'

/-! ## Elementary steps -/

@[simp] theorem yields_pure {a b : α} :
    Yields (pure a) t b t' ↔ a = b ∧ t = t' := by
  simp [Yields, pure]

@[simp] theorem yields_return {a b : α} :
    Yields (Pure.pure a) t b t' ↔ a = b ∧ t = t' :=
  yields_pure

@[simp] theorem yields_bind {step : Lowering α} {next : α → Lowering β} {b : β} {t'' : Table} :
    Yields (step >>= next) t b t'' ↔
      ∃ a t', Yields step t a t' ∧ Yields (next a) t' b t'' := by
  rcases h : step t with ⟨result, middle, events⟩
  cases result with
  | error d => simp [Yields, bind_run_error h, h]
  | ok a =>
      simp only [Yields, bind_run_ok h, h, Except.ok.injEq]
      constructor
      · intro hnext
        exact ⟨a, middle, ⟨rfl, rfl⟩, hnext⟩
      · rintro ⟨_, _, ⟨rfl, rfl⟩, hnext⟩
        exact hnext

@[simp] theorem yields_fail {fault : Fault} {line : Nat} {a : α} :
    ¬ Yields (fail fault line) t a t' := by
  simp [Yields, fail]

@[simp] theorem yields_refuse {construct : Construct} {line : Nat} {a : α} :
    ¬ Yields (refuse construct line) t a t' :=
  yields_fail

@[simp] theorem yields_ofExcept {result : Except Diagnostic α} {a : α} :
    Yields (ofExcept result) t a t' ↔ result = .ok a ∧ t = t' := by
  simp [Yields, ofExcept]

@[simp] theorem yields_gets {f : Table → α} {a : α} :
    Yields (gets f) t a t' ↔ f t = a ∧ t = t' := by
  simp [Yields, gets]

@[simp] theorem yields_tell {event : Event} {u : Unit} :
    Yields (tell event) t u t' ↔ t = t' := by
  simp [Yields, tell]

@[simp] theorem yields_modify {f : Table → Table} {u : Unit} :
    Yields (modify f) t u t' ↔ f t = t' := by
  simp [Yields, modify]

@[simp] theorem yields_ofTable {operation : Table → Except Diagnostic α × Table} {a : α} :
    Yields (ofTable operation) t a t' ↔ operation t = (.ok a, t') := by
  rw [Prod.ext_iff]
  rfl

/-! ## Steps on the table -/

@[simp] theorem yields_declareProcedure {name : String} {stated : Option Ty} {p : ProcId} :
    Yields (declareProcedure (some name) stated) t p t' ↔
      ⟨t.procedures.length⟩ = p ∧ t.withProcedure name stated = t' := by
  simp [Yields, declareProcedure, Table.declareProcedure_eq]

@[simp] theorem yields_declareVariable {name : String} {stated : Option Ty}
    {slot : Option Slot} {v : VarId} :
    Yields (declareVariable name stated slot) t v t' ↔
      ⟨t.vars.length⟩ = v ∧ t.withVariable name stated slot = t' := by
  simp [Yields, declareVariable, Table.declareVariable_eq]

@[simp] theorem yields_lookupVariable {name : String} {reach : Reach} {line : Nat}
    {v : Option VarId} :
    Yields (lookupVariable name reach line) t v t' ↔
      t.lookup name reach = v.map .variable ∧ t = t' := by
  simp only [Yields, lookupVariable, Table.lookupVariable]
  rcases t.lookup name reach with _ | _ | w <;> cases v <;> simp [eq_comm]

theorem yields_lookupCalled {name : String} {reach : Reach} {arguments : List Ty} {line : Nat}
    {found : Option ProcId} :
    Yields (lookupCalled name reach arguments line) t found t' ↔
      t.lookup name reach = found.map .procedure ∧
        t' = found.elim t (t.reach name · arguments) := by
  simp only [Yields, lookupCalled, Table.lookupCalled]
  rcases t.lookup name reach with _ | p | w <;> cases found <;>
    simp [Table.reach, eq_comm]
  rintro rfl
  rfl

@[simp] theorem yields_constrainVariable {v : VarId} {ty unified : Ty} {line : Nat} :
    Yields (constrainVariable v ty line) t unified t' ↔
      (t.tyOf v).unify ty = some unified ∧ t.raise v unified = t' := by
  simp only [constrainVariable, yields_ofTable, Table.constrainVariable_eq]
  rcases (t.tyOf v).unify ty with _ | known
  · simp
  · simp only [Except.ok.injEq, Prod.mk.injEq, Option.some.injEq]
    constructor
    · rintro ⟨rfl, rfl⟩
      exact ⟨rfl, rfl⟩
    · rintro ⟨rfl, rfl⟩
      exact ⟨rfl, rfl⟩

@[simp] theorem yields_constrainProcedure {p : ProcId} {ty unified : Ty} {line : Nat} :
    Yields (constrainProcedure p ty line) t unified t' ↔
      (t.procAt p).ty.unify ty = some unified ∧
        t.updateProcedure p ({ · with ty := unified }) = t' := by
  simp only [constrainProcedure, yields_ofTable, Table.constrainProcedure]
  rcases (t.procAt p).ty.unify ty with _ | known
  · simp
  · simp only [Except.ok.injEq, Prod.mk.injEq, Option.some.injEq]
    constructor
    · rintro ⟨rfl, rfl⟩
      exact ⟨rfl, rfl⟩
    · rintro ⟨rfl, rfl⟩
      exact ⟨rfl, rfl⟩

@[simp] theorem yields_readVariable {v : VarId} {e : TypedExpression} :
    Yields (readVariable v) t e t' ↔ .read v (t.tyOf v) = e ∧ t = t' :=
  yields_gets

@[simp] theorem yields_inChildScope {step : Lowering α} {a : α} :
    Yields (inChildScope step) t a t' ↔ ∃ t₁, Yields step t.enter a t₁ ∧ t₁.leave = t' := by
  simp only [Yields, inChildScope]
  constructor
  · rintro ⟨hresult, rfl⟩
    exact ⟨_, ⟨hresult, rfl⟩, rfl⟩
  · rintro ⟨_, ⟨hresult, rfl⟩, rfl⟩
    exact ⟨hresult, rfl⟩

end TypedPseudocode.Lowering
