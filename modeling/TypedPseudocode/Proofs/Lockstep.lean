import TypedPseudocode.Proofs.Nodes
import TypedPseudocode.Proofs.ParallelRuns

/-!
Two runs in lockstep.

Two tables are alike if they differ in types and signatures only, and two steps go
in lockstep if from tables that are alike they end alike: both fail for the same
reason, or both succeed and agree on what they return.  A conflict of types in either
of them excuses both.
-/

namespace TypedPseudocode

open Code TypedPseudocode.Tree

/-! ## Tables that differ in types only -/

def Procedure.bare (p : Procedure) :
    Nat × Option String × List VarId × List (Statement VarId VarId ProcId (Option Ty)) × Bool :=
  (p.id, p.name, p.parameters, p.body.map (Statement.seen false), p.called)

/-- Everything but types and signatures is the same. -/
structure Table.Alike (t t' : Table) : Prop where
  procedures : t.procedures.map Procedure.bare = t'.procedures.map Procedure.bare
  vars : t.vars = t'.vars
  source : t.source = t'.source
  scope : t.scope = t'.scope
  outer : t.outer = t'.outer

namespace Table.Alike

variable {t t' : Table}

theorem empty (signatures signatures' : SignatureTable) :
    (Table.empty signatures).Alike (Table.empty signatures') :=
  ⟨rfl, rfl, rfl, rfl, rfl⟩

theorem lookup_eq (h : t.Alike t') (name : String) (reach : Reach) :
    t.lookup name reach = t'.lookup name reach := by
  cases reach with
  | innermost => rw [Table.lookup, Table.lookup, h.scope]
  | enclosing => rw [Table.lookup, Table.lookup, h.scope, h.outer]

theorem length_procedures (h : t.Alike t') : t.procedures.length = t'.procedures.length := by
  simpa using congrArg List.length h.procedures

theorem raise (h : t.Alike t') (v : VarId) (ty ty' : Ty) :
    (t.raise v ty).Alike (t'.raise v ty') :=
  ⟨h.procedures, h.vars, h.source, h.scope, h.outer⟩

theorem withVariable (h : t.Alike t') (name : String) (stated stated' : Option Ty)
    (slot : Option Slot) :
    (t.withVariable name stated slot).Alike (t'.withVariable name stated' slot) where
  procedures := h.procedures
  vars := by simp [h.vars, h.source]
  source := by simp [h.source]
  scope := by simp [h.scope, h.vars]
  outer := h.outer

theorem declareProcedure (h : t.Alike t') (name : Option String) (stated : Option Ty) :
    (t.declareProcedure name stated).1 = (t'.declareProcedure name stated).1 ∧
      (t.declareProcedure name stated).2.Alike (t'.declareProcedure name stated).2 := by
  have hlength := h.length_procedures
  have hprocedures :
      (t.procedures ++ [Procedure.mk t.source name (t.resultSeed name stated) [] [] false]).map
        Procedure.bare =
      (t'.procedures ++ [Procedure.mk t'.source name (t'.resultSeed name stated) [] [] false]).map
        Procedure.bare := by
    simp [h.procedures, h.source, Procedure.bare]
  cases name with
  | none => exact ⟨by simp [Table.declareProcedure, hlength],
      ⟨hprocedures, h.vars, congrArg (· + 1) h.source, h.scope, h.outer⟩⟩
  | some name =>
      refine ⟨by simp [Table.declareProcedure, hlength],
        ⟨hprocedures, h.vars, congrArg (· + 1) h.source, ?_, h.outer⟩⟩
      simp [Table.declareProcedure, Table.bind, h.scope, hlength]

theorem updateProcedure (h : t.Alike t') (p : ProcId) {f f' : Procedure → Procedure}
    (hf : ∀ q q' : Procedure, q.bare = q'.bare → (f q).bare = (f' q').bare) :
    (t.updateProcedure p f).Alike (t'.updateProcedure p f') := by
  refine ⟨List.ext_getElem? fun i => ?_, h.vars, h.source, h.scope, h.outer⟩
  have hget := congrArg (·[i]?) h.procedures
  simp only [List.getElem?_map] at hget
  simp only [Table.updateProcedure, List.getElem?_map, List.getElem?_modify]
  cases hq : t.procedures[i]? with
  | none =>
      rw [hq] at hget
      rw [Option.map_eq_none_iff.mp hget.symm]
      rfl
  | some q =>
      rw [hq] at hget
      obtain ⟨q', hq', hbare⟩ := Option.map_eq_some_iff.mp hget.symm
      rw [hq']
      by_cases hi : p.index = i
      · simp [hi, hf q q' hbare.symm]
      · simp [hi, hbare]

theorem reach (h : t.Alike t') (name : String) (p : ProcId) (arguments arguments' : List Ty) :
    (t.reach name p arguments).Alike (t'.reach name p arguments') := by
  have hcalled : (t.updateProcedure p ({ · with called := true })).Alike
      (t'.updateProcedure p ({ · with called := true })) :=
    h.updateProcedure p fun q q' hbare => by
      simp_all [Procedure.bare]
  refine ⟨?_, ?_, ?_, ?_, ?_⟩
  · rw [Table.procedures_reach, Table.procedures_reach]
    exact hcalled.procedures
  · simpa using h.vars
  · simpa using h.source
  · simpa using h.scope
  · simpa using h.outer

theorem enter (h : t.Alike t') : t.enter.Alike t'.enter :=
  ⟨h.procedures, h.vars, h.source, rfl, congrArg₂ List.cons h.scope h.outer⟩

theorem leave (h : t.Alike t') : t.leave.Alike t'.leave := by
  have houter := h.outer
  unfold Table.leave
  cases hcase : t.outer with
  | nil =>
      rw [hcase] at houter
      simpa [← houter] using h
  | cons scope outer =>
      rw [hcase] at houter
      simp only [← houter]
      exact ⟨h.procedures, h.vars, h.source, rfl, rfl⟩

theorem called_eq (h : t.Alike t') : t.called = t'.called := by
  have hcalled (t : Table) : t.called =
      (t.procedures.map Procedure.bare).filterMap fun q => if q.2.2.2.2 then q.2.1 else none := by
    rw [Table.called, List.filterMap_map, List.filterMap_filter]
    rfl
  rw [hcalled, hcalled, h.procedures]

end Table.Alike

/-! ## Steps in lockstep -/

namespace Lowering

variable {α β : Type}

/-- Two outcomes agree, unless types without a common upper bound ended one of them. -/
inductive Agree (R : α → α → Prop) (o o' : Outcome α) : Prop
  | conflict {d : Diagnostic} (h : o.result = .error d ∨ o'.result = .error d)
      (hd : d.fault.isConflict)
  | failed {d : Diagnostic} (h : o.result = .error d) (h' : o'.result = .error d)
  | done {a a' : α} (h : o.result = .ok a) (h' : o'.result = .ok a') (hR : R a a')
      (htables : o.table.Alike o'.table)

def Lockstep (R : α → α → Prop) (step step' : Lowering α) : Prop :=
  ∀ t t' : Table, t.Alike t' → Agree R (step t) (step' t')

namespace Lockstep

variable {R : α → α → Prop} {S : β → β → Prop} {step step' : Lowering α}

protected theorem pure {a a' : α} (h : R a a') : Lockstep R (Lowering.pure a) (Lowering.pure a') :=
  fun _ _ htables => .done rfl rfl h htables

protected theorem bind {next next' : α → Lowering β} (h : Lockstep R step step')
    (hnext : ∀ a a', R a a' → Lockstep S (next a) (next' a')) :
    Lockstep S (step >>= next) (step' >>= next') := by
  intro t t' htables
  have herror {step : Lowering α} {next : α → Lowering β} {t : Table} {d : Diagnostic}
      (h : (step t).result = .error d) : ((step >>= next) t).result = .error d := by
    have hstep : step t = ⟨.error d, (step t).table, (step t).events⟩ := by
      rw [← h]
    rw [bind_run_error hstep]
  have hok {step : Lowering α} {t : Table} {a : α} (h : (step t).result = .ok a) :
      step t = ⟨.ok a, (step t).table, (step t).events⟩ := by
    rw [← h]
  cases h t t' htables with
  | conflict h hd => exact .conflict (h.imp herror herror) hd
  | failed h h' => exact .failed (herror h) (herror h')
  | done h h' hR hafter =>
      rw [bind_run_ok (hok h), bind_run_ok (hok h')]
      cases hnext _ _ hR _ _ hafter with
      | conflict h hd => exact .conflict h hd
      | failed h h' => exact .failed h h'
      | done h h' hS hlast => exact .done h h' hS hlast

protected theorem fail (fault : Fault) (line : Nat) :
    Lockstep R (fail fault line) (fail fault line) :=
  fun _ _ _ => .failed rfl rfl

theorem ofExcept_mapError {result result' : Except Ty.Conflict Ty} (site : Site) (line : Nat) :
    Lockstep (SameTy false) (ofExcept (result.mapError (Diagnostic.conflict site · line)))
      (ofExcept (result'.mapError (Diagnostic.conflict site · line))) := by
  intro t t' htables
  cases result with
  | error _ => exact .conflict (.inl rfl) rfl
  | ok a =>
      cases result' with
      | error _ => exact .conflict (.inr rfl) rfl
      | ok a' => exact .done rfl rfl nofun htables

protected theorem gets {f f' : Table → α} (h : ∀ t t' : Table, t.Alike t' → R (f t) (f' t')) :
    Lockstep R (gets f) (gets f') :=
  fun t t' htables => .done rfl rfl (h t t' htables) htables

protected theorem tell (event event' : Event) : Lockstep Any (tell event) (tell event') :=
  fun _ _ htables => .done rfl rfl trivial htables

protected theorem modify {f f' : Table → Table}
    (h : ∀ t t' : Table, t.Alike t' → (f t).Alike (f' t')) :
    Lockstep Any (modify f) (modify f') :=
  fun t t' htables => .done rfl rfl trivial (h t t' htables)

/-! ### Steps on the table -/

protected theorem declareProcedure (name : Option String) (stated : Option Ty) :
    Lockstep Eq (declareProcedure name stated) (declareProcedure name stated) := by
  intro t t' htables
  obtain ⟨hid, hafter⟩ := htables.declareProcedure name stated
  exact .done rfl rfl hid hafter

protected theorem declareVariable (name : String) (stated stated' : Option Ty)
    (slot : Option Slot) :
    Lockstep Eq (declareVariable name stated slot) (declareVariable name stated' slot) := by
  intro t t' htables
  have hid : (⟨t.vars.length⟩ : VarId) = ⟨t'.vars.length⟩ := by
    rw [htables.vars]
  exact .done rfl rfl hid (htables.withVariable name stated stated' slot)

protected theorem lookupVariable (name : String) (reach : Reach) (line : Nat) :
    Lockstep Eq (lookupVariable name reach line) (lookupVariable name reach line) := by
  intro t t' htables
  have hsame : t.lookupVariable name reach line = t'.lookupVariable name reach line := by
    rw [Table.lookupVariable, Table.lookupVariable, htables.lookup_eq]
  simp only [lookupVariable, ← hsame]
  cases t.lookupVariable name reach line with
  | error d => exact .failed rfl rfl
  | ok v => exact .done rfl rfl rfl htables

protected theorem lookupCalled (name : String) (reach : Reach) (arguments arguments' : List Ty)
    (line : Nat) :
    Lockstep Eq (lookupCalled name reach arguments line)
      (lookupCalled name reach arguments' line) := by
  intro t t' htables
  simp only [lookupCalled, Table.lookupCalled, ← htables.lookup_eq]
  rcases t.lookup name reach with _ | p | v
  · exact .done rfl rfl rfl htables
  · exact .done rfl rfl rfl (htables.reach name p arguments arguments')
  · exact .failed rfl rfl

protected theorem constrainVariable (v : VarId) (ty ty' : Ty) (line : Nat) :
    Lockstep (SameTy false) (constrainVariable v ty line) (constrainVariable v ty' line) := by
  intro t t' htables
  simp only [constrainVariable, ofTable, Table.constrainVariable, TypeStore.constrain]
  cases (t.types.tyOf v).unify ty with
  | none => exact .conflict (.inl rfl) rfl
  | some known =>
      cases (t'.types.tyOf v).unify ty' with
      | none => exact .conflict (.inr rfl) rfl
      | some known' => exact .done rfl rfl nofun (htables.raise v known known')

protected theorem constrainProcedure (p : ProcId) (ty ty' : Ty) (line : Nat) :
    Lockstep (SameTy false) (constrainProcedure p ty line) (constrainProcedure p ty' line) := by
  intro t t' htables
  simp only [constrainProcedure, ofTable, Table.constrainProcedure]
  cases (t.procAt p).ty.unify ty with
  | none => exact .conflict (.inl rfl) rfl
  | some known =>
      cases (t'.procAt p).ty.unify ty' with
      | none => exact .conflict (.inr rfl) rfl
      | some known' =>
          exact .done rfl rfl nofun (htables.updateProcedure p fun _ _ hbare => hbare)

protected theorem inChildScope (h : Lockstep R step step') :
    Lockstep R (inChildScope step) (inChildScope step') := by
  intro t t' htables
  cases h _ _ htables.enter with
  | conflict h hd => exact .conflict h hd
  | failed h h' => exact .failed h h'
  | done h h' hR hafter => exact .done h h' hR hafter.leave

protected theorem define (p : ProcId) (parameters : List VarId) {code code' : List TypedStatement}
    (hcode : SameCode false code code') :
    Lockstep Any (modify (·.define p parameters code)) (modify (·.define p parameters code')) := by
  rw [SameCode] at hcode
  refine .modify fun t t' htables => htables.updateProcedure p fun q q' hbare => ?_
  simp_all [Procedure.bare]

end Lockstep

theorem parallelRuns_lockstep :
    ParallelRuns .identity false (fun _ => True) (fun _ => False) Lockstep where
  pure := Lockstep.pure
  bind := Lockstep.bind
  fail hwords line := by
    obtain rfl := hwords.same Recasting.keepsWords_identity
    exact .fail _ line
  conflict _ site line := .ofExcept_mapError site line
  tell := Lockstep.tell
  variableTy _ := .gets fun _ _ _ => nofun
  resultTy _ := .gets fun _ _ _ => nofun
  droppedName? func := .gets fun t t' htables => by
    rw [Expr.recast_identity]
    simp only [droppedName?, htables.lookup_eq]
  lookupVariable := Lockstep.lookupVariable
  lookupCalled name reach _ _ _ line := .lookupCalled name reach _ _ line
  constrainVariable v _ _ _ line := .constrainVariable v _ _ line
  constrainProcedure p _ _ _ line := .constrainProcedure p _ _ line
  declareVariable _ _ _ _ slot := by
    cases slot <;> exact .declareVariable _ _ _ _
  declareProcedure {name} _ stated := by
    cases name <;> exact .declareProcedure _ stated
  define := Lockstep.define
  inChildScope := Lockstep.inChildScope
  skip hs := hs.elim

end Lowering

end TypedPseudocode
