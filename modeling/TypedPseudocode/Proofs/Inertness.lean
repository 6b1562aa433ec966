import TypedPseudocode.Lowering.Module
import TypedPseudocode.Proofs.Composition
import TypedPseudocode.Proofs.Regions

/-!
Inertness: signatures of functions that a module does not define.

What is known of a procedure is asked for when a function of its name is declared,
when the parameters of that function are declared, and when a call reaches it.  A call
reaches only what is in scope, and scopes bind procedures under the names of functions
that the module defines.  Hence nothing that is said of other procedures is ever asked
for, and two runs that are told the same of the functions of a module end alike.
-/

namespace TypedPseudocode

open Code TypedPseudocode.Tree

/-- Two tables of signatures say the same of the procedures of these names. -/
def AgreeOn (names : List String) (signatures signatures' : SignatureTable) : Prop :=
  ∀ name ∈ names, signatures.get? name = signatures'.get? name

def GoesBy (names : List String) (name : String) : Declaration → Prop
  | .procedure _ => name ∈ names
  | .variable _ => True

/-! ## Tables made from other signatures -/

namespace Table

def supplied (t : Table) (signatures : SignatureTable) : Table := { t with signatures }

variable (t : Table) (signatures : SignatureTable)

theorem lookup_supplied (name : String) (reach : Reach) :
    (t.supplied signatures).lookup name reach = t.lookup name reach := by
  cases reach <;> rfl

theorem leave_supplied : (t.supplied signatures).leave = t.leave.supplied signatures := by
  rcases h : t.outer with _ | ⟨scope, outer⟩
  · simp [leave, supplied, h]
  · simp [leave, supplied, h]

variable {t signatures}

theorem isNews_supplied {name : String} (h : t.signatures.get? name = signatures.get? name) :
    (t.supplied signatures).isNews name = t.isNews name := by
  simp only [isNews, supplied, OrderedMap.contains, h]

theorem reach_supplied {name : String} (h : t.signatures.get? name = signatures.get? name)
    (p : ProcId) (arguments : List Ty) :
    (t.supplied signatures).reach name p arguments =
      (t.reach name p arguments).supplied signatures := by
  have hnews : ((t.supplied signatures).updateProcedure p ({ · with called := true })).isNews
      name = (t.updateProcedure p ({ · with called := true })).isNews name := isNews_supplied h
  unfold reach capture
  rw [hnews]
  split <;> rfl

theorem resultSeed_supplied {name : String} (h : t.signatures.get? name = signatures.get? name)
    (stated : Option Ty) :
    (t.supplied signatures).resultSeed (some name) stated = t.resultSeed (some name) stated := by
  simp only [resultSeed, supplied, Option.bind_some, h]

theorem variableSeed_supplied {owner : String}
    (h : t.signatures.get? owner = signatures.get? owner) (name : String) (stated : Option Ty)
    (position : Nat) :
    (t.supplied signatures).variableSeed name stated (some ⟨owner, position⟩) =
      t.variableSeed name stated (some ⟨owner, position⟩) := by
  simp only [variableSeed, supplied, Option.bind_some, h]

end Table

namespace Lowering

variable {α β : Type} {names : List String} {t t' : Table} {signatures : SignatureTable}

structure Indifferent (names : List String) (step : Lowering α) (t : Table)
    (signatures : SignatureTable) : Prop where
  same : step (t.supplied signatures) =
    { step t with table := (step t).table.supplied signatures }
  bound : (step t).table.AllBound (GoesBy names)
  kept : (step t).table.signatures = t.signatures

theorem Indifferent.of_run {step : Lowering α} {result : Except Diagnostic α}
    {events : List Event} (hrun : step t = ⟨result, t', events⟩)
    (hrun' : step (t.supplied signatures) = ⟨result, t'.supplied signatures, events⟩)
    (hbound : t'.AllBound (GoesBy names)) (hkept : t'.signatures = t.signatures) :
    Indifferent names step t signatures where
  same := by rw [hrun', hrun]
  bound := by rwa [hrun]
  kept := by rwa [hrun]

/-- A step that asks for no other signatures than those of the given names. -/
def Inert (names : List String) (step : Lowering α) : Prop :=
  ∀ t signatures, t.AllBound (GoesBy names) → AgreeOn names t.signatures signatures →
    Indifferent names step t signatures

theorem Inert.bind {step : Lowering α} {next : α → Lowering β} (h : Inert names step)
    (h' : ∀ a, Inert names (next a)) : Inert names (step >>= next) := by
  intro t signatures hbound hagree
  obtain ⟨hsame, hbound', hkept⟩ := h t signatures hbound hagree
  rcases hstep : step t with ⟨result, t', events⟩
  rw [hstep] at hsame hbound' hkept
  cases result with
  | error d => exact .of_run (bind_run_error hstep next) (bind_run_error hsame next) hbound' hkept
  | ok a =>
      obtain ⟨hnext, hbound'', hkept'⟩ := h' a t' signatures hbound' (hkept ▸ hagree)
      refine .of_run (bind_run_ok hstep next) ?_ hbound'' (hkept'.trans hkept)
      rw [bind_run_ok hsame next, hnext]

/-! ## Elementary steps -/

theorem inert_lookupCalled (name : String) (reach : Reach) (arguments : List Ty) (line : Nat) :
    Inert names (lookupCalled name reach arguments line) := by
  intro t signatures hbound hagree
  have hlookup' := t.lookup_supplied signatures name reach
  cases hlookup : t.lookup name reach with
  | none =>
      have hrun (u : Table) (hu : u.lookup name reach = none) :
          lookupCalled name reach arguments line u = ⟨.ok none, u, []⟩ := by
        simp only [lookupCalled, Table.lookupCalled, hu]
      exact .of_run (hrun t hlookup) (hrun _ (hlookup'.trans hlookup)) hbound rfl
  | some d =>
      cases d with
      | «variable» v =>
          have hrun (u : Table) (hu : u.lookup name reach = some (.variable v)) :
              lookupCalled name reach arguments line u =
                ⟨.error ⟨.variableAsProcedure name, line⟩, u, []⟩ := by
            simp only [lookupCalled, Table.lookupCalled, hu]
          exact .of_run (hrun t hlookup) (hrun _ (hlookup'.trans hlookup)) hbound rfl
      | procedure p =>
          have hrun (u : Table) (hu : u.lookup name reach = some (.procedure p)) :
              lookupCalled name reach arguments line u = ⟨.ok (some p), u.reach name p arguments,
                if u.isNews name then [.capturedSignature name] else []⟩ := by
            simp only [lookupCalled, Table.lookupCalled, hu]
            rfl
          have hname := hagree name (hbound.of_lookup hlookup)
          have hbound' := hbound.congr (t.scope_reach name p arguments)
            (t.outer_reach name p arguments)
          refine .of_run (hrun t hlookup) ?_ hbound' (t.signatures_reach name p arguments)
          rw [hrun _ (hlookup'.trans hlookup), Table.reach_supplied hname,
            Table.isNews_supplied hname]

theorem inert_constrainVariable (v : VarId) (ty : Ty) (line : Nat) :
    Inert names (constrainVariable v ty line) := by
  intro t signatures hbound _
  cases hunify : (t.tyOf v).unify ty with
  | none =>
      have hrun (u : Table) (hu : u.toDeclarations = t.toDeclarations) :
          constrainVariable v ty line u =
            ⟨.error (.conflict (.variable (t.varAt v).name) ⟨t.tyOf v, ty⟩ line), u, []⟩ := by
        simp only [constrainVariable, ofTable, Table.constrainVariable_eq, hu, hunify]
      exact .of_run (hrun t rfl) (hrun _ rfl) hbound rfl
  | some unified =>
      have hrun (u : Table) (hu : u.toDeclarations = t.toDeclarations) :
          constrainVariable v ty line u = ⟨.ok unified, u.raise v unified, []⟩ := by
        simp only [constrainVariable, ofTable, Table.constrainVariable_eq, hu, hunify]
      exact .of_run (hrun t rfl) (hrun _ rfl) (hbound.congr rfl rfl) rfl

theorem inert_constrainProcedure (p : ProcId) (ty : Ty) (line : Nat) :
    Inert names (constrainProcedure p ty line) := by
  intro t signatures hbound _
  cases hunify : (t.procAt p).ty.unify ty with
  | none =>
      have hrun (u : Table) (hu : u.toDeclarations = t.toDeclarations) :
          constrainProcedure p ty line u = ⟨.error (.conflict (.result (t.procAt p).displayName)
            ⟨(t.procAt p).ty, ty⟩ line), u, []⟩ := by
        simp only [constrainProcedure, ofTable, Table.constrainProcedure, hu, hunify]
      exact .of_run (hrun t rfl) (hrun _ rfl) hbound rfl
  | some unified =>
      have hrun (u : Table) (hu : u.toDeclarations = t.toDeclarations) :
          constrainProcedure p ty line u =
            ⟨.ok unified, u.updateProcedure p ({ · with ty := unified }), []⟩ := by
        simp only [constrainProcedure, ofTable, Table.constrainProcedure, hu, hunify]
      exact .of_run (hrun t rfl) (hrun _ rfl) (hbound.congr rfl rfl) rfl

theorem indifferent_declareVariable {name : String} {stated : Option Ty} {slot : Option Slot}
    (hseed : (t.supplied signatures).variableSeed name stated slot =
      t.variableSeed name stated slot) (hbound : t.AllBound (GoesBy names)) :
    Indifferent names (declareVariable name stated slot) t signatures := by
  refine .of_run rfl ?_ ((hbound.congr rfl rfl).bind trivial) rfl
  simp only [declareVariable, Table.declareVariable, hseed]
  rfl

theorem inert_declareProcedure {name : String} (hname : name ∈ names) (stated : Option Ty) :
    Inert names (declareProcedure (some name) stated) := by
  intro t signatures hbound hagree
  refine .of_run rfl ?_ ((hbound.congr rfl rfl).bind hname) rfl
  simp only [declareProcedure, Table.declareProcedure,
    Table.resultSeed_supplied (hagree name hname)]
  rfl

theorem inert_inChildScope {step : Lowering α} (h : Inert names step) :
    Inert names (inChildScope step) := by
  intro t signatures hbound hagree
  obtain ⟨hsame, hbound', hkept⟩ := h t.enter signatures hbound.enter hagree
  have hinner : step (t.supplied signatures).enter =
      { step t.enter with table := (step t.enter).table.supplied signatures } := hsame
  refine .of_run rfl ?_ hbound'.leave ((Table.signatures_leave _).trans hkept)
  simp only [inChildScope, hinner, Table.leave_supplied]
  rfl

theorem pervasive_inert (names : List String) : Pervasive names (Inert names) where
  ofExcept _ _ _ hbound _ := .of_run rfl rfl hbound rfl
  bind := Inert.bind
  tell _ _ _ hbound _ := .of_run rfl rfl hbound rfl
  gets _ _ _ hbound _ := .of_run rfl rfl hbound rfl
  lookupVariable name reach line t signatures hbound _ := by
    refine .of_run rfl ?_ hbound rfl
    simp only [lookupVariable, Table.lookupVariable, t.lookup_supplied signatures]
  lookupCalled := inert_lookupCalled
  constrainVariable := inert_constrainVariable
  declareVariable _ _ _ _ hbound _ := indifferent_declareVariable rfl hbound
  declareParameter howner name stated position _ _ hbound hagree :=
    indifferent_declareVariable
      (Table.variableSeed_supplied (hagree _ howner) name stated position) hbound
  declareProcedure := inert_declareProcedure
  constrainProcedure := inert_constrainProcedure
  define _ _ _ _ _ hbound _ := .of_run rfl rfl (hbound.congr rfl rfl) rfl
  inChildScope := inert_inChildScope

/-! ## Modules -/

theorem inert_wrapEntry (statements : List TypedStatement) :
    Inert names (wrapEntry statements) := by
  have h := pervasive_inert names
  have hentry (stated : Option Ty) : Inert names (declareProcedure none stated) :=
    fun t signatures hbound _ => .of_run rfl rfl (hbound.congr rfl rfl) rfl
  unfold wrapEntry
  split
  · exact h.pure _
  · exact (hentry _).bind fun p => (h.define p _ _).bind fun _ => h.tell rfl

def Insensitive (names : List String) (step : Lowering α) : Prop :=
  ∀ t signatures, t.AllBound (GoesBy names) → AgreeOn names t.signatures signatures →
    (step (t.supplied signatures)).result = (step t).result

theorem Inert.insensitive_bind {step : Lowering α} {next : α → Lowering β}
    (h : Inert names step) (h' : ∀ a, Insensitive names (next a)) :
    Insensitive names (step >>= next) := by
  intro t signatures hbound hagree
  obtain ⟨hsame, hbound', hkept⟩ := h t signatures hbound hagree
  rcases hstep : step t with ⟨result, t', events⟩
  rw [hstep] at hsame hbound' hkept
  cases result with
  | error d => rw [bind_run_error hsame, bind_run_error hstep]
  | ok a =>
      rw [bind_run_ok hsame, bind_run_ok hstep]
      exact h' a t' signatures hbound' (hkept ▸ hagree)

end Lowering

def Tree.Root.defines : Root → List String
  | .module body | .interactive body => Stmt.definesAll body
  | .expression _ | .functionType => []

namespace Lowering

theorem insensitive_lowerRoot (root : Root) : Insensitive root.defines (lowerRoot root) := by
  cases root with
  | module body =>
      simp only [lowerRoot]
      have hblock := (pervasive_inert (Root.module body).defines).lowerBlock body
        (List.Subset.refl _)
      refine hblock.insensitive_bind fun block => ?_
      refine (inert_wrapEntry block.statements).insensitive_bind fun _ => ?_
      -- What is told in the end counts the signatures, but the result is there by then.
      exact fun _ _ _ _ => rfl
  | interactive body => exact fun _ _ _ _ => rfl
  | expression body => exact fun _ _ _ _ => rfl
  | functionType => exact fun _ _ _ _ => rfl

/--
Two runs on one tree end alike, with the same diagnostic or with the same declarations,
called procedures and captured signatures, whenever they are told the same of the
functions that are defined in the tree.  A signature of any other procedure could as
well have been left out.
-/
theorem undefined_signatures_inert (signatures : SignatureTable) (root : Root) :
    (∀ signatures', AgreeOn root.defines signatures signatures' →
      (run signatures' root).result = (run signatures root).result) ∧
    ∀ name ∉ root.defines, ∀ signature,
      (run (signatures.insert name signature) root).result = (run signatures root).result := by
  have hsame : ∀ signatures', AgreeOn root.defines signatures signatures' →
      (run signatures' root).result = (run signatures root).result :=
    fun signatures' hagree => insensitive_lowerRoot root (Table.empty signatures) signatures'
      (.empty signatures) hagree
  refine ⟨hsame, fun name hname signature => hsame _ fun other hother => ?_⟩
  rw [OrderedMap.get?_insert, if_neg]
  rintro rfl
  exact hname hother

theorem undefined_signatures_inert_ghost :
    let root := Root.module [.expression 1 (.call 1 (.name 1 "ghost" .load) [] [])]
    (run OrderedMap.empty root).result = .error ⟨.missingName "ghost", 1⟩ ∧
      (run (OrderedMap.empty.insert "ghost" ⟨.int, []⟩) root).result =
        .error ⟨.missingName "ghost", 1⟩ := by
  intro root
  have hmissing : (run OrderedMap.empty root).result = .error ⟨.missingName "ghost", 1⟩ := rfl
  refine ⟨hmissing, ?_⟩
  rw [← hmissing]
  exact (undefined_signatures_inert OrderedMap.empty root).2 "ghost" (by decide) _

end Lowering

end TypedPseudocode
