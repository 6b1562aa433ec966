import TypedPseudocode.Proofs.ParallelRuns

/-!
Carrying: what is done to a table is done to its image.

A map of tables is an image if everything that steps do to a table they also do to the
table it is mapped to.  Hence each step is carried over: on the image of a table it
returns the same and leaves an image behind, or it fails for a reason that corresponds.
A tree under other names has its image in the table that is renamed: a run on the tree
that is recast yields the renamed declarations, or fails on the line that takes the
place of the one blamed before.
-/

namespace TypedPseudocode

open Code TypedPseudocode.Tree

namespace Lowering

/-! ## Images of tables -/

section Image

variable {σ ι : Type} [Inhabited ι] [IdSource σ ι]

structure Image (M : Recasting) (image : Table → Table σ ι) : Prop where
  lookup (t : Table) (name : String) (reach : Reach) :
    (image t).lookup (M.names name) reach = t.lookup name reach
  tyOf (t : Table) (v : VarId) : (image t).tyOf v = t.tyOf v
  resultTy (t : Table) (p : ProcId) : ((image t).procAt p).ty = (t.procAt p).ty
  variableName (hM : M.KeepsWords) (t : Table) (v : VarId) :
    ((image t).varAt v).name = (t.varAt v).name
  displayName (hM : M.KeepsWords) (t : Table) (p : ProcId) :
    ((image t).procAt p).displayName = (t.procAt p).displayName
  raise (t : Table) (v : VarId) (ty : Ty) : (image t).raise v ty = image (t.raise v ty)
  reach (t : Table) (name : String) (p : ProcId) (arguments : List Ty) :
    (image t).reach (M.names name) p arguments = image (t.reach name p arguments)
  retype (t : Table) (p : ProcId) (ty : Ty) :
    (image t).updateProcedure p ({ · with ty := ty }) =
      image (t.updateProcedure p ({ · with ty := ty }))
  define (t : Table) (p : ProcId) (parameters : List VarId) (body : List TypedStatement) :
    (image t).define p parameters body = image (t.define p parameters body)
  declareVariable (t : Table) (name : String) (stated : Option Ty) (slot : Option Slot) :
    (image t).declareVariable (M.names name) stated (slot.map (·.rename M.names)) =
      ((t.declareVariable name stated slot).1, image (t.declareVariable name stated slot).2)
  declareProcedure (t : Table) (name : Option String) (stated : Option Ty) :
    (image t).declareProcedure (name.map M.names) stated =
      ((t.declareProcedure name stated).1, image (t.declareProcedure name stated).2)
  enter (t : Table) : (image t).enter = image t.enter
  leave (t : Table) : (image t).leave = image t.leave

/-! ## Steps that are carried over -/

structure Carried (M : Recasting) (allowed : String → Prop) (image : Table → Table σ ι)
    {α : Type} (R : α → α → Prop) (o : Outcome α) (o' : Outcome α σ ι) : Prop where
  result : M.Tallies R o.result o'.result
  table : o'.table = image o.table
  bound : o.table.AllBound fun name _ => allowed name

/-- The second step does to the image of a table what the first does to the table. -/
def Carries (M : Recasting) (allowed : String → Prop) (image : Table → Table σ ι) {α : Type}
    (R : α → α → Prop) (step : Lowering α) (step' : LoweringWith σ ι α) : Prop :=
  ∀ t : Table, t.AllBound (fun name _ => allowed name) →
    Carried M allowed image R (step t) (step' (image t))

variable {M : Recasting} {allowed : String → Prop} {image : Table → Table σ ι} {α β : Type}
  {R : α → α → Prop} {S : β → β → Prop}

omit [Inhabited ι] [IdSource σ ι] in
theorem Carries.bind {step : Lowering α} {step' : LoweringWith σ ι α} {next : α → Lowering β}
    {next' : α → LoweringWith σ ι β} (h : Carries M allowed image R step step')
    (hnext : ∀ a a', R a a' → Carries M allowed image S (next a) (next' a')) :
    Carries M allowed image S (step >>= next) (step' >>= next') := by
  intro t ht
  obtain ⟨hresult, htable, hbound⟩ := h t ht
  rcases hstep : step t with ⟨result, t₁, events⟩
  rcases hstep' : step' (image t) with ⟨result', t₁', events'⟩
  rw [hstep, hstep'] at hresult htable
  rw [hstep] at hbound
  obtain rfl : t₁' = image t₁ := htable
  cases result with
  | error d =>
      cases result' with
      | error d' =>
          rw [bind_run_error hstep, bind_run_error hstep']
          exact ⟨hresult, rfl, hbound⟩
      | ok a' => cases hresult
  | ok a =>
      cases result' with
      | error d' => cases hresult
      | ok a' =>
          rw [bind_run_ok hstep, bind_run_ok hstep']
          obtain ⟨hafter, hlast, hkept⟩ := hnext a a' hresult t₁ hbound
          exact ⟨hafter, hlast, hkept⟩

namespace Image

variable (h : Image M image)
include h

theorem droppedName?_recast (func : Expr) (t : Table) :
    droppedName? (func.recast M) (image t) = droppedName? func t := by
  simp only [droppedName?, Expr.identifier?_recast]
  cases func.identifier? with
  | none => rfl
  | some name =>
      simp only [Option.map_some, Option.filter_some, M.names.isIgnored_eq, h.lookup]
      rcases M.names.fixed_or_free name with hfixed | ⟨hfree, -⟩
      · rw [hfixed]
      · have hkept : Builtin.isIgnored name = false := by
          simp only [Builtin.isIgnored, decide_eq_false_iff_not]
          rintro rfl
          cases hfree
        simp [hkept]

theorem carries_lookupVariable (name : String) (reach : Reach) (line : Nat) :
    Carries M allowed image Eq (lookupVariable name reach line)
      (lookupVariable (M.names name) reach (M.lines line)) := by
  intro t ht
  refine ⟨?_, rfl, ht⟩
  simp only [lookupVariable, Table.lookupVariable, h.lookup]
  rcases t.lookup name reach with _ | p | v
  · exact rfl
  · exact ⟨M.words_name _ name rfl, rfl⟩
  · exact rfl

theorem carries_lookupCalled (name : String) (reach : Reach) (arguments : List Ty) (line : Nat) :
    Carries M allowed image Eq (lookupCalled name reach arguments line)
      (lookupCalled (M.names name) reach arguments (M.lines line)) := by
  intro t ht
  simp only [lookupCalled, Table.lookupCalled, h.lookup]
  rcases t.lookup name reach with _ | p | v
  · exact ⟨rfl, rfl, ht⟩
  · exact ⟨rfl, h.reach t name p arguments,
      ht.congr (t.scope_reach name p arguments) (t.outer_reach name p arguments)⟩
  · exact ⟨⟨M.words_name _ name rfl, rfl⟩, rfl, ht⟩

theorem carries_constrainVariable (v : VarId) (ty : Ty) (line : Nat) :
    Carries M allowed image (SameTy true) (constrainVariable v ty line)
      (constrainVariable v ty (M.lines line)) := by
  intro t ht
  simp only [constrainVariable, ofTable, Table.constrainVariable_eq, h.tyOf]
  cases (t.tyOf v).unify ty with
  | some unified => exact ⟨.refl unified, h.raise t v unified, ht.congr rfl rfl⟩
  | none =>
      refine ⟨⟨⟨rfl, fun hwords => ?_⟩, rfl⟩, rfl, ht⟩
      simp only [Diagnostic.conflict, h.variableName hwords]

theorem carries_constrainProcedure (p : ProcId) (ty : Ty) (line : Nat) :
    Carries M allowed image (SameTy true) (constrainProcedure p ty line)
      (constrainProcedure p ty (M.lines line)) := by
  intro t ht
  simp only [constrainProcedure, ofTable, Table.constrainProcedure, h.resultTy]
  cases (t.procAt p).ty.unify ty with
  | some unified => exact ⟨.refl unified, h.retype t p unified, ht.congr rfl rfl⟩
  | none =>
      refine ⟨⟨⟨rfl, fun hwords => ?_⟩, rfl⟩, rfl, ht⟩
      simp only [Diagnostic.conflict, h.displayName hwords]

theorem carries_declareVariable {name : String} (hname : allowed name) (stated : Option Ty)
    (slot : Option Slot) :
    Carries M allowed image Eq (Lowering.declareVariable name stated slot)
      (Lowering.declareVariable (M.names name) stated (slot.map (·.rename M.names))) := by
  intro t ht
  simp only [Lowering.declareVariable, h.declareVariable]
  exact ⟨rfl, rfl, (ht.congr rfl rfl).bind hname⟩

theorem carries_declareProcedure {name : Option String} (hname : ∀ named ∈ name, allowed named)
    (stated : Option Ty) :
    Carries M allowed image Eq (Lowering.declareProcedure name stated)
      (Lowering.declareProcedure (name.map M.names) stated) := by
  intro t ht
  simp only [Lowering.declareProcedure, h.declareProcedure]
  refine ⟨rfl, rfl, ?_⟩
  cases name with
  | none => exact ht.congr rfl rfl
  | some name => exact (ht.congr rfl rfl).bind (hname name rfl)

theorem carries_inChildScope {step : Lowering α} {step' : LoweringWith σ ι α}
    (hstep : Carries M allowed image R step step') :
    Carries M allowed image R (inChildScope step) (inChildScope step') := by
  intro t ht
  obtain ⟨hresult, htable, hbound⟩ := hstep t.enter ht.enter
  simp only [inChildScope, h.enter]
  refine ⟨hresult, ?_, hbound.leave⟩
  rw [htable]
  exact h.leave _

theorem parallel : Parallel M true allowed (Carries M allowed image) where
  pure hR := fun _ ht => ⟨hR, rfl, ht⟩
  bind := Carries.bind
  fail hwords _ := fun _ ht => ⟨⟨hwords, rfl⟩, rfl, ht⟩
  conflict hsame site line := by
    obtain rfl := hsame rfl
    exact fun _ ht => ⟨Recasting.tallies_conflict SameTy.refl _ site line, rfl, ht⟩
  tell _ _ := fun _ ht => ⟨trivial, rfl, ht⟩
  variableTy v := fun t ht => ⟨fun _ => (h.tyOf t v).symm, rfl, ht⟩
  resultTy p := fun t ht => ⟨fun _ => (h.resultTy t p).symm, rfl, ht⟩
  droppedName? func := fun t ht => ⟨(h.droppedName?_recast func t).symm, rfl, ht⟩
  lookupVariable := h.carries_lookupVariable
  lookupCalled name reach _ _ hsame line := by
    obtain rfl := hsame rfl
    exact h.carries_lookupCalled name reach _ line
  constrainVariable v _ _ hsame line := by
    obtain rfl := hsame rfl
    exact h.carries_constrainVariable v _ line
  constrainProcedure p _ _ hsame line := by
    obtain rfl := hsame rfl
    exact h.carries_constrainProcedure p _ line
  declareVariable hname _ _ hsame slot := by
    obtain rfl := hsame rfl
    exact h.carries_declareVariable hname _ slot
  declareProcedure := h.carries_declareProcedure
  define p parameters _ _ hcode := by
    obtain rfl := hcode.eq
    exact fun t ht => ⟨trivial, h.define t p parameters _, ht.congr rfl rfl⟩
  inChildScope := h.carries_inChildScope

theorem parallelRuns :
    ParallelRuns M true allowed (fun _ => False) (Carries M allowed image) where
  toParallel := h.parallel
  skip hs := hs.elim

end Image

/-- Two runs that end in a table and its image, and are alike in how they end. -/
structure EndAlike (M : Recasting) (image : Table → Table σ ι) (o : Outcome Lowered)
    (o' : Outcome (Lowered ι) σ ι) : Prop where
  table : o'.table = image o.table
  result : (o.result = .ok o.table.lowered ∧ o'.result = .ok o'.table.lowered) ∨
    ∃ d d', o.result = .error d ∧ o'.result = .error d' ∧ M.Blames d d'

theorem Carries.endAlike {body body' : List Stmt} {signatures signatures' : SignatureTable}
    {source : σ}
    (h : Carries M allowed image Any
      (lowerBlock body >>= fun block => wrapEntry block.statements)
      (lowerBlock body' >>= fun block => wrapEntry block.statements))
    (hstart : image (.empty signatures) = .start source signatures') :
    EndAlike M image (run signatures (.module body))
      (runWith source signatures' (.module body')) := by
  obtain ⟨hresult, htable, -⟩ := h (.empty signatures) (.empty signatures)
  rw [hstart] at hresult htable
  obtain ⟨hrun, hends⟩ := runWith_module 0 signatures body
  obtain ⟨hrun', hends'⟩ := runWith_module source signatures' body'
  refine ⟨by rw [hends', hends, htable], ?_⟩
  rw [hrun, hrun', hends, hends']
  revert hresult
  cases ((lowerBlock body >>= fun block => wrapEntry block.statements)
    (.empty signatures)).result <;>
    cases ((lowerBlock body' >>= fun block => wrapEntry block.statements)
      (.start source signatures')).result
  · exact fun hblames => .inr ⟨_, _, rfl, rfl, hblames⟩
  · exact False.elim
  · exact False.elim
  · exact fun _ => .inl ⟨rfl, rfl⟩

theorem Image.endAlike (h : Image M image) {signatures signatures' : SignatureTable} {source : σ}
    (hstart : image (.empty signatures) = .start source signatures') (root : Root) :
    EndAlike M image (run signatures root) (runWith source signatures' (root.recast M)) := by
  cases root with
  | module body =>
      have hmodule : Carries M (fun _ => True) image Any
          (lowerBlock body >>= fun block => wrapEntry block.statements)
          (lowerBlock (Stmt.recastAll M body) >>= fun block => wrapEntry block.statements) :=
        h.parallelRuns.lowerModule (Stmt.followsAll_recast M _ body) fun _ _ => trivial
      exact hmodule.endAlike hstart
  | _ => exact ⟨hstart.symm, .inr ⟨_, _, rfl, rfl, .refl M _, M.lines_zero.symm⟩⟩

end Image

/-! ## Trees under other names -/

theorem image_rename (M : Recasting) : Image M (Table.rename M.names) where
  lookup t := t.lookup_rename M.names
  tyOf _ _ := rfl
  resultTy t := t.ty_procAt_rename M.names
  variableName hM t := t.toDeclarations.name_varAt_rename hM.names
  displayName hM t p := by
    rw [Table.toDeclarations_rename, Declarations.procAt_rename,
      Procedure.displayName_rename hM.names]
  raise _ _ _ := rfl
  reach t := t.reach_rename M.names
  retype t p _ := t.updateProcedure_rename M.names p fun _ => rfl
  define t p _ _ := t.updateProcedure_rename M.names p fun _ => rfl
  declareVariable t := t.declareVariable_rename M.names
  declareProcedure t := t.declareProcedure_rename M.names
  enter _ := rfl
  leave t := t.leave_rename M.names

def Lowered.rename (r : Renaming) (lowered : Lowered) : Lowered :=
  ⟨lowered.declarations.rename r, lowered.called.map r, lowered.captured.renameKeys r⟩

theorem Lowered.rename_identity (lowered : Lowered) : lowered.rename .identity = lowered := by
  have hcalled : lowered.called.map Renaming.identity = lowered.called := List.map_id _
  simp only [rename, Declarations.rename_identity, OrderedMap.renameKeys_identity, hcalled]

theorem run_recast (M : Recasting) (signatures : SignatureTable) (root : Root) :
    (∃ lowered, (run signatures root).result = .ok lowered ∧
      (run (signatures.rename M.names) (root.recast M)).result =
        .ok (lowered.rename M.names)) ∨
    ∃ d d', (run signatures root).result = .error d ∧
      (run (signatures.rename M.names) (root.recast M)).result = .error d' ∧
      M.Blames d d' := by
  obtain ⟨htable, ⟨hrun, hrun'⟩ | hfails⟩ :=
    (image_rename M).endAlike (Table.empty_rename M.names signatures) root
  · refine .inl ⟨_, hrun, ?_⟩
    rw [hrun', htable, Table.lowered, Table.called_rename]
    rfl
  · exact .inr hfails

end Lowering

end TypedPseudocode
