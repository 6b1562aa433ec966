import Mathlib.Data.List.Forall2
import TypedPseudocode.Proofs.Yields

/-!
Unpacking: assignments to patterns.

A pattern takes a value of its own shape apart.  Assigning to the pattern is then
assigning to each of its leaves the value in its place, from left to right: later
leaves see what earlier ones have declared, and where a leaf fails, all before it is
done.  A pattern never takes a value of another shape.
-/

namespace TypedPseudocode

open Code TypedPseudocode.Tree

/-! ## Patterns and values -/

namespace Tree

/-- A target that is no pattern, and the value that is assigned to it. -/
structure Leaf where
  target : Expr
  value : Expr

mutual

/-- The leaves of a pattern from left to right, each with the value in its place. -/
def Expr.leaves : Expr → Expr → List Leaf
  | .list _ targets _, value => Expr.leavesEach targets (value.elements?.getD [])
  | .tuple _ targets _, value => Expr.leavesEach targets (value.elements?.getD [])
  | target, value => [⟨target, value⟩]

def Expr.leavesEach : List Expr → List Expr → List Leaf
  | target :: targets, value :: values =>
      target.leaves value ++ Expr.leavesEach targets values
  | _, _ => []

end

def Leaf.AssignedBy (leaf : Leaf) (s : Stmt) : Prop :=
  ∃ line, s = .assign line [leaf.target] leaf.value

/-- A part of a target, and the part of the value in its place. -/
inductive Faces : Expr → Expr → Expr → Expr → Prop
  | whole (target value : Expr) : Faces target value target value
  | inside {target value element elementValue part partValue : Expr}
      {targets values : List Expr} : target.elements? = some targets →
      value.elements? = some values → (element, elementValue) ∈ targets.zip values →
      Faces element elementValue part partValue → Faces target value part partValue

/-- Wherever the target has a pattern, the value has as many elements. -/
def SameShape (target value : Expr) : Prop :=
  ∀ part partValue, Faces target value part partValue →
    ∀ targets, part.elements? = some targets →
      ∃ values, partValue.elements? = some values ∧ targets.length = values.length

theorem sameShape_of_leaf {target : Expr} (h : target.elements? = none) (value : Expr) :
    SameShape target value := by
  intro part partValue hfaces targets htargets
  cases hfaces with
  | whole =>
      rw [h] at htargets
      cases htargets
  | inside hwhole =>
      rw [h] at hwhole
      cases hwhole

theorem sameShape_iff {target value : Expr} {targets : List Expr}
    (h : target.elements? = some targets) :
    SameShape target value ↔ ∃ values, value.elements? = some values ∧
      targets.length = values.length ∧ ∀ p ∈ targets.zip values, SameShape p.1 p.2 := by
  constructor
  · intro hshape
    obtain ⟨values, hvalues, hlength⟩ := hshape target value (.whole target value) targets h
    refine ⟨values, hvalues, hlength, fun p hp part partValue hfaces => ?_⟩
    exact hshape part partValue (.inside h hvalues hp hfaces)
  · rintro ⟨values, hvalues, hlength, helements⟩ part partValue hfaces
    cases hfaces with
    | whole =>
        intro targets' htargets'
        obtain rfl : targets = targets' := Option.some.inj (h.symm.trans htargets')
        exact ⟨values, hvalues, hlength⟩
    | inside htargets' hvalues' hmem hfaces =>
        obtain rfl : targets = _ := Option.some.inj (h.symm.trans htargets')
        obtain rfl : values = _ := Option.some.inj (hvalues.symm.trans hvalues')
        exact helements _ hmem part partValue hfaces

end Tree

namespace Lowering

variable {α β : Type}

/-! ## Leaf by leaf -/

def assignEach : List Leaf → Lowering (List TypedStatement)
  | [] => return []
  | leaf :: leaves => do
      let first ← unpack leaf.target leaf.value
      let rest ← assignEach leaves
      return first ++ rest

theorem assignEach_singleton (target value : Expr) :
    assignEach [⟨target, value⟩] = unpack target value := by
  simp [assignEach]

theorem assignEach_append (leaves leaves' : List Leaf) :
    assignEach (leaves ++ leaves') = (do
      let first ← assignEach leaves
      let rest ← assignEach leaves'
      return first ++ rest) := by
  induction leaves with
  | nil => simp [assignEach]
  | cons leaf leaves ih =>
      simp only [List.cons_append, assignEach, ih, bind_assoc, pure_bind, List.append_assoc]

theorem elementsFor_eq {line count : Nat} {value : Expr} {values : List Expr}
    (h : value.elements? = some values) (hcount : count = values.length) :
    (elementsFor line count value : Lowering (List Expr)) = Pure.pure values := by
  simp only [elementsFor, h, hcount, ↓reduceIte]
  rfl

mutual

theorem unpack_eq_assignEach (target value : Expr) (h : SameShape target value) :
    unpack target value = assignEach (target.leaves value) := by
  cases target with
  | list line targets ctx | tuple line targets ctx =>
      obtain ⟨values, hvalues, hlength, helements⟩ := (sameShape_iff rfl).mp h
      simp only [unpack, Expr.leaves, elementsFor_eq hvalues hlength, hvalues, pure_bind,
        Option.getD_some]
      exact unpackEach_eq_assignEach targets values hlength helements
  | _ => exact (assignEach_singleton _ value).symm

theorem unpackEach_eq_assignEach (targets values : List Expr)
    (hlength : targets.length = values.length)
    (h : ∀ p ∈ targets.zip values, SameShape p.1 p.2) :
    unpackEach targets values = assignEach (Expr.leavesEach targets values) := by
  cases targets with
  | nil => rfl
  | cons target targets =>
      cases values with
      | nil => cases hlength
      | cons value values =>
          rw [List.zip_cons_cons, List.forall_mem_cons] at h
          rw [unpackEach, Expr.leavesEach, assignEach_append,
            unpack_eq_assignEach target value h.1,
            unpackEach_eq_assignEach targets values (Nat.succ.inj hlength) h.2]

end

mutual

theorem plain_leaves (target value : Expr) :
    ∀ leaf ∈ target.leaves value, leaf.target.elements? = none := by
  cases target with
  | list line targets ctx | tuple line targets ctx =>
      simp only [Expr.leaves]
      exact plain_leavesEach targets _
  | _ =>
      intro leaf hleaf
      obtain rfl := List.mem_singleton.mp hleaf
      rfl

theorem plain_leavesEach (targets values : List Expr) :
    ∀ leaf ∈ Expr.leavesEach targets values, leaf.target.elements? = none := by
  cases targets with
  | nil =>
      simp only [Expr.leavesEach]
      exact List.forall_mem_nil _
  | cons target targets =>
      cases values with
      | nil =>
          simp only [Expr.leavesEach]
          exact List.forall_mem_nil _
      | cons value values =>
          simp only [Expr.leavesEach]
          exact List.forall_mem_append.mpr
            ⟨plain_leaves target value, plain_leavesEach targets values⟩

end

/-! ## Blocks of assignments -/

/-- Steps that differ at most in what they tell. -/
def UpToEvents (step step' : Lowering α) : Prop :=
  ∀ t, (step t).result = (step' t).result ∧ (step t).table = (step' t).table

theorem UpToEvents.refl (step : Lowering α) : UpToEvents step step := fun _ => ⟨rfl, rfl⟩

theorem UpToEvents.symm {step step' : Lowering α} (h : UpToEvents step step') :
    UpToEvents step' step :=
  fun t => ⟨(h t).1.symm, (h t).2.symm⟩

theorem UpToEvents.trans {step step' step'' : Lowering α} (h : UpToEvents step step')
    (h' : UpToEvents step' step'') : UpToEvents step step'' :=
  fun t => ⟨(h t).1.trans (h' t).1, (h t).2.trans (h' t).2⟩

theorem UpToEvents.bind {step step' : Lowering α} {next next' : α → Lowering β}
    (h : UpToEvents step step') (h' : ∀ a, UpToEvents (next a) (next' a)) :
    UpToEvents (step >>= next) (step' >>= next') := by
  intro t
  obtain ⟨hresult, htable⟩ := h t
  rcases hstep : step t with ⟨result, t₁, events⟩
  rcases hstep' : step' t with ⟨result', t₁', events'⟩
  rw [hstep, hstep'] at hresult htable
  obtain rfl : result = result' := hresult
  obtain rfl : t₁ = t₁' := htable
  cases result with
  | error d =>
      rw [bind_run_error hstep, bind_run_error hstep']
      exact ⟨rfl, rfl⟩
  | ok a =>
      rw [bind_run_ok hstep, bind_run_ok hstep']
      exact h' a t₁

theorem upToEvents_tell (event : Event) (next : Unit → Lowering α) :
    UpToEvents (tell event >>= next) (next ()) :=
  fun _ => ⟨rfl, rfl⟩

theorem append_nothing (step : Lowering (List TypedStatement)) :
    (do
      let first ← step
      let rest ← (pure [] : Lowering (List TypedStatement))
      return first ++ rest) = step := by
  change (step >>= fun first => (Pure.pure [] : Lowering _) >>= fun rest =>
    Pure.pure (first ++ rest)) = step
  simp

theorem unpack_of_plain {target : Expr} (h : target.elements? = none) (value : Expr) :
    unpack target value =
      (do assignTo (← lowerValue value) target : Lowering (List TypedStatement)) := by
  cases target with
  | list | tuple => cases h
  | _ => rfl

theorem assignAll_singleton (target value : Expr) :
    assignAll value [target] none = (unpack target value : Lowering (List TypedStatement)) := by
  cases h : target.elements? with
  | some elements =>
      simp only [assignAll, h]
      exact append_nothing _
  | none =>
      rw [unpack_of_plain h]
      simp only [assignAll, h]
      exact bind_congr fun e => append_nothing _

theorem upToEvents_lowerStmts {leaves : List Leaf} {ss : List Stmt}
    (h : List.Forall₂ Leaf.AssignedBy leaves ss) (returns : Ty) :
    UpToEvents (lowerStmts returns ss) (do return ⟨⟨← assignEach leaves, returns⟩, []⟩) := by
  induction h with
  | nil => exact .refl _
  | @cons leaf s leaves ss hleaf _ ih =>
      obtain ⟨line, rfl⟩ := hleaf
      simp only [lowerStmts, lowerStmt, assignAll_singleton, assignEach, bind_assoc, pure_bind]
      refine (upToEvents_tell _ _).trans (.bind (.refl _) fun first => ?_)
      have hrest := ih.bind fun there => UpToEvents.refl (Pure.pure (FirstPass.mk
        ⟨first ++ there.statements, there.returns⟩ ([] ++ there.declared)))
      simp only [bind_assoc, pure_bind] at hrest
      exact hrest

theorem lowerBodies_assignments {leaves : List Leaf} {ss : List Stmt}
    (h : List.Forall₂ Leaf.AssignedBy leaves ss) (declared : List ProcId) :
    (lowerBodies ss declared : Lowering Unit) = Pure.pure () := by
  induction h with
  | nil => rfl
  | cons hleaf _ ih =>
      obtain ⟨line, rfl⟩ := hleaf
      simp only [lowerBodies, ih]

theorem upToEvents_lowerBlock {leaves : List Leaf} {ss : List Stmt}
    (h : List.Forall₂ Leaf.AssignedBy leaves ss) :
    UpToEvents (lowerBlock ss) (do return ⟨← assignEach leaves, .unknown⟩) := by
  have hfirst := (upToEvents_lowerStmts h .unknown).bind fun pass => .refl (do
    lowerBodies ss pass.declared
    return pass.toBlock)
  simp only [lowerBodies_assignments h, bind_assoc, pure_bind] at hfirst
  simpa only [lowerBlock, twoPasses, lowerBodies_assignments h, pure_bind] using hfirst

/-! ## Other shapes -/

mutual

theorem sameShape_of_unpack (target value : Expr) {t t' : Table} {ss : List TypedStatement}
    (h : Yields (unpack target value) t ss t') : SameShape target value := by
  cases target with
  | list line targets ctx | tuple line targets ctx =>
      simp only [unpack, yields_bind, elementsFor] at h
      obtain ⟨values, t₁, hvalues, heach⟩ := h
      split at hvalues
      · exact absurd hvalues yields_refuse
      · rename_i elements helements
        split at hvalues
        · rename_i hlength
          obtain ⟨rfl, -⟩ := yields_pure.mp hvalues
          exact (sameShape_iff rfl).mpr ⟨elements, helements, hlength,
            sameShape_of_unpackEach targets elements heach⟩
        · exact absurd hvalues yields_fail
  | _ => exact sameShape_of_leaf rfl value

theorem sameShape_of_unpackEach (targets values : List Expr) {t t' : Table}
    {ss : List TypedStatement} (h : Yields (unpackEach targets values) t ss t') :
    ∀ p ∈ targets.zip values, SameShape p.1 p.2 := by
  cases targets with
  | nil => exact List.forall_mem_nil _
  | cons target targets =>
      cases values with
      | nil => exact List.forall_mem_nil _
      | cons value values =>
          simp only [unpackEach, yields_bind] at h
          obtain ⟨first, t₁, hfirst, rest, t₂, hrest, -⟩ := h
          exact List.forall_mem_cons.mpr ⟨sameShape_of_unpack target value hfirst,
            sameShape_of_unpackEach targets values hrest⟩

end

theorem sameShape_of_assignAll {value : Expr} {targets : List Expr}
    {lowered : Option TypedExpression} {t t' : Table} {ss : List TypedStatement}
    (h : Yields (assignAll value targets lowered) t ss t') :
    ∀ target ∈ targets, SameShape target value := by
  induction targets generalizing lowered t t' ss with
  | nil => exact List.forall_mem_nil _
  | cons target targets ih =>
      rw [List.forall_mem_cons]
      simp only [assignAll] at h
      split at h
      · simp only [yields_bind] at h
        obtain ⟨first, t₁, hfirst, rest, t₂, hrest, -⟩ := h
        exact ⟨sameShape_of_unpack target value hfirst, ih hrest⟩
      · rename_i hplain
        refine ⟨sameShape_of_leaf hplain value, ?_⟩
        cases lowered with
        | some e | none =>
            simp only [yields_bind] at h
            obtain ⟨e, t₁, -, first, t₂, -, rest, t₃, hrest, -⟩ := h
            exact ih hrest

theorem sameShape_of_lowerBlock {line : Nat} {targets : List Expr} {value : Expr} {t : Table}
    {block : Block} (h : (lowerBlock [.assign line targets value] t).result = .ok block) :
    ∀ target ∈ targets, SameShape target value := by
  have hyields : Yields (lowerBlock [.assign line targets value]) t block _ := ⟨h, rfl⟩
  simp only [lowerBlock, twoPasses, lowerStmts, lowerStmt, yields_bind] at hyields
  obtain ⟨pass, t₁, ⟨_, t₂, -, here, t₃, ⟨ss, t₄, hassign, -⟩, -⟩, -⟩ := hyields
  exact sameShape_of_assignAll hassign

/--
Unpacking is assignment leaf by leaf.  If the value has the shape of the target, a block
that assigns the value to the target ends like the block that assigns to each leaf of the
target the value in its place, from left to right, whatever lines these assignments are
on: with the same code, or the same diagnostic, and in the same table.  And a pattern
never takes a value with more or fewer elements, at any depth and beside any other
targets.
-/
theorem unpacking_leafwise (target value : Expr) :
    (∀ leaf ∈ target.leaves value, leaf.target.elements? = none) ∧
    (SameShape target value → ∀ (line : Nat) (ss : List Stmt) (t : Table),
      List.Forall₂ Leaf.AssignedBy (target.leaves value) ss →
        (lowerBlock [.assign line [target] value] t).result = (lowerBlock ss t).result ∧
          (lowerBlock [.assign line [target] value] t).table = (lowerBlock ss t).table) ∧
    ∀ (part partValue : Expr) (targets values : List Expr),
      Faces target value part partValue → part.elements? = some targets →
      partValue.elements? = some values → targets.length ≠ values.length →
      ∀ (line : Nat) (beside : List Expr) (t : Table), target ∈ beside →
        ∃ d, (lowerBlock [.assign line beside value] t).result = .error d := by
  refine ⟨plain_leaves target value, fun hshape line ss t hss => ?_,
    fun part partValue targets values hfaces htargets hvalues hlength line beside t hmem => ?_⟩
  · have hwhole : List.Forall₂ Leaf.AssignedBy [⟨target, value⟩]
        [.assign line [target] value] := .cons ⟨line, rfl⟩ .nil
    have hsame := upToEvents_lowerBlock hwhole
    rw [assignEach_singleton, unpack_eq_assignEach target value hshape] at hsame
    exact hsame.trans (upToEvents_lowerBlock hss).symm t
  · cases hresult : (lowerBlock [.assign line beside value] t).result with
    | error d => exact ⟨d, rfl⟩
    | ok block =>
        obtain ⟨values', hvalues', hlength'⟩ := sameShape_of_lowerBlock hresult target hmem part
          partValue hfaces targets htargets
        rw [hvalues] at hvalues'
        cases hvalues'
        exact absurd hlength' hlength

/--
`x, [y, z] = 1, (x, m)` reads the new `x` for `y` and fails at `m`, which is missing, as the
three assignments do; `x, [y, z] = 1, (x,)` is not accepted.
-/
theorem unpacking_leafwise_nested :
    let inner := Expr.list 1 [.name 1 "y" .store, .name 1 "z" .store] .store
    let target := Expr.tuple 1 [.name 1 "x" .store, inner] .store
    let read := fun id => Expr.name 1 id .load
    let value := fun part => Expr.tuple 1 [.constant 1 (.int 1), .tuple 1 part .load] .load
    let ss := [Stmt.assign 1 [.name 1 "x" .store] (.constant 1 (.int 1)),
      .assign 2 [.name 1 "y" .store] (read "x"), .assign 3 [.name 1 "z" .store] (read "m")]
    let t := Table.empty ∅
    let whole := lowerBlock [.assign 1 [target] (value [read "x", read "m"])] t
    SameShape target (value [read "x", read "m"]) ∧
      (lowerBlock ss t).result = .error ⟨.missingName "m", 1⟩ ∧
      whole.result = .error ⟨.missingName "m", 1⟩ ∧
      whole.table.vars.map (·.name) = ["x", "y"] ∧
      ∃ d, (lowerBlock [.assign 1 [target] (value [read "x"])] t).result = .error d := by
  intro inner target read value ss t whole
  have hinner : SameShape inner (.tuple 1 [read "x", read "m"] .load) := by
    refine (sameShape_iff rfl).mpr ⟨_, rfl, by decide, ?_⟩
    simp only [List.zip_cons_cons, List.zip_nil_right, List.forall_mem_cons]
    exact ⟨sameShape_of_leaf rfl _, sameShape_of_leaf rfl _, List.forall_mem_nil _⟩
  have hshape : SameShape target (value [read "x", read "m"]) := by
    refine (sameShape_iff rfl).mpr ⟨_, rfl, by decide, ?_⟩
    simp only [List.zip_cons_cons, List.zip_nil_right, List.forall_mem_cons]
    exact ⟨sameShape_of_leaf rfl _, hinner, List.forall_mem_nil _⟩
  have hss : List.Forall₂ Leaf.AssignedBy (target.leaves (value [read "x", read "m"])) ss :=
    .cons ⟨1, rfl⟩ (.cons ⟨2, rfl⟩ (.cons ⟨3, rfl⟩ .nil))
  obtain ⟨hresult, htable⟩ := (unpacking_leafwise target _).2.1 hshape 1 ss t hss
  refine ⟨hshape, rfl, hresult.trans rfl, (congrArg (·.vars.map (·.name)) htable).trans rfl, ?_⟩
  exact (unpacking_leafwise target (value [read "x"])).2.2 inner (.tuple 1 [read "x"] .load) _ _
    (.inside rfl rfl (by simp) (.whole _ _)) rfl rfl (by decide) 1 [target] t (by simp)

end Lowering

end TypedPseudocode
