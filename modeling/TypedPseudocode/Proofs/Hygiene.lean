import Mathlib.Logic.Equiv.Basic
import TypedPseudocode.Proofs.Carrying
import TypedPseudocode.Proofs.Closed
import TypedPseudocode.Proofs.Replacement

/-!
Hygiene: names matter only for what they are bound to.

Under an injective renaming that leaves alone what Python provides, a program means what
it meant before.  The document of the renamed program is the renamed document: the names
of procedures, parameters and variables are replaced where they are declared, and all
references, types and ids stay as they were.
-/

namespace TypedPseudocode

open Code TypedPseudocode.Tree

/-! ## Documents under other names -/

namespace Document

variable {ι κ : Type} (r : Renaming)

def Variable.rename (v : Variable ι) : Variable ι := { v with name := r v.name }

def Statement.rename : List (Statement ι) → List (Statement ι) :=
  Code.Statement.mapAll (Variable.rename r) id id id

def Procedure.rename (p : Procedure ι) : Procedure ι where
  id := p.id
  name := p.name.map r
  ty := p.ty
  parameters := p.parameters.map (Variable.rename r)
  body := Statement.rename r p.body

/-- The same document, its declarations published under other names. -/
def rename (d : Document ι) : Document ι where
  constants := Statement.rename r d.constants
  procedures := d.procedures.map (Procedure.rename r)

theorem Statement.map_rename (f : ι → κ) (body : List (Statement ι)) :
    Statement.map f (Statement.rename r body) = Statement.rename r (Statement.map f body) := by
  simp only [Statement.map, Statement.rename, Code.Statement.mapAll_mapAll]
  rfl

theorem map_rename (f : ι → κ) (d : Document ι) : (d.rename r).map f = (d.map f).rename r := by
  have hprocedure (p : Procedure ι) : (p.rename r).map f = (p.map f).rename r := by
    simp only [Procedure.map, Procedure.rename, Statement.map_rename, List.map_map]
    rfl
  simp only [map, rename, Statement.map_rename, List.map_map, Function.comp_def, hprocedure]

end Document

/-! ## Publication -/

namespace Declarations

variable (r : Renaming) (ds : Declarations)

theorem publishVariable_rename {v : VarId} (h : v.index < ds.vars.length) :
    (ds.rename r).publishVariable v = (ds.publishVariable v).rename r := by
  simp only [publishVariable, ds.varAt_rename r h]
  rfl

theorem publishProcedure_rename {p : Procedure} (h : ds.InRange p) :
    (ds.rename r).publishProcedure (p.rename r) = (ds.publishProcedure p).rename r := by
  have hlocals : ∀ v ∈ p.parameters ++ declared p.body,
      (ds.rename r).publishVariable v = (ds.publishVariable v).rename r :=
    fun v hv => ds.publishVariable_rename r (h.locals v hv)
  have hparameters : p.parameters.map (ds.rename r).publishVariable =
      (p.parameters.map ds.publishVariable).map (Document.Variable.rename r) := by
    rw [List.map_map]
    exact List.map_congr_left fun v hv => hlocals v (List.mem_append_left _ hv)
  have hbody : (ds.rename r).publishBody p.body =
      Document.Statement.rename r (ds.publishBody p.body) := by
    have hvars : (fun v => ((ds.rename r).varAt v).id) = fun v => (ds.varAt v).id :=
      funext (ds.id_varAt_rename r)
    have hprocs : (fun p => ((ds.rename r).procAt p).id) = fun p => (ds.procAt p).id := by
      funext p
      rw [procAt_rename]
      rfl
    simp only [publishBody, Document.Statement.rename, Statement.mapAll_mapAll, hvars, hprocs]
    exact Statement.mapAll_congr _ _ ⟨fun v hv => hlocals v (List.mem_append_right _ hv),
      fun _ _ => rfl, fun _ _ => rfl, fun _ _ => rfl⟩
  simp only [publishProcedure, Procedure.rename, hparameters, hbody]
  rfl

theorem publish_rename (h : ∀ p ∈ ds.procedures, ds.InRange p) :
    (ds.rename r).publish = ds.publish.rename r := by
  have hprocedures : (ds.rename r).procedures.map (ds.rename r).publishProcedure =
      (ds.procedures.map ds.publishProcedure).map (Document.Procedure.rename r) := by
    simp only [rename, List.map_map]
    exact List.map_congr_left fun p hp => ds.publishProcedure_rename r (h p hp)
  simp only [publish, hprocedures]
  rfl

end Declarations

/-! ## Programs under other names -/

def Renaming.swap {a b : String} (ha : Builtin.isProvided a = false)
    (hb : Builtin.isProvided b = false) : Renaming where
  apply := Equiv.swap a b
  injective := (Equiv.swap a b).injective
  provided name hname := by
    refine Equiv.swap_apply_of_ne_of_ne ?_ ?_
    · rintro rfl
      exact Bool.false_ne_true (ha.symm.trans hname)
    · rintro rfl
      exact Bool.false_ne_true (hb.symm.trans hname)

namespace Lowering

/--
Consistent renaming comes before or after translation.  A tree that is lowered with
success is lowered with success under other names, from signatures under these names.
The document is the former one with the names of its procedures and variables replaced,
and so are the called procedures and those whose signatures were captured.
-/
theorem renaming_commutes (r : Renaming) {signatures : SignatureTable} {root : Root}
    {lowered : Lowered} (h : (run signatures root).result = .ok lowered) :
    ∃ lowered', (run (signatures.rename r) (root.recast (.ofRenaming r))).result = .ok lowered' ∧
      (∀ ids : IdStream, lowered'.declarations.publish.map ids =
        (lowered.declarations.publish.map ids).rename r) ∧
      lowered'.called = lowered.called.map r ∧
      lowered'.captured = lowered.captured.renameKeys r := by
  rcases run_recast (.ofRenaming r) signatures root with ⟨same, hrun, hrun'⟩ | ⟨d, -, hfails, -⟩
  · obtain rfl : same = lowered := Except.ok.inj (hrun.symm.trans h)
    refine ⟨_, hrun', fun ids => ?_, rfl, rfl⟩
    obtain ⟨body, rfl⟩ := module_of_run h
    obtain ⟨s, hruns, hcomplete, hends⟩ := exists_run h
    have hpublish := same.declarations.publish_rename r fun p hp =>
      inRange_of_procedure hruns hcomplete hends hp
    rw [← Document.map_rename, ← hpublish]
    rfl
  · rw [h] at hfails
    cases hfails

theorem renaming_commutes_nestedModule :
    let r : Renaming := .swap (by decide : Builtin.isProvided "outer" = false)
      (by decide : Builtin.isProvided "inner" = false)
    ∃ lowered lowered', (run outerSignature (.module nestedModule)).result = .ok lowered ∧
      (run (outerSignature.rename r) ((Root.module nestedModule).recast (.ofRenaming r))).result =
        .ok lowered' ∧
      lowered'.declarations.publish.map (IdStream.sequential "id") =
        (lowered.declarations.publish.map (IdStream.sequential "id")).rename r ∧
      lowered'.called = lowered.called.map r := by
  intro r
  obtain ⟨lowered, h⟩ : ∃ lowered,
    (run outerSignature (.module nestedModule)).result = .ok lowered := ⟨_, rfl⟩
  obtain ⟨lowered', hrun, hdocument, hcalled, -⟩ := renaming_commutes r h
  exact ⟨lowered, lowered', h, hrun, hdocument _, hcalled⟩

end Lowering

end TypedPseudocode
