import TypedPseudocode.Document
import TypedPseudocode.IdStream
import TypedPseudocode.Proofs.Lockstep
import TypedPseudocode.Proofs.Regions

/-!
Independence of signatures.

No step of lowering looks at a type to decide what comes next, so that two runs
on the same tree go in lockstep whatever signatures they are given.  What they
publish differs in types only.
-/

namespace TypedPseudocode

open Code TypedPseudocode.Tree

/-! ## Documents without types -/

namespace Document

variable {ι : Type}

def blank : Ty.Published := ⟨"", false⟩

def Variable.untyped (v : Variable ι) : Variable ι := { v with ty := blank }

def Statement.untyped : List (Statement ι) → List (Statement ι) :=
  Code.Statement.mapAll Variable.untyped id id fun _ => blank

def Procedure.untyped (p : Procedure ι) : Procedure ι where
  id := p.id
  name := p.name
  ty := blank
  parameters := p.parameters.map Variable.untyped
  body := Statement.untyped p.body

def untyped (d : Document ι) : Document ι where
  constants := Statement.untyped d.constants
  procedures := d.procedures.map Procedure.untyped

end Document

namespace Declarations

def publishBare (ds : Declarations) (ids : IdStream) :
    Nat × Option String × List VarId × List (Statement VarId VarId ProcId (Option Ty)) × Bool →
      Document.Procedure String
  | (serial, name, parameters, body, _) =>
      let declaration (v : VarId) : Document.Variable String :=
        ⟨ids (ds.varAt v).id, (ds.varAt v).name, Document.blank⟩
      ⟨ids serial, name, Document.blank, parameters.map declaration,
        body.map (Code.Statement.map declaration (fun v => ids (ds.varAt v).id)
          (fun p => ids (ds.procAt p).id) fun _ => Document.blank)⟩

theorem untyped_publish (ds : Declarations) (ids : IdStream) :
    (ds.publish.map ids).untyped.procedures =
      (ds.procedures.map Procedure.bare).map (ds.publishBare ids) := by
  simp only [Document.untyped, Document.map, publish, List.map_map]
  refine List.map_congr_left fun p _ => ?_
  simp only [Function.comp_apply, publishBare, Procedure.bare, Document.Procedure.untyped,
    Document.Procedure.map, publishProcedure, Document.Statement.untyped,
    Document.Statement.map, publishBody, Code.Statement.mapAll_eq_map, List.map_map]
  refine congrArg _ (List.map_congr_left fun s _ => ?_)
  simp only [Function.comp_apply, Code.Statement.seen, Code.Statement.map_map]
  rfl

theorem id_procAt_eq {ds ds' : Declarations}
    (h : ds.procedures.map Procedure.bare = ds'.procedures.map Procedure.bare) (p : ProcId) :
    (ds.procAt p).id = (ds'.procAt p).id := by
  have hserial (ds : Declarations) : (ds.procAt p).id =
      ((ds.procedures.map Procedure.bare)[p.index]?.map Prod.fst).getD 0 := by
    rw [List.getElem?_map, procAt]
    cases ds.procedures[p.index]? <;> rfl
  rw [hserial, hserial, h]

theorem untyped_publish_eq {ds ds' : Declarations}
    (hprocedures : ds.procedures.map Procedure.bare = ds'.procedures.map Procedure.bare)
    (hvars : ds.vars = ds'.vars) (ids : IdStream) :
    (ds.publish.map ids).untyped = (ds'.publish.map ids).untyped := by
  have hbare : ds.publishBare ids = ds'.publishBare ids := by
    funext p
    simp only [publishBare, varAt, hvars, id_procAt_eq hprocedures]
  have hsame : (ds.publish.map ids).untyped.procedures =
      (ds'.publish.map ids).untyped.procedures := by
    rw [untyped_publish, untyped_publish, hbare, hprocedures]
  exact congrArg (Document.mk []) hsame

end Declarations

namespace Lowering

/-- All that is known of a module differs in types only. -/
structure SameLowered (lowered lowered' : Lowered) : Prop where
  procedures : lowered.declarations.procedures.map Procedure.bare =
    lowered'.declarations.procedures.map Procedure.bare
  vars : lowered.declarations.vars = lowered'.declarations.vars
  called : lowered.called = lowered'.called

theorem lockstep_lowerRoot (root : Root) :
    Lockstep SameLowered (lowerRoot root) (lowerRoot root) := by
  cases root with
  | module body =>
      have hmodule := parallelRuns_lockstep.lowerModule (Stmt.followsAll_recast .identity _ body)
        fun _ _ => trivial
      rw [Stmt.recastAll_identity] at hmodule
      simp only [lowerRoot]
      rw [← bind_assoc]
      refine .bind hmodule fun _ _ _ => ?_
      refine .bind (R := SameLowered) (.gets fun t t' htables => ?_) fun lowered lowered' h => ?_
      · exact ⟨htables.procedures, htables.vars, htables.called_eq⟩
      refine .bind (R := Any) (.gets fun _ _ _ => trivial) fun _ _ _ => ?_
      exact .bind (.tell _ _) fun _ _ _ => .pure h
  | _ => exact .fail _ 0

/-- The outcome is the refusal of a construct whose description begins with these words. -/
def RefusesWith {α : Type} (o : Outcome α) (words : String) : Prop :=
  ∃ construct line, o.result = .error (.unsupported construct line) ∧
    words.toList <+: construct.description.toList

theorem conflict_description_begins (site : Site) (existing candidate : Ty) :
    "multiple types for".toList <+:
      (Construct.conflict site existing candidate).description.toList := by
  have hwords : "multiple types for".toList <+: "multiple types for ".toList :=
    ⟨[' '], by decide⟩
  have hdescription : (Construct.conflict site existing candidate).description =
      "multiple types for " ++ site.description ++ " (" ++ existing.name ++ ", " ++
        candidate.name ++ ")" := rfl
  rw [hdescription]
  simp only [String.toList_append, List.append_assoc]
  exact hwords.trans (List.prefix_append _ _)

theorem refusesWith_of_conflict {α : Type} {o : Outcome α} {d : Diagnostic}
    (h : o.result = .error d) (hd : d.fault.isConflict) :
    RefusesWith o "multiple types for" := by
  obtain ⟨fault, line⟩ := d
  cases fault with
  | unsupported construct =>
      cases construct with
      | conflict site existing candidate =>
          exact ⟨_, line, h, conflict_description_begins site existing candidate⟩
      | _ => cases hd
  | _ => cases hd

theorem not_refusesWith {α : Type} {o : Outcome α} {a : α} {words : String}
    (h : o.result = .ok a) : ¬ RefusesWith o words := by
  rintro ⟨construct, line, herror, -⟩
  rw [h] at herror
  cases herror

/--
Two runs on one tree, with whatever signatures, differ in types only, unless one
of them is refused because of its types.
-/
theorem signatures_affect_types_only (signatures signatures' : SignatureTable) (root : Root)
    (ids : IdStream) (h : ¬ RefusesWith (run signatures root) "multiple types for")
    (h' : ¬ RefusesWith (run signatures' root) "multiple types for") :
    (∃ d, (run signatures root).result = .error d ∧ (run signatures' root).result = .error d) ∨
      ∃ lowered lowered', (run signatures root).result = .ok lowered ∧
        (run signatures' root).result = .ok lowered' ∧
        (lowered.declarations.publish.map ids).untyped =
          (lowered'.declarations.publish.map ids).untyped ∧
        lowered.called = lowered'.called := by
  cases lockstep_lowerRoot root _ _ (Table.Alike.empty signatures signatures') with
  | conflict hresult hd =>
      rcases hresult with hresult | hresult
      · exact absurd (refusesWith_of_conflict hresult hd) h
      · exact absurd (refusesWith_of_conflict hresult hd) h'
  | failed hresult hresult' => exact .inl ⟨_, hresult, hresult'⟩
  | @done lowered lowered' hresult hresult' hsame htables =>
      refine .inr ⟨lowered, lowered', hresult, hresult', ?_, hsame.called⟩
      exact Declarations.untyped_publish_eq hsame.procedures hsame.vars ids

theorem signatures_affect_types_only_nestedModule : ∃ lowered lowered',
    (run OrderedMap.empty (.module nestedModule)).result = .ok lowered ∧
      (run outerSignature (.module nestedModule)).result = .ok lowered' ∧
      lowered.declarations.tyOf ⟨1⟩ = .unknown ∧ lowered'.declarations.tyOf ⟨1⟩ = .int ∧
      (lowered.declarations.publish.map (IdStream.sequential "id")).untyped =
        (lowered'.declarations.publish.map (IdStream.sequential "id")).untyped := by
  obtain ⟨lowered, h, hty⟩ : ∃ lowered,
      (run OrderedMap.empty (.module nestedModule)).result = .ok lowered ∧
        lowered.declarations.tyOf ⟨1⟩ = .unknown := ⟨_, rfl, rfl⟩
  obtain ⟨lowered', h', hty'⟩ : ∃ lowered',
      (run outerSignature (.module nestedModule)).result = .ok lowered' ∧
        lowered'.declarations.tyOf ⟨1⟩ = .int := ⟨_, rfl, rfl⟩
  have hsame := signatures_affect_types_only OrderedMap.empty outerSignature
    (.module nestedModule) (IdStream.sequential "id") (not_refusesWith h) (not_refusesWith h')
  rw [h, h'] at hsame
  obtain ⟨d, hd, -⟩ | ⟨_, _, hfirst, hsecond, hdocument, -⟩ := hsame
  · cases hd
  · cases hfirst
    cases hsecond
    exact ⟨lowered, lowered', h, h', hty, hty', hdocument⟩

end Lowering

end TypedPseudocode
