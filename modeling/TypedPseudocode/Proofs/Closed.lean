import TypedPseudocode.Document
import TypedPseudocode.IdStream
import TypedPseudocode.Proofs.Scoping

/-!
Closed documents.

Ids are drawn one after the other and each of them goes to one declaration,
so that a document declares every id of its stream once, up to the number of its
declarations.  Whatever else it refers to is one of these.
-/

namespace TypedPseudocode

open Code TypedPseudocode.Tree

/-! ## What documents declare -/

namespace Document

variable {ι : Type}

def Procedure.declarations (p : Procedure ι) : List (Variable ι) :=
  p.parameters ++ declared p.body

def declarations (d : Document ι) : List (Variable ι) :=
  declared d.constants ++ d.procedures.flatMap Procedure.declarations

theorem declarations_map {κ : Type} (f : ι → κ) (d : Document ι) :
    (d.map f).declarations = d.declarations.map (Variable.map f) := by
  simp [declarations, Procedure.declarations, map, Procedure.map, Statement.map, declared_mapAll,
    List.flatMap_map, List.map_flatMap]

def declaredIds (d : Document ι) : List ι :=
  d.procedures.map (·.id) ++ d.declarations.map (·.id)

def bodies (d : Document ι) : List (List (Statement ι)) :=
  d.constants :: d.procedures.map (·.body)

/-- What is referred to is declared in the document. -/
structure Closed (d : Document ι) : Prop where
  assigned : ∀ body ∈ d.bodies, ∀ id ∈ assigned body, id ∈ d.declarations.map (·.id)
  referenced : ∀ body ∈ d.bodies, ∀ id ∈ referenced body, id ∈ d.declarations.map (·.id)
  called : ∀ body ∈ d.bodies, ∀ id ∈ Code.Statement.callsAll body, id ∈ d.procedures.map (·.id)

end Document

/-- Every handle that is met in a procedure has been given out. -/
structure Declarations.InRange {ι : Type} (ds : Declarations ι) (p : Procedure ι) : Prop where
  locals : ∀ v ∈ p.locals, v.index < ds.vars.length
  assigned : ∀ v ∈ assigned p.body, v.index < ds.vars.length
  referenced : ∀ v ∈ referenced p.body, v.index < ds.vars.length
  called : ∀ q ∈ Code.Statement.callsAll p.body, q.index < ds.procedures.length

namespace Declarations

variable {ι κ : Type} [Inhabited ι] (ds : Declarations ι) (ids : ι → κ)

theorem declarations_publish :
    ds.publish.declarations = (ds.procedures.flatMap Procedure.locals).map ds.publishVariable := by
  have hprocedure (p : Procedure ι) :
      (ds.publishProcedure p).declarations = p.locals.map ds.publishVariable := by
    simp [Document.Procedure.declarations, publishProcedure, publishBody, declared_mapAll,
      Procedure.locals]
  simp only [Document.declarations, publish, List.flatMap_map, hprocedure, List.map_flatMap]
  rfl

theorem declaredIds_publish : (ds.publish.map ids).declaredIds =
    ds.procedures.map (fun p => ids p.id) ++
      (ds.procedures.flatMap Procedure.locals).map fun v => ids (ds.varAt v).id := by
  simp only [Document.declaredIds, Document.declarations_map, declarations_publish, List.map_map]
  simp [Document.map, publish, Document.Procedure.map, publishProcedure, Document.Variable.map,
    publishVariable, Function.comp_def]

theorem procedures_eq_map :
    ds.procedures = ((List.range ds.procedures.length).map ProcId.mk).map ds.procAt := by
  apply List.ext_getElem
  · simp
  · intro i hi _
    simp [procAt, hi]

theorem vars_eq_map :
    ds.vars = ((List.range ds.vars.length).map VarId.mk).map ds.varAt := by
  apply List.ext_getElem
  · simp
  · intro i hi _
    simp [varAt, hi]

theorem procAt_mem_or (q : ProcId) : ds.procAt q ∈ ds.procedures ∨
    (ds.procAt q).parameters = [] ∧ (ds.procAt q).body = [] := by
  by_cases hq : q.index < ds.procedures.length
  · exact .inl (by simp [procAt, hq])
  · exact .inr (by simp [procAt, hq])

theorem mem_bodies_publish {body : List (Document.Statement κ)}
    (h : body ∈ (ds.publish.map ids).bodies) : body = [] ∨ ∃ p ∈ ds.procedures,
      body = Document.Statement.map ids (ds.publishBody p.body) := by
  rcases List.mem_cons.mp h with rfl | h
  · exact .inl rfl
  · simp only [Document.map, publish, List.map_map, List.mem_map] at h
    obtain ⟨p, hp, rfl⟩ := h
    exact .inr ⟨p, hp, rfl⟩

theorem closed_publish (hrange : ∀ p ∈ ds.procedures, ds.InRange p)
    (hlocals : ∀ v : VarId, v.index < ds.vars.length → v ∈ ds.procedures.flatMap Procedure.locals) :
    (ds.publish.map ids).Closed := by
  have hvariable {v : VarId} (hv : v.index < ds.vars.length) :
      ids (ds.varAt v).id ∈ (ds.publish.map ids).declarations.map (·.id) := by
    rw [Document.declarations_map, declarations_publish, List.map_map, List.map_map]
    exact List.mem_map.mpr ⟨v, hlocals v hv, rfl⟩
  have hprocedure {q : ProcId} (hq : q.index < ds.procedures.length) :
      ids (ds.procAt q).id ∈ (ds.publish.map ids).procedures.map (·.id) := by
    have hmem : ds.procAt q ∈ ds.procedures := by
      simp [procAt, hq]
    simp only [Document.map, publish, List.map_map]
    exact List.mem_map.mpr ⟨ds.procAt q, hmem, rfl⟩
  refine ⟨fun body hbody id hid => ?_, fun body hbody id hid => ?_, fun body hbody id hid => ?_⟩
  all_goals
    rcases ds.mem_bodies_publish ids hbody with rfl | ⟨p, hp, rfl⟩
    · cases hid
  · simp only [Document.Statement.map, publishBody, assigned_mapAll, List.map_map,
      List.mem_map] at hid
    obtain ⟨v, hv, rfl⟩ := hid
    exact hvariable ((hrange p hp).assigned v hv)
  · simp only [Document.Statement.map, publishBody, referenced_mapAll, List.map_map,
      List.mem_map] at hid
    obtain ⟨v, hv, rfl⟩ := hid
    exact hvariable ((hrange p hp).referenced v hv)
  · simp only [Document.Statement.map, publishBody, Code.Statement.callsAll_mapAll,
      List.map_map, List.mem_map] at hid
    obtain ⟨q, hq, rfl⟩ := hid
    exact hprocedure ((hrange p hp).called q hq)

end Declarations

namespace Lowering

variable {s : State}

/-! ## Every declaration once -/

theorem flatMap_locals {fs : List Frame} {ds : Declarations}
    (h : ∀ f ∈ fs, ∃ p, f.place = some p ∧ f.Fills (ds.procAt p)) :
    fs.flatMap Frame.locals = (fs.filterMap (·.place)).flatMap ds.locals := by
  induction fs with
  | nil => rfl
  | cons f fs ih =>
      obtain ⟨p, hplace, hfills⟩ := h f List.mem_cons_self
      have hrest := ih fun g hg => h g (List.mem_cons_of_mem _ hg)
      simp only [List.flatMap_cons, List.filterMap_cons, hplace, hrest, hfills.locals_eq]
      rfl

theorem entryOf_locals (statements : List TypedStatement) (serial : Nat) :
    (entryOf statements serial).flatMap Procedure.locals = declared statements := by
  by_cases hempty : statements = []
  · simp [entryOf, hempty]
  · simp [entryOf, hempty, Procedure.locals]

theorem range_entryOf (statements : List TypedStatement) (serial : Nat) :
    List.range (serial + (entryOf statements serial).length) =
      List.range serial ++ (entryOf statements serial).map (·.id) := by
  by_cases hempty : statements = []
  · simp [entryOf, hempty]
  · simp [entryOf, hempty, List.range_succ]

section Finished

variable {signatures : SignatureTable} {body : List Stmt} {ds : Declarations}
  (hrun : Runs (.initial signatures) s) (hcomplete : s.Complete signatures body)
  (hends : Ends s ds)

include hrun hcomplete in
theorem finished_places_perm : (s.finished.filterMap (·.place)).Perm
    ((List.range s.table.procedures.length).map ProcId.mk) := by
  have hplaces := (counted_of_runs hrun).places
  have hmodule : s.frame.place = none := by
    cases hcomplete.realizes with
    | cons hmodule _ => exact hmodule.place
  simp only [State.homes, State.units, hcomplete.pending, hcomplete.outer, List.map_nil,
    List.nil_append, List.cons_append, List.filterMap_cons, Frame.home?, hmodule,
    Option.map_none, List.map_filterMap] at hplaces
  simpa [Function.comp_def] using hplaces

include hrun hcomplete hends

theorem locals_perm : (ds.procedures.flatMap Procedure.locals).Perm
    ((List.range ds.vars.length).map VarId.mk) := by
  have hfinished : (s.finished.flatMap Frame.locals).Perm
      (s.table.procedures.flatMap Procedure.locals) := by
    rw [flatMap_locals (filled_of_runs hrun), s.table.procedures_eq_map, List.flatMap_map]
    exact (finished_places_perm hrun hcomplete).flatMap_right _
  have hmodule : s.frame.locals = declared s.frame.block.statements := by
    cases hcomplete.realizes with
    | cons hmodule _ =>
        have hparameters : s.frame.parameters = [] := List.map_eq_nil_iff.mp hmodule.seeds
        rw [Frame.locals, hparameters, Frame.code, Frame.codeOf, hcomplete.around]
        rfl
  have hlocals := (counted_of_runs hrun).locals
  simp only [State.units, hcomplete.outer, List.cons_append, List.nil_append,
    List.flatMap_cons, hmodule] at hlocals
  rw [hends.procedures, hends.vars, List.flatMap_append, entryOf_locals]
  exact List.perm_append_comm.trans ((hfinished.symm.append_left _).trans hlocals)

omit hcomplete in
theorem serials_perm : (ds.procedures.map (·.id) ++ ds.vars.map (·.id)).Perm
    (List.range (ds.procedures.length + ds.vars.length)) := by
  have hserials := (counted_of_runs hrun).serials
  have hdrawn : s.table.procedures.length + s.table.vars.length = s.table.source := by
    simpa using hserials.length_eq
  have hcount : ds.procedures.length + ds.vars.length = s.table.source +
      (entryOf s.frame.block.statements s.table.source).length := by
    rw [hends.procedures, hends.vars, List.length_append]
    omega
  rw [hcount, range_entryOf, hends.procedures, hends.vars, List.map_append]
  exact (perm_append_right_comm _ _ _).trans (hserials.append_right _)

theorem declaredIds_perm {κ : Type} (ids : Nat → κ) : (ds.publish.map ids).declaredIds.Perm
    ((List.range (ds.procedures.length + ds.vars.length)).map ids) := by
  have hvars : ((ds.procedures.flatMap Procedure.locals).map fun v =>
      (ds.varAt v).id).Perm (ds.vars.map (·.id)) := by
    rw [ds.vars_eq_map, List.map_map]
    exact (locals_perm hrun hcomplete hends).map _
  have hserials := (hvars.append_left _).trans (serials_perm hrun hends)
  rw [ds.declaredIds_publish]
  simpa [Function.comp_def] using hserials.map ids

theorem mem_locals_iff {v : VarId} :
    v ∈ ds.procedures.flatMap Procedure.locals ↔ v.index < ds.vars.length := by
  rw [(locals_perm hrun hcomplete hends).mem_iff, List.mem_map]
  constructor
  · rintro ⟨i, hi, rfl⟩
    exact List.mem_range.mp hi
  · exact fun hv => ⟨v.index, List.mem_range.mpr hv, rfl⟩

theorem exists_region_of_mem {p : Procedure} (hp : p ∈ ds.procedures) :
    ∃ r ∈ regions body, ds.procAt (r.procedure body) = p := by
  obtain ⟨i, hi, hget⟩ := List.mem_iff_getElem.mp hp
  obtain ⟨r, hr, hprocedure⟩ := exists_region_of_procedure (p := ⟨i⟩) hrun hcomplete hends hi
  exact ⟨r, hr, by simp [hprocedure, Declarations.procAt, hi, hget]⟩

theorem inRange_of_procedure {p : Procedure} (hp : p ∈ ds.procedures) : ds.InRange p := by
  have hlocals {q : ProcId} {v : VarId} (hv : v ∈ ds.locals q) : v.index < ds.vars.length := by
    refine (mem_locals_iff hrun hcomplete hends).mp (List.mem_flatMap.mpr ⟨ds.procAt q, ?_, hv⟩)
    rcases ds.procAt_mem_or q with hmem | ⟨hparameters, hbody⟩
    · exact hmem
    · simp [Declarations.locals, Procedure.locals, hparameters, hbody] at hv
  obtain ⟨r, hr, hsame⟩ := exists_region_of_mem hrun hcomplete hends hp
  have hscoped := wellScoped hrun hcomplete hends hr
  refine ⟨fun v hv => ?_, fun v hv => ?_, fun v hv => ?_, fun q hq => ?_⟩
  · rw [← hsame] at hv
    exact hlocals hv
  · rw [← hsame] at hv
    exact hlocals (hscoped.assigned v hv)
  · rw [← hsame] at hv
    obtain ⟨g, -, -, hlocal⟩ := hscoped.referenced v hv
    exact hlocals hlocal
  · rw [← hsame] at hq
    obtain ⟨g, hg, hplace, -⟩ := hscoped.called q hq
    obtain ⟨f, hf, hbecomes⟩ := exists_unit_of_region hrun hcomplete hends hg
    have hhome := mem_homes_of_units hf (hbecomes.place.trans hplace)
    have hlt := (counted_of_runs hrun).place_lt hhome
    rw [hends.procedures, List.length_append]
    exact Nat.lt_add_right _ hlt

end Finished

theorem sequential_injective (stem : String) : Function.Injective (IdStream.sequential stem) := by
  intro m n h
  have hdigits : Nat.toDigits 10 m = Nat.toDigits 10 n :=
    String.ofList_injective ((String.append_right_inj stem).mp h)
  rw [← Nat.ofDigitChars_ten_toDigits (n := m), hdigits, Nat.ofDigitChars_ten_toDigits]

/--
With sequential ids, a document declares exactly the ids from the first to as
many as it has declarations, each once, and refers to nothing else.
-/
theorem sequential_document_closed {signatures : SignatureTable} {body : List Stmt}
    {lowered : Lowered} (stem : String)
    (h : (run signatures (.module body)).result = .ok lowered) :
    let ds := lowered.declarations
    let document := ds.publish.map (IdStream.sequential stem)
    document.declaredIds.Nodup ∧
      document.declaredIds.Perm ((List.range (ds.procedures.length + ds.vars.length)).map
        fun serial => stem ++ serial.repr) ∧
      document.Closed ∧
      ∀ p ∈ ds.procedures, ds.InRange p := by
  obtain ⟨s, hrun, hcomplete, hends⟩ := exists_run h
  intro ds document
  have hperm := declaredIds_perm hrun hcomplete hends (IdStream.sequential stem)
  refine ⟨?_, hperm, ?_, ?_⟩
  · exact hperm.nodup_iff.mpr (List.Nodup.map (sequential_injective stem) List.nodup_range)
  · exact ds.closed_publish _ (fun p hp => inRange_of_procedure hrun hcomplete hends hp)
      fun v => (mem_locals_iff hrun hcomplete hends).mpr
  · exact fun p hp => inRange_of_procedure hrun hcomplete hends hp

theorem sequential_document_closed_nestedModule : ∃ lowered,
    (run OrderedMap.empty (.module nestedModule)).result = .ok lowered ∧
      (lowered.declarations.publish.map (IdStream.sequential "id")).declaredIds.Nodup ∧
      (lowered.declarations.publish.map (IdStream.sequential "id")).Closed := by
  obtain ⟨lowered, h⟩ := nestedModule_lowered
  obtain ⟨hnodup, -, hclosed, -⟩ := sequential_document_closed "id" h
  exact ⟨lowered, h, hnodup, hclosed⟩

end Lowering

end TypedPseudocode
