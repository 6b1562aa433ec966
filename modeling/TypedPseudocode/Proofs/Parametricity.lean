import Mathlib.Data.Set.Function
import TypedPseudocode.Proofs.Composition
import TypedPseudocode.Proofs.Isolation
import TypedPseudocode.Proofs.Simulation

/-!
Parametricity: ids are drawn, and never looked at.

Each declaration draws the next id at the moment it is made, so the ids of a run
are told one after the other.  What is published under two streams of ids is the
same document, whose ids are draws, with the draws replaced.  Isolation compares
ids, but only with each other: where a stream keeps the draws of a document apart,
it isolates the same part.
-/

namespace TypedPseudocode

open Code TypedPseudocode.Tree

/-! ## Documents under other ids -/

namespace Document

variable {ι κ : Type}

theorem Statement.map_id_eq (ss : List (Statement ι)) : Statement.map id ss = ss :=
  Code.Statement.mapAll_id ss

theorem map_id_eq (d : Document ι) : d.map id = d := by
  have hvariable : (Variable.map id : Variable ι → Variable ι) = id := rfl
  have hprocedure : (Procedure.map id : Procedure ι → Procedure ι) = id := by
    funext p
    simp [Procedure.map, Statement.map_id_eq, hvariable]
  simp [map, Statement.map_id_eq, hprocedure]

/-! ## What is isolated under other ids -/

section Isolation

variable {d : Document ι} {f : ι → κ} {S : Set ι} {p q : Procedure ι}

structure CallsWithin (d : Document ι) (S : Set ι) : Prop where
  procedures : ∀ p ∈ d.procedures, p.id ∈ S
  calls : ∀ p ∈ d.procedures, ∀ id ∈ p.calls, id ∈ S

theorem Procedure.calls_map (f : ι → κ) (p : Procedure ι) : (p.map f).calls = p.calls.map f :=
  Code.Statement.callsAll_mapAll _ _ _ _ p.body

theorem steps_map_iff (hS : d.CallsWithin S) (hf : S.InjOn f) (hp : p ∈ d.procedures)
    {r : Procedure κ} :
    (d.map f).Steps (p.map f) r ↔ ∃ q, d.Steps p q ∧ q.map f = r := by
  simp only [Steps, ← Procedure.mem_calls_iff, Procedure.calls_map, map, List.mem_map]
  constructor
  · rintro ⟨⟨q, hq, rfl⟩, id, hid, hsame⟩
    have hid' : id = q.id := hf (hS.calls p hp id hid) (hS.procedures q hq) hsame
    exact ⟨q, ⟨hq, hid' ▸ hid⟩, rfl⟩
  · rintro ⟨q, ⟨hq, hcalls⟩, rfl⟩
    exact ⟨⟨q, hq, rfl⟩, q.id, hcalls, rfl⟩

theorem mem_of_reaches (h : d.Reaches p q) (hp : p ∈ d.procedures) : q ∈ d.procedures := by
  cases h with
  | refl => exact hp
  | tail _ hstep => exact hstep.1

theorem reaches_map_iff (hS : d.CallsWithin S) (hf : S.InjOn f) (hp : p ∈ d.procedures)
    {r : Procedure κ} :
    (d.map f).Reaches (p.map f) r ↔ ∃ q, d.Reaches p q ∧ q.map f = r := by
  constructor
  · intro h
    induction h with
    | refl => exact ⟨p, .refl, rfl⟩
    | tail _ hstep ih =>
        obtain ⟨q, hreach, rfl⟩ := ih
        obtain ⟨r, hstep', rfl⟩ := (steps_map_iff hS hf (mem_of_reaches hreach hp)).mp hstep
        exact ⟨r, hreach.tail hstep', rfl⟩
  · rintro ⟨q, h, rfl⟩
    induction h with
    | refl => exact .refl
    | @tail q r hreach hstep ih =>
        exact ih.tail ((steps_map_iff hS hf (mem_of_reaches hreach hp)).mpr ⟨r, hstep, rfl⟩)

theorem reaches_map_iff_of_mem (hS : d.CallsWithin S) (hf : S.InjOn f)
    (hdistinct : (d.procedures.map (·.id)).Nodup) (hp : p ∈ d.procedures)
    (hq : q ∈ d.procedures) :
    (d.map f).Reaches (p.map f) (q.map f) ↔ d.Reaches p q := by
  rw [reaches_map_iff hS hf hp]
  constructor
  · rintro ⟨r, hreach, hsame⟩
    have hr := mem_of_reaches hreach hp
    have hid : r.id = q.id :=
      hf (hS.procedures r hr) (hS.procedures q hq) (congrArg Procedure.id hsame)
    exact eq_of_id_eq hdistinct hr hq hid ▸ hreach
  · exact fun h => ⟨q, h, rfl⟩

theorem nodup_map (hS : d.CallsWithin S) (hf : S.InjOn f)
    (hdistinct : (d.procedures.map (·.id)).Nodup) :
    ((d.map f).procedures.map (·.id)).Nodup := by
  have hids : (d.map f).procedures.map (·.id) = (d.procedures.map (·.id)).map f := by
    simp [map, Procedure.map, Function.comp_def]
  rw [hids]
  refine hdistinct.map_on fun x hx y hy => ?_
  obtain ⟨p, hp, rfl⟩ := List.mem_map.mp hx
  obtain ⟨q, hq, rfl⟩ := List.mem_map.mp hy
  exact fun h => hf (hS.procedures p hp) (hS.procedures q hq) h

theorem IsFirst.map {name : String} (h : d.IsFirst name p) (f : ι → κ) :
    (d.map f).IsFirst name (p.map f) := by
  obtain ⟨before, after, hsplit, hname, hbefore⟩ := h
  refine ⟨before.map (Procedure.map f), after.map (Procedure.map f), ?_, hname, ?_⟩
  · simp [Document.map, hsplit]
  · intro q hq
    obtain ⟨r, hr, rfl⟩ := List.mem_map.mp hq
    exact hbefore r hr

theorem isolate?_map [DecidableEq ι] [DecidableEq κ] (hS : d.CallsWithin S) (hf : S.InjOn f)
    (hdistinct : (d.procedures.map (·.id)).Nodup) (name : String) :
    (d.map f).isolate? name = (d.isolate? name).map (map f) := by
  cases hfind : d.procedures.find? (·.name = some name) with
  | none =>
      have hnone : ∀ p ∈ d.procedures, p.name ≠ some name := by
        simpa using List.find?_eq_none.mp hfind
      rw [isolate?_eq_none_iff.mpr hnone, Option.map_none, isolate?_eq_none_iff]
      intro q hq
      obtain ⟨p, hp, rfl⟩ := List.mem_map.mp hq
      exact hnone p hp
  | some root =>
      have hfirst := find?_eq_some_iff.mp hfind
      obtain ⟨hroot, hisolate⟩ := isolate?_of_isFirst hfirst
      obtain ⟨hroot', hisolate'⟩ := isolate?_of_isFirst (hfirst.map f)
      rw [hisolate, hisolate', Option.map_some]
      -- Both searches keep a procedure for the same reason: the root leads to it.
      have hkept : ∀ p ∈ d.procedures,
          (p.map f).id ∈ (Search.start ⟨root.map f, hroot'⟩).run ↔
            p.id ∈ (Search.start ⟨root, hroot⟩).run := by
        intro p hp
        rw [Search.mem_run_iff (nodup_map hS hf hdistinct) _ (List.mem_map_of_mem hp),
          Search.mem_run_iff hdistinct _ hp]
        exact reaches_map_iff_of_mem hS hf hdistinct hroot hp
      refine congrArg some (congrArg (Document.mk _) ?_)
      change (d.procedures.map (Procedure.map f)).filter _ = _
      rw [List.filter_map]
      refine congrArg _ (List.filter_congr fun p hp => ?_)
      simpa using hkept p hp

end Isolation

end Document

/-! ## Draws -/

namespace Lowering

variable {α β : Type}

/-- From a table on, ids are drawn in order, one for each new declaration. -/
def DrawsFrom (t : Table) (o : Outcome α) : Prop :=
  ∃ count, o.events.filterMap Event.drawn? = List.range' t.source count ∧
    o.table.source = t.source + count ∧
    o.table.procedures.length + o.table.vars.length =
      t.procedures.length + t.vars.length + count

def Draws (step : Lowering α) : Prop := ∀ t, DrawsFrom t (step t)

theorem drawsFrom_of_still {t : Table} {o : Outcome α}
    (hevents : o.events.filterMap Event.drawn? = []) (hdrawn : o.table.source = t.source)
    (hprocedures : o.table.procedures.length = t.procedures.length)
    (hvars : o.table.vars = t.vars) : DrawsFrom t o :=
  ⟨0, hevents, hdrawn, by rw [hprocedures, hvars, Nat.add_zero]⟩

theorem Draws.bind {step : Lowering α} {next : α → Lowering β} (h : Draws step)
    (h' : ∀ a, Draws (next a)) : Draws (step >>= next) := by
  intro t
  obtain ⟨first, hevents, hdrawn, hcount⟩ := h t
  rcases hstep : step t with ⟨result, t', events⟩
  rw [hstep] at hevents hdrawn hcount
  simp only at hevents hdrawn hcount
  cases result with
  | error d =>
      rw [bind_run_error hstep]
      exact ⟨first, hevents, hdrawn, hcount⟩
  | ok a =>
      obtain ⟨second, hevents', hdrawn', hcount'⟩ := h' a t'
      rw [bind_run_ok hstep]
      refine ⟨first + second, ?_, ?_, ?_⟩
      · rw [List.filterMap_append, hevents, hevents', hdrawn, List.range'_append_1]
      · rw [hdrawn', hdrawn, Nat.add_assoc]
      · rw [hcount', hcount, Nat.add_assoc]

theorem draws_lookupCalled (name : String) (reach : Reach) (arguments : List Ty) (line : Nat) :
    Draws (lookupCalled name reach arguments line) := by
  intro t
  simp only [lookupCalled, Table.lookupCalled]
  cases t.lookup name reach with
  | none => exact drawsFrom_of_still rfl rfl rfl rfl
  | some d =>
      cases d with
      | procedure p =>
          have hreach : Table.capture (t.updateProcedure p ({ · with called := true })) name p
              arguments = t.reach name p arguments := rfl
          simp only [hreach]
          refine drawsFrom_of_still ?_ (by simp) (by simp) (by simp)
          dsimp only
          split <;> rfl
      | «variable» v => exact drawsFrom_of_still rfl rfl rfl rfl

theorem draws_constrainVariable (v : VarId) (ty : Ty) (line : Nat) :
    Draws (constrainVariable v ty line) := by
  intro t
  simp only [constrainVariable, ofTable, Table.constrainVariable_eq]
  cases (t.tyOf v).unify ty <;> exact drawsFrom_of_still rfl rfl rfl rfl

theorem draws_constrainProcedure (p : ProcId) (ty : Ty) (line : Nat) :
    Draws (constrainProcedure p ty line) := by
  intro t
  simp only [constrainProcedure, ofTable, Table.constrainProcedure]
  cases (t.procAt p).ty.unify ty with
  | none => exact drawsFrom_of_still rfl rfl rfl rfl
  | some unified => exact drawsFrom_of_still rfl rfl (by simp [Table.updateProcedure]) rfl

theorem draws_declareVariable (name : String) (stated : Option Ty) (slot : Option Slot) :
    Draws (declareVariable name stated slot) := by
  intro t
  have hserial : ((t.withVariable name stated slot).varAt ⟨t.vars.length⟩).id = t.source := by
    simp [Declarations.varAt]
  refine ⟨1, ?_, rfl, ?_⟩
  · simp [declareVariable, Table.declareVariable_eq, Event.drawn?, hserial]
  · simp [declareVariable, Table.declareVariable_eq, Nat.add_assoc]

theorem draws_declareProcedure (name : Option String) (stated : Option Ty) :
    Draws (declareProcedure name stated) := by
  intro t
  cases name with
  | none =>
      refine ⟨1, ?_, rfl, ?_⟩
      · simp [declareProcedure, Table.declareProcedure, Event.drawn?, Declarations.procAt]
      · simp [declareProcedure, Table.declareProcedure]
        omega
  | some name =>
      have hserial : ((t.withProcedure name stated).procAt ⟨t.procedures.length⟩).id =
          t.source := by
        simp [Declarations.procAt]
      refine ⟨1, ?_, rfl, ?_⟩
      · simp [declareProcedure, Table.declareProcedure_eq, Event.drawn?, hserial]
      · simp [declareProcedure, Table.declareProcedure_eq]
        omega

theorem draws_inChildScope {step : Lowering α} (h : Draws step) : Draws (inChildScope step) := by
  intro t
  obtain ⟨count, hevents, hdrawn, hcount⟩ := h t.enter
  refine ⟨count, ?_, ?_, ?_⟩
  · simpa [inChildScope, List.filterMap_cons, Event.drawn?] using hevents
  · simpa [inChildScope] using hdrawn
  · simpa [inChildScope] using hcount

theorem pervasive_draws (names : List String) : Pervasive names Draws where
  ofExcept _ _ := drawsFrom_of_still rfl rfl rfl rfl
  bind := Draws.bind
  tell hevent _ := drawsFrom_of_still (by simp [tell, hevent]) rfl rfl rfl
  gets _ _ := drawsFrom_of_still rfl rfl rfl rfl
  lookupVariable _ _ _ _ := drawsFrom_of_still rfl rfl rfl rfl
  lookupCalled := draws_lookupCalled
  constrainVariable := draws_constrainVariable
  declareVariable _ stated := draws_declareVariable _ stated none
  declareParameter _ name stated _ := draws_declareVariable name stated _
  declareProcedure _ stated := draws_declareProcedure _ stated
  constrainProcedure := draws_constrainProcedure
  define _ _ _ _ := drawsFrom_of_still rfl rfl
    (by simp [modify, Table.define, Table.updateProcedure]) rfl
  inChildScope := draws_inChildScope

theorem draws_wrapEntry (statements : List TypedStatement) : Draws (wrapEntry statements) := by
  have h := pervasive_draws []
  unfold wrapEntry
  split
  · exact h.pure _
  · exact (draws_declareProcedure _ _).bind fun p => (h.define p _ _).bind fun _ => h.tell rfl

theorem draws_gets (look : Table → α) : Draws (gets look) :=
  fun _ => drawsFrom_of_still rfl rfl rfl rfl

theorem draws_lowerRoot (root : Root) : Draws (lowerRoot root) := by
  cases root with
  | module body =>
      have h := pervasive_draws (Stmt.definesAll body)
      refine (h.lowerBlock body (List.Subset.refl _)).bind fun block => ?_
      refine (draws_wrapEntry block.statements).bind fun _ => ?_
      refine (draws_gets _).bind fun lowered => (draws_gets _).bind fun supplied => ?_
      exact (h.tell rfl).bind fun _ => h.pure _
  | _ => exact (pervasive_draws []).fail _ _

theorem draws_of_run {signatures : SignatureTable} {root : Root} {lowered : Lowered}
    (h : (run signatures root).result = .ok lowered) :
    let count := lowered.declarations.procedures.length + lowered.declarations.vars.length
    (run signatures root).events.filterMap Event.drawn? = List.range count ∧
      (run signatures root).table.source = count := by
  obtain ⟨drawn, hevents, hsource, hcount⟩ := draws_lowerRoot root (.empty signatures)
  have hdeclared : lowered.declarations.procedures.length +
      lowered.declarations.vars.length = drawn := by
    obtain ⟨-, ⟨hrun, -⟩ | ⟨d, -, hfails, -⟩⟩ := endAlike_drawing 0 signatures root
    · obtain rfl := Except.ok.inj (h.symm.trans hrun)
      exact hcount.trans (Nat.zero_add drawn)
    · cases h.symm.trans hfails
  simp only [hdeclared, List.range_eq_range']
  exact ⟨hevents, hsource.trans (Nat.zero_add drawn)⟩

end Lowering

/-! ## Translations -/

namespace Lowering

theorem skeleton_of_run {signatures : SignatureTable} {body : List Stmt} {lowered : Lowered}
    (h : (run signatures (.module body)).result = .ok lowered) :
    let ds := lowered.declarations
    ds.publish.declaredIds.Perm (List.range (ds.procedures.length + ds.vars.length)) ∧
      ds.publish.Closed := by
  obtain ⟨s, hrun, hcomplete, hends⟩ := exists_run h
  intro ds
  rw [← ds.publish.map_id_eq]
  constructor
  · simpa using declaredIds_perm hrun hcomplete hends id
  · exact ds.closed_publish id (fun p hp => inRange_of_procedure hrun hcomplete hends hp)
      fun v => (mem_locals_iff hrun hcomplete hends).mpr

theorem callsWithin_of_closed {d : Document Nat} {count : Nat}
    (hperm : d.declaredIds.Perm (List.range count)) (hclosed : d.Closed) :
    d.CallsWithin (Set.Iio count) := by
  have hprocedures : ∀ id ∈ d.procedures.map (·.id), id < count := fun id hid =>
    List.mem_range.mp (hperm.mem_iff.mp (List.mem_append_left _ hid))
  refine ⟨fun p hp => hprocedures p.id (List.mem_map_of_mem hp), fun p hp id hid => ?_⟩
  refine hprocedures id (hclosed.called p.body ?_ id hid)
  exact List.mem_cons_of_mem _ (List.mem_map_of_mem hp)

/--
Two runs on one tree that draw ids from whatever sources end alike.  They fail with the
same diagnostic, or their documents are the same but for ids: there is a document of
draws, which declares each draw of the run once and refers to nothing else, and each of
the two arises from it by putting the id that its source gave on a draw in place of the
draw.  If the sources keep the draws apart, this is so for every isolated part as well.
-/
theorem translate_parametric {σ τ : Type} [IdSource σ String] [IdSource τ String] (a : σ) (b : τ)
    (signatures : SignatureTable) (root : Root) :
    (∃ d, (translate a signatures root).result = .error d ∧
        (translate b signatures root).result = .error d) ∨
      ∃ (skeleton : Translation Nat) (count : Nat),
        (translate a signatures root).result = .ok (skeleton.map (IdSource.stream a)) ∧
        (translate b signatures root).result = .ok (skeleton.map (IdSource.stream b)) ∧
        (translate a signatures root).table.source = IdSource.after a count ∧
        (translate b signatures root).table.source = IdSource.after b count ∧
        (run signatures root).events.filterMap Event.drawn? = List.range count ∧
        skeleton.document.declaredIds.Perm (List.range count) ∧ skeleton.document.Closed ∧
        (Set.InjOn (IdSource.stream a) (Set.Iio count) →
          Set.InjOn (IdSource.stream b) (Set.Iio count) → ∀ name,
            (skeleton.map (IdSource.stream a)).document.isolate? name =
                (skeleton.document.isolate? name).map (Document.map (IdSource.stream a)) ∧
              (skeleton.map (IdSource.stream b)).document.isolate? name =
                (skeleton.document.isolate? name).map (Document.map (IdSource.stream b))) := by
  have hresult := translate_result a signatures root
  have hresult' := translate_result b signatures root
  cases hrun : (run signatures root).result with
  | error d =>
      rw [hrun] at hresult hresult'
      exact .inl ⟨d, hresult, hresult'⟩
  | ok lowered =>
      rw [hrun] at hresult hresult'
      obtain ⟨hdraws, hsource⟩ := draws_of_run hrun
      have hafter {σ : Type} [IdSource σ String] (source : σ) :
          (translate source signatures root).table.source =
            IdSource.after source (lowered.declarations.procedures.length +
              lowered.declarations.vars.length) := by
        rw [← hsource]
        exact congrArg Table.source (endAlike_drawing source signatures root).table
      obtain ⟨body, rfl⟩ := module_of_run hrun
      obtain ⟨hperm, hclosed⟩ := skeleton_of_run hrun
      have hcalls := callsWithin_of_closed hperm hclosed
      have hdistinct : (lowered.declarations.publish.procedures.map (·.id)).Nodup :=
        (hperm.nodup_iff.mpr List.nodup_range).of_append_left
      refine .inr ⟨lowered.translation, _, hresult, hresult', hafter a, hafter b, hdraws, hperm,
        hclosed, fun ha hb name => ⟨?_, ?_⟩⟩
      · exact Document.isolate?_map hcalls ha hdistinct name
      · exact Document.isolate?_map hcalls hb hdistinct name

theorem translate_parametric_nestedModule : ∃ skeleton : Translation Nat,
    (translate (IdStream.sequential "id") .empty (.module nestedModule)).result =
        .ok (skeleton.map (IdStream.sequential "id")) ∧
      (translate (IdStream.sequential "v") .empty (.module nestedModule)).result =
        .ok (skeleton.map (IdStream.sequential "v")) ∧
      (skeleton.map (IdStream.sequential "v")).document.isolate? "outer" =
        (skeleton.document.isolate? "outer").map (Document.map (IdStream.sequential "v")) := by
  obtain ⟨lowered, h⟩ := nestedModule_lowered
  obtain ⟨d, hfails, -⟩ | ⟨skeleton, count, ha, hb, -, -, -, -, -, hparts⟩ :=
    translate_parametric (IdStream.sequential "id") (IdStream.sequential "v") .empty
      (.module nestedModule)
  · rw [translate_result, h] at hfails
    cases hfails
  · simp only [IdSource.stream_ids] at ha hb hparts
    exact ⟨skeleton, ha, hb, (hparts (sequential_injective "id").injOn
      (sequential_injective "v").injOn "outer").2⟩

end Lowering

end TypedPseudocode
