import TypedPseudocode.Proofs.Coherence

/-!
What a finished run leaves behind.

Once a module has been lowered, each of its regions has become one procedure:
the frame of a function went into the procedure that was declared for it, and
the frame of the module into the entry procedure, if it emitted anything.
-/

namespace TypedPseudocode

open Code TypedPseudocode.Tree

def Procedure.locals {ι : Type} (p : Procedure ι) : List VarId := p.parameters ++ declared p.body

def Declarations.locals {ι : Type} [Inhabited ι] (ds : Declarations ι) (p : ProcId) : List VarId :=
  (ds.procAt p).locals

namespace Lowering

variable {s s' : State}

/-! ## Completed functions -/

structure Frame.Fills (f : Frame) (procedure : Procedure) : Prop where
  around : f.around = []
  operands : f.operands = []
  parameters : procedure.parameters = f.parameters.map (·.target)
  body : procedure.body = f.block.statements

def Filled (s : State) : Prop :=
  ∀ f ∈ s.finished, ∃ p, f.place = some p ∧ f.Fills (s.table.procAt p)

theorem Frame.Fills.congr {f : Frame} {procedure procedure' : Procedure}
    (h : f.Fills procedure)
    (heq : (procedure'.parameters, procedure'.body) = (procedure.parameters, procedure.body)) :
    f.Fills procedure' := by
  obtain ⟨hparameters, hbody⟩ := Prod.mk.inj heq
  exact ⟨h.around, h.operands, hparameters.trans h.parameters, hbody.trans h.body⟩

theorem Frame.Fills.code_eq {f : Frame} {procedure : Procedure} (h : f.Fills procedure) :
    f.code = procedure.body := by
  rw [Frame.code, Frame.codeOf, h.around, h.body]
  rfl

theorem Frame.Fills.locals_eq {f : Frame} {procedure : Procedure} (h : f.Fills procedure) :
    f.locals = procedure.locals := by
  rw [Frame.locals, Procedure.locals, h.code_eq, h.parameters]

theorem Counted.place_ne (hs : Counted s) {f : Frame} (hf : f ∈ s.finished) {p q : ProcId}
    (hp : s.frame.place = some p) (hq : f.place = some q) : q ≠ p := by
  rintro rfl
  have hnodup := hs.nodup_places
  simp only [State.homes, State.units, List.cons_append, List.filterMap_cons, Frame.home?, hp,
    Option.map_some, List.map_append, List.map_cons] at hnodup
  have hrest := (List.nodup_append.mp hnodup).2.1
  refine (List.nodup_cons.mp hrest).1 (List.mem_map.mpr ⟨⟨q, f.name, f.enclosing⟩, ?_, rfl⟩)
  exact List.mem_filterMap.mpr ⟨f, List.mem_append_right _ hf, Frame.home?_eq hq⟩

theorem Filled.keep (hs : Filled s) (h : Moves s s') (hcounted : Counted s) : Filled s' := by
  cases h with
  | inside h =>
      intro f hf
      rw [h.finished] at hf
      obtain ⟨p, hplace, hfills⟩ := hs f hf
      exact ⟨p, hplace, hfills.congr
        (procAt_congr (fun procedure => (procedure.parameters, procedure.body))
          (h.changes.map_procedures _ fun _ => rfl) p)⟩
  | declareFunction =>
      intro f hf
      replace hf : f ∈ s.finished := hf
      obtain ⟨p, hplace, hfills⟩ := hs f hf
      refine ⟨p, hplace, hfills.congr ?_⟩
      have hhome : ⟨p, f.name, f.enclosing⟩ ∈ s.homes :=
        mem_homes_of_units (State.mem_units.mpr (.inr (.inr hf))) hplace
      rw [Table.procAt_withProcedure_of_lt _ _ _ (hcounted.place_lt hhome)]
  | openFunction h => exact hs
  | @closeFunction p g outer unified hplace houter haround hoperands =>
      intro f hf
      rcases List.mem_append.mp hf with hf | hf
      · obtain ⟨q, hq, hfills⟩ := hs f hf
        have hne := hcounted.place_ne hf hplace hq
        refine ⟨q, hq, hfills.congr ?_⟩
        simp [Table.procAt_complete_of_ne _ _ _ hne]
      · obtain rfl := List.mem_singleton.mp hf
        have hlt : p.index < s.table.leave.procedures.length := by
          simpa using hcounted.frame_place_lt hplace
        refine ⟨p, hplace, haround, hoperands, ?_, ?_⟩
        · simp [Table.procAt_complete_self _ _ _ hlt]
        · simp [Table.procAt_complete_self _ _ _ hlt]

theorem filled_of_runs {signatures : SignatureTable} (h : Runs (.initial signatures) s) :
    Filled s :=
  runs_induction h nofun fun hrun h hs => hs.keep h (counted_of_runs hrun)

/-! ## The entry procedure -/

/-- The procedures of the entry: one, unless there is nothing to enter. -/
def entryOf (statements : List TypedStatement) (serial : Nat) : List Procedure :=
  if statements = [] then [] else [⟨serial, none, .void, [], statements, false⟩]

theorem entry_parts (statements : List TypedStatement) (serial : Nat) :
    let entry := (entryOf statements serial)[0]?.getD ⟨default, none, .unknown, [], [], false⟩
    entry.parameters = [] ∧ entry.body = statements ∧ entry.name = none := by
  by_cases hempty : statements = []
  · simp [entryOf, hempty]
  · simp [entryOf, hempty]

structure Ends (s : State) (ds : Declarations) : Prop where
  procedures : ds.procedures =
    s.table.procedures ++ entryOf s.frame.block.statements s.table.source
  vars : ds.vars = s.table.vars
  types : ds.types = s.table.types

theorem Ends.procAt_eq {ds : Declarations} (h : Ends s ds) {p : ProcId}
    (hp : p.index < s.table.procedures.length) : ds.procAt p = s.table.procAt p := by
  rw [Declarations.procAt, Declarations.procAt, h.procedures, List.getElem?_append_left hp]

theorem wrapEntry_yields {t t' : Table} {statements : List TypedStatement} {u : Unit}
    (h : Yields (wrapEntry statements) t u t') :
    t'.procedures = t.procedures ++ entryOf statements t.source ∧ t'.vars = t.vars ∧
      t'.types = t.types ∧ t'.captured = t.captured := by
  unfold wrapEntry at h
  split at h
  · rename_i hempty
    obtain ⟨-, rfl⟩ := yields_return.mp h
    simp [entryOf, List.isEmpty_iff.mp hempty]
  · rename_i hempty
    simp only [yields_bind, yields_modify, yields_tell] at h
    obtain ⟨p, t₁, hdeclare, _, t₂, rfl, rfl⟩ := h
    have hsome : statements ≠ [] := by simpa using hempty
    obtain ⟨hp, rfl⟩ := hdeclare
    obtain rfl := Except.ok.inj hp
    refine ⟨?_, rfl, rfl, rfl⟩
    simp only [entryOf, hsome, if_false]
    change (t.procedures ++ [_]).modify t.procedures.length _ = _
    rw [List.modify_eq_take_cons_drop (by simp)]
    simp [Table.resultSeed]

theorem module_of_run {signatures : SignatureTable} {root : Root} {lowered : Lowered}
    (h : (run signatures root).result = .ok lowered) : ∃ body, root = .module body := by
  cases root with
  | module body => exact ⟨body, rfl⟩
  | _ => cases h

theorem run_yields {signatures : SignatureTable} {body : List Stmt} {lowered : Lowered}
    (h : (run signatures (.module body)).result = .ok lowered) :
    ∃ block t t', Yields (lowerBlock body) (.empty signatures) block t ∧
      Yields (wrapEntry block.statements) t () t' ∧
      lowered = ⟨t'.toDeclarations, t'.called, t'.captured⟩ := by
  have hyields : Yields (lowerRoot (.module body)) (.empty signatures) lowered _ := ⟨h, rfl⟩
  simp only [lowerRoot, yields_bind, yields_gets, yields_tell, yields_return] at hyields
  obtain ⟨block, t₁, hblock, _, t₂, hentry, _, t₃, ⟨rfl, rfl⟩, _, t₄, ⟨rfl, rfl⟩, _, t₅, rfl, rfl,
    -⟩ := hyields
  exact ⟨block, t₁, _, hblock, hentry, rfl⟩

theorem exists_recording_run {signatures : SignatureTable} {body : List Stmt}
    {lowered : Lowered} (h : (run signatures (.module body)).result = .ok lowered) :
    ∃ s, Runs (.initial signatures) s ∧ s.Complete signatures body ∧
      Ends s lowered.declarations ∧
      lowered.called =
        (lowered.declarations.procedures.filter (·.called)).filterMap (·.name) ∧
      lowered.captured = s.table.captured := by
  obtain ⟨block, t₁, t₂, hblock, hentry, rfl⟩ := run_yields h
  obtain ⟨s, hrun, hcomplete, rfl, hstatements⟩ := runs_lowerBlock hblock
  obtain ⟨hprocedures, hvars, htypes, hcaptured⟩ := wrapEntry_yields hentry
  rw [← hstatements] at hprocedures
  exact ⟨s, hrun, hcomplete, ⟨hprocedures, hvars, htypes⟩, rfl, hcaptured⟩

theorem exists_run {signatures : SignatureTable} {body : List Stmt} {lowered : Lowered}
    (h : (run signatures (.module body)).result = .ok lowered) :
    ∃ s, Runs (.initial signatures) s ∧ s.Complete signatures body ∧
      Ends s lowered.declarations := by
  obtain ⟨s, hrun, hcomplete, hends, -⟩ := exists_recording_run h
  exact ⟨s, hrun, hcomplete, hends⟩

theorem nestedModule_lowered : ∃ lowered,
    (run OrderedMap.empty (.module nestedModule)).result = .ok lowered :=
  ⟨_, rfl⟩

/-! ## Regions and procedures -/

/-- A frame is what a region became, and it went into the procedure of that region. -/
structure Frame.Becomes (f : Frame) (signatures : SignatureTable) (body : List Stmt)
    (ds : Declarations) (r : Region) : Prop extends f.Realizes signatures r where
  fills : f.Fills (ds.procAt (r.procedure body))
  called : (ds.procAt (r.procedure body)).name = f.name

section Becomes

variable {f : Frame} {signatures : SignatureTable} {body : List Stmt} {ds : Declarations}
  {r : Region}

theorem Frame.Becomes.locals_eq (h : f.Becomes signatures body ds r) :
    f.locals = ds.locals (r.procedure body) :=
  h.fills.locals_eq

theorem Frame.Becomes.view_eq (h : f.Becomes signatures body ds r) {β : Type} (w : View β) :
    f.view w = w.code (ds.procAt (r.procedure body)).body := by
  rw [Frame.view, h.fills.code_eq, h.fills.operands, w.operands_nil, List.append_nil]

theorem Frame.Becomes.getElem?_parameters (h : f.Becomes signatures body ds r) (i : Nat) :
    f.parameters[i]?.map (fun hint => (hint.name, hint.ty)) =
      r.parameters[i]?.map fun p => (p.name, p.seed signatures (r.name.getD "") i) := by
  have hseeds := congrArg (·[i]?) h.seeds
  simpa only [List.getElem?_map, Region.seeds, Parameter.getElem?_seeds, Nat.zero_add]
    using hseeds

theorem Frame.Becomes.lineage_eq (h : f.Becomes signatures body ds r) :
    f.lineage = r.lineage := by
  rw [Frame.lineage, Region.lineage, h.place, h.enclosing]

end Becomes

theorem frames_become {signatures : SignatureTable} {body : List Stmt} {ds : Declarations}
    (hrun : Runs (.initial signatures) s) (hcomplete : s.Complete signatures body)
    (hends : Ends s ds) :
    List.Forall₂ (fun f r => f.Becomes signatures body ds r) s.units (regions body) := by
  have hunits : s.units = s.frame :: s.finished := by
    rw [State.units, hcomplete.outer]
    rfl
  have hrealizes := hcomplete.realizes
  rw [hunits]
  cases hrealizes with
  | cons hmodule hfunctions =>
      refine .cons ?_ (forall₂_imp_mem hfunctions fun f hf r _ hr => ?_)
      · have hparameters : s.frame.parameters = [] := List.map_eq_nil_iff.mp hmodule.seeds
        have hentry : (Region.module body).procedure body = ⟨s.table.procedures.length⟩ :=
          congrArg ProcId.mk hcomplete.procedures.symm
        have hprocedure : ds.procAt ⟨s.table.procedures.length⟩ =
            (entryOf s.frame.block.statements s.table.source)[0]?.getD
              ⟨default, none, .unknown, [], [], false⟩ := by
          rw [Declarations.procAt, hends.procedures, List.getElem?_append_right (Nat.le_refl _),
            Nat.sub_self]
        obtain ⟨hnone, hbody, hname⟩ := entry_parts s.frame.block.statements s.table.source
        rw [← hprocedure, ← hentry] at hnone hbody hname
        refine ⟨hmodule, ⟨hcomplete.around, hcomplete.operands, ?_, hbody⟩, ?_⟩
        · rw [hnone, hparameters]
          rfl
        · rw [hname, hmodule.name]
          rfl
      · obtain ⟨p, hplace, hfills⟩ := filled_of_runs hrun f hf
        have hprocedure : r.procedure body = p := by
          rw [Region.procedure, ← hr.place, hplace]
          rfl
        have hunit : f ∈ s.units := State.mem_units.mpr (.inr (.inr hf))
        have hhome := mem_homes_of_units hunit hplace
        have hsame := hends.procAt_eq ((counted_of_runs hrun).place_lt hhome)
        refine ⟨hr, ?_, ?_⟩
        · rw [hprocedure, hsame]
          exact hfills
        · rw [hprocedure, hsame]
          exact (named_of_runs hrun).homes _ hhome

end Lowering

end TypedPseudocode
