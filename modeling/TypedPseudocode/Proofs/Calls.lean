import TypedPseudocode.Document.Isolation
import TypedPseudocode.Proofs.Snapshots

/-!
Records of calls.

A procedure is marked when a call reaches it, and what the first call of a name
shows is remembered, unless a signature was supplied.  Both happen while a name is
looked up, long before the call stands in a document.  No call gets lost in
between: the marks are those of the procedures that the finished document calls.
-/

namespace TypedPseudocode

open Code TypedPseudocode.Tree

namespace Code

theorem View.code_calls_eq_map (ss : List TypedStatement) :
    View.calls.code ss = (View.callSites.code ss).map Prod.fst := by
  have hexpression (e : TypedExpression) : e.callee? = e.callSite?.map Prod.fst := by
    cases e <;> rfl
  have hstatement (s : TypedStatement) : s.callee? = s.callSite?.map Prod.fst := by
    cases s <;> rfl
  have hoperands (es : List TypedExpression) :
      View.calls.operands es = (View.callSites.operands es).map Prod.fst := by
    simp only [View.operands, Expression.gather, List.map_filterMap]
    exact List.filterMap_congr fun e _ => hexpression e
  simp only [View.code, List.map_flatMap, List.map_append, hoperands]
  congr 1
  funext s
  congr 1
  change s.callee?.toList = s.callSite?.toList.map Prod.fst
  rw [hstatement]
  cases s.callSite? <;> rfl

theorem mem_callsAll_iff {q : ProcId} {code : List TypedStatement} :
    q ∈ Statement.callsAll code ↔ ∃ tys, (q, tys) ∈ View.callSites.code code := by
  rw [← View.code_calls, View.code_calls_eq_map]
  simp

theorem exists_call_of_mem_callSites {code : List TypedStatement} {q : ProcId} {tys : List Ty}
    (h : (q, tys) ∈ View.callSites.code code) :
    ∃ arguments ty, .call q arguments ty ∈ Code.expressions code ∧
      arguments.map (·.ty) = tys := by
  obtain ⟨s, hs, h⟩ := List.mem_flatMap.mp h
  rcases List.mem_append.mp h with h | h
  · have hsite : s.callSite? = some (q, tys) := Option.mem_toList.mp h
    cases s with
    | call p arguments =>
        obtain ⟨rfl, rfl⟩ := Prod.mk.inj (Option.some.inj hsite)
        refine ⟨arguments, .unknown, List.mem_flatMap.mpr ⟨_, hs, ?_⟩, rfl⟩
        rw [Statement.roots, Expression.partsAll_singleton]
        exact List.mem_cons_self
    | _ => cases hsite
  · obtain ⟨e, he, hsite⟩ := List.mem_filterMap.mp h
    cases e with
    | call p arguments ty =>
        obtain ⟨rfl, rfl⟩ := Prod.mk.inj (Option.some.inj hsite)
        have hroots := parts_operands_subset_roots s he
        exact ⟨arguments, ty, List.mem_flatMap.mpr ⟨s, hs, hroots⟩, rfl⟩
    | _ => cases hsite

end Code

namespace Declarations

variable (ds : Declarations)

theorem exists_procAt {p : Procedure} (hp : p ∈ ds.procedures) : ∃ q, ds.procAt q = p := by
  obtain ⟨i, hi, rfl⟩ := List.mem_iff_getElem.mp hp
  exact ⟨⟨i⟩, by simp [procAt, hi]⟩

theorem mem_targets_iff (ids : IdStream) {id : String} :
    id ∈ (ds.publish.map ids).procedures.flatMap Document.Procedure.calls ↔
      ∃ p ∈ ds.procedures, ∃ q ∈ Statement.callsAll p.body, ids (ds.procAt q).id = id := by
  have hcalls (p : Procedure) : ((ds.publishProcedure p).map ids).calls =
      (Statement.callsAll p.body).map fun q => ids (ds.procAt q).id := by
    simp [Document.Procedure.calls, Document.Procedure.map, publishProcedure,
      Document.Statement.map, publishBody, Statement.callsAll_mapAll,
      Function.comp_def]
  simp only [Document.map, publish, List.map_map, List.flatMap_map,
    Function.comp_apply, hcalls, List.mem_flatMap, List.mem_map]

end Declarations

namespace Lowering

variable {s s' : State}

/-! ## Calls in states -/

def State.callSites (s : State) : List (ProcId × List Ty) :=
  s.units.flatMap (·.view View.callSites)

theorem Local.mem_callSites {new : List VarId} {told : List (VarId × Ty)} {made : List Made}
    (h : Local s s' new told made) (x : ProcId × List Ty) :
    x ∈ s'.callSites ↔ x ∈ s.callSites ∨ ∃ m ∈ made, m.seen View.callSites = some x := by
  simp only [State.callSites, State.units, h.outer, h.finished, List.cons_append,
    List.flatMap_cons, List.mem_append, h.view View.callSites x]
  grind

theorem Moves.callSites_subset (h : Moves s s') : s.callSites ⊆ s'.callSites := by
  intro x hx
  cases h with
  | inside h => exact (h.mem_callSites x).mpr (.inl hx)
  | declareFunction => exact hx
  | openFunction h => exact List.mem_append_right _ hx
  | closeFunction hplace houter haround hoperands =>
      exact ((units_closeFunction houter _).flatMap_right _).mem_iff.mpr hx

theorem Moves.exists_lookup (h : Moves s s') {p : ProcId} {tys : List Ty}
    (hsite : (p, tys) ∈ s'.callSites) : (p, tys) ∈ s.callSites ∨
      ∃ name, s.table.lookup name .enclosing = some (.procedure p) ∧
        s'.table = s.table.reach name p tys := by
  cases h with
  | inside h =>
      rcases (h.mem_callSites _).mp hsite with hsite | ⟨m, hm, hseen⟩
      · exact .inl hsite
      · cases h.justified m hm with
        | @call _ _ _ name hlookup htable =>
            obtain ⟨rfl, rfl⟩ := Prod.mk.inj (Option.some.inj hseen)
            exact .inr ⟨name, hlookup, htable⟩
        | _ => cases hseen
  | declareFunction => exact .inl hsite
  | openFunction h =>
      rcases List.mem_append.mp hsite with hsite | hsite
      · cases hsite
      · exact .inl hsite
  | closeFunction hplace houter haround hoperands =>
      exact .inl (((units_closeFunction houter _).flatMap_right _).mem_iff.mp hsite)

structure SameRecords (t t' : Table) : Prop where
  called : ∀ p, (t'.procAt p).called = (t.procAt p).called
  captured : t'.captured = t.captured

theorem Binds.sameRecords {t t' : Table} {name : String} {ty : Ty} {v : VarId}
    {declaration : List TypedStatement} (h : Binds t name ty v declaration t') :
    SameRecords t t' := by
  cases h with
  | known => exact ⟨fun _ => rfl, rfl⟩
  | fresh => exact ⟨fun _ => rfl, rfl⟩

/-- Nothing is recorded, unless a call is made that stands in the next state. -/
theorem Step.records (h : Step s s') : SameRecords s.table s'.table ∨
    ∃ name p tys, s.table.lookup name .enclosing = some (.procedure p) ∧
      s'.table = s.table.reach name p tys ∧ (p, tys) ∈ s'.callSites := by
  -- Moves do not tell which call it was that reached a procedure, so the steps are needed.
  cases h with
  | @eval t operands h =>
      generalize hbefore : s.frame.operands = before at h
      cases h with
      | @call below arguments name p h =>
          refine .inr ⟨name, p, _, h, rfl, List.mem_append_left _ (List.mem_append_right _ ?_)⟩
          rw [View.operands_append, View.operands_cons]
          simp [View.callSites, Expression.callSite?]
      | _ => exact .inl ⟨fun _ => rfl, rfl⟩
  | assign _ h => exact .inl h.sameRecords
  | hint h => exact .inl h.sameRecords
  | declareFunction =>
      exact .inl ⟨Table.procAt_withProcedure_congr _ _ _ (·.called) rfl, rfl⟩
  | closeFunction hplace houter haround hoperands hty =>
      refine .inl ⟨fun p => ?_, Table.captured_leave _⟩
      rw [procAt_complete_congr (·.called) fun _ => rfl, Table.toDeclarations_leave]
  | _ => exact .inl ⟨fun _ => rfl, rfl⟩

section Reach

variable (t : Table) (name : String) {p : ProcId} (tys : List Ty)

theorem called_reach (hp : p.index < t.procedures.length) (q : ProcId) :
    ((t.reach name p tys).procAt q).called ↔ q = p ∨ (t.procAt q).called := by
  by_cases hq : q = p
  · subst hq
    simp [Table.procAt_reach_self t name tys hp]
  · simp [Table.procAt_reach_of_ne t name p tys hq, hq]

variable (p)

theorem contains_reach {other : String} (h : t.captured.contains other) :
    (t.reach name p tys).captured.contains other := by
  rw [OrderedMap.contains, Table.get?_captured_reach]
  split
  · rfl
  · exact h

theorem contains_reach_self : t.signatures.contains name ∨
    (t.reach name p tys).captured.contains name := by
  by_cases hsupplied : t.signatures.contains name
  · exact .inl hsupplied
  · by_cases hcaptured : t.captured.contains name
    · exact .inr (contains_reach t name p tys hcaptured)
    · have hnews : t.isNews name := by
        simp [Table.isNews, hsupplied, hcaptured]
      right
      rw [OrderedMap.contains, Table.get?_captured_reach, if_pos ⟨hnews, rfl⟩]
      rfl

end Reach

/-! ## The records of a run -/

/-- What has been recorded is what the calls so far show. -/
structure Recorded (s : State) : Prop where
  called : ∀ p, (s.table.procAt p).called ↔ ∃ tys, (p, tys) ∈ s.callSites
  known : ∀ {p tys}, (p, tys) ∈ s.callSites → ∃ name, (s.table.procAt p).name = some name ∧
    (s.table.signatures.contains name ∨ s.table.captured.contains name)
  shown : ∀ {name signature}, s.table.captured.get? name = some signature →
    ¬ s.table.signatures.contains name ∧ ∃ p tys returns, (p, tys) ∈ s.callSites ∧
      (s.table.procAt p).name = some name ∧ returns ≤ (s.table.procAt p).ty ∧
      signature = .ofCall returns tys

theorem Recorded.index_lt (hs : Recorded s) {p : ProcId} {tys : List Ty}
    (hsite : (p, tys) ∈ s.callSites) : p.index < s.table.procedures.length := by
  have hcalled := (hs.called p).mpr ⟨tys, hsite⟩
  by_contra hp
  rw [Declarations.procAt_of_ge (Nat.not_lt.mp hp)] at hcalled
  cases hcalled

section Keep

variable {signatures : SignatureTable} (hrun : Runs (.initial signatures) s)

include hrun in
theorem name_of_lookup {name : String} {p : ProcId}
    (h : s.table.lookup name .enclosing = some (.procedure p)) :
    p.index < s.table.procedures.length ∧ (s.table.procAt p).name = some name := by
  obtain ⟨scope, f, -, hbinding, hget⟩ := (scoped_of_runs hrun).exists_binding h
  obtain ⟨home, hmem, rfl, hname, -⟩ := hbinding.mem_homes hget
  exact ⟨(counted_of_runs hrun).place_lt hmem, ((named_of_runs hrun).homes home hmem).trans hname⟩

variable (hs : Recorded s) (h : Step s s')

include hrun hs h

theorem Recorded.called_keep (p : ProcId) :
    (s'.table.procAt p).called ↔ ∃ tys, (p, tys) ∈ s'.callSites := by
  constructor
  · intro hcalled
    have hold (hcalled : (s.table.procAt p).called) : ∃ tys, (p, tys) ∈ s'.callSites := by
      obtain ⟨tys, hsite⟩ := (hs.called p).mp hcalled
      exact ⟨tys, h.moves.callSites_subset hsite⟩
    rcases h.records with hsame | ⟨name, q, tys, hlookup, htable, hsite⟩
    · exact hold (hsame.called p ▸ hcalled)
    · rw [htable, called_reach _ _ _ (name_of_lookup hrun hlookup).1] at hcalled
      rcases hcalled with rfl | hcalled
      · exact ⟨tys, hsite⟩
      · exact hold hcalled
  · rintro ⟨tys, hsite⟩
    rcases h.moves.exists_lookup hsite with hsite | ⟨name, hlookup, htable⟩
    · have hcalled := (hs.called p).mpr ⟨tys, hsite⟩
      rcases h.records with hsame | ⟨name, q, _, hlookup, htable, -⟩
      · rwa [hsame.called]
      · rw [htable, called_reach _ _ _ (name_of_lookup hrun hlookup).1]
        exact .inr hcalled
    · rw [htable, called_reach _ _ _ (name_of_lookup hrun hlookup).1]
      exact .inl rfl

theorem Recorded.known_keep {p : ProcId} {tys : List Ty} (hsite : (p, tys) ∈ s'.callSites) :
    ∃ name, (s'.table.procAt p).name = some name ∧
      (s'.table.signatures.contains name ∨ s'.table.captured.contains name) := by
  rw [h.signatures_eq]
  rcases h.moves.exists_lookup hsite with hsite | ⟨name, hlookup, htable⟩
  · obtain ⟨name, hname, hknown⟩ := hs.known hsite
    refine ⟨name, (h.moves.name_procAt (hs.index_lt hsite)).trans hname, ?_⟩
    rcases h.records with hsame | ⟨_, q, _, -, htable, -⟩
    · rwa [hsame.captured]
    · exact hknown.imp_right fun hcaptured => htable ▸ contains_reach _ _ q _ hcaptured
  · obtain ⟨hlt, hname⟩ := name_of_lookup hrun hlookup
    refine ⟨name, (h.moves.name_procAt hlt).trans hname, ?_⟩
    exact htable ▸ contains_reach_self s.table name p tys

theorem Recorded.shown_keep {name : String} {signature : Signature}
    (hget : s'.table.captured.get? name = some signature) :
    ¬ s'.table.signatures.contains name ∧ ∃ p tys returns, (p, tys) ∈ s'.callSites ∧
      (s'.table.procAt p).name = some name ∧ returns ≤ (s'.table.procAt p).ty ∧
      signature = .ofCall returns tys := by
  rw [h.signatures_eq]
  have hrises := rises_of_step hrun h
  have hold (hget : s.table.captured.get? name = some signature) :
      ¬ s.table.signatures.contains name ∧ ∃ p tys returns, (p, tys) ∈ s'.callSites ∧
        (s'.table.procAt p).name = some name ∧ returns ≤ (s'.table.procAt p).ty ∧
        signature = .ofCall returns tys := by
    obtain ⟨hsupplied, p, tys, returns, hsite, hname, hty, rfl⟩ := hs.shown hget
    refine ⟨hsupplied, p, tys, returns, h.moves.callSites_subset hsite, ?_,
      hty.trans (hrises.results p), rfl⟩
    exact (h.moves.name_procAt (hs.index_lt hsite)).trans hname
  rcases h.records with hsame | ⟨other, p, tys, hlookup, htable, hsite⟩
  · exact hold (hsame.captured ▸ hget)
  · rw [htable, Table.get?_captured_reach] at hget
    split at hget
    · rename_i hfirst
      obtain ⟨hnews, rfl⟩ := hfirst
      obtain rfl := Option.some.inj hget
      obtain ⟨hlt, hname⟩ := name_of_lookup hrun hlookup
      refine ⟨?_, p, tys, _, hsite, (h.moves.name_procAt hlt).trans hname, hrises.results p, rfl⟩
      simp only [Table.isNews, Bool.and_eq_true, Bool.not_eq_true'] at hnews
      simp [hnews.1]
    · exact hold hget

end Keep

theorem recorded_of_runs {signatures : SignatureTable} (h : Runs (.initial signatures) s) :
    Recorded s := by
  induction h with
  | refl => exact ⟨fun p => ⟨nofun, fun ⟨_, hsite⟩ => (by cases hsite)⟩, nofun, nofun⟩
  | tail hrun step ih =>
      exact ⟨ih.called_keep hrun step, ih.known_keep hrun step, ih.shown_keep hrun step⟩

/-! ## Finished runs -/

theorem entry_called (statements : List TypedStatement) (serial i : Nat) :
    ((entryOf statements serial)[i]?.getD ⟨default, none, .unknown, [], [], false⟩).called =
      false := by
  by_cases hempty : statements = []
  · simp [entryOf, hempty]
  · cases i with
    | zero => simp [entryOf, hempty]
    | succ i => simp [entryOf, hempty]

section Finished

variable {signatures : SignatureTable} {body : List Stmt} {ds : Declarations}
  (hrun : Runs (.initial signatures) s) (hcomplete : s.Complete signatures body)
  (hends : Ends s ds)

include hends in
theorem Ends.called_eq (p : ProcId) : (ds.procAt p).called = (s.table.procAt p).called := by
  by_cases hp : p.index < s.table.procedures.length
  · rw [hends.procAt_eq hp]
  · rw [Declarations.procAt_of_ge (Nat.not_lt.mp hp), Declarations.procAt, hends.procedures,
      List.getElem?_append_right (Nat.not_lt.mp hp)]
    exact entry_called _ _ _

include hrun hcomplete hends

theorem mem_callSites_iff {x : ProcId × List Ty} :
    x ∈ s.callSites ↔ ∃ p ∈ ds.procedures, x ∈ View.callSites.code p.body := by
  constructor
  · intro hx
    obtain ⟨f, hf, hx⟩ := List.mem_flatMap.mp hx
    obtain ⟨r, hr, hbecomes⟩ := exists_region_of_unit hrun hcomplete hends hf
    rw [hbecomes.view_eq] at hx
    rcases ds.procAt_mem_or (r.procedure body) with hmem | ⟨-, hbody⟩
    · exact ⟨_, hmem, hx⟩
    · rw [hbody] at hx
      cases hx
  · rintro ⟨p, hp, hx⟩
    obtain ⟨r, hr, rfl⟩ := exists_region_of_mem hrun hcomplete hends hp
    obtain ⟨f, hf, hbecomes⟩ := exists_unit_of_region hrun hcomplete hends hr
    exact List.mem_flatMap.mpr ⟨f, hf, hbecomes.view_eq View.callSites ▸ hx⟩

theorem called_iff (q : ProcId) :
    (ds.procAt q).called ↔ ∃ p ∈ ds.procedures, q ∈ Statement.callsAll p.body := by
  rw [hends.called_eq, (recorded_of_runs hrun).called]
  simp only [mem_callSites_iff hrun hcomplete hends, mem_callsAll_iff]
  constructor
  · rintro ⟨tys, p, hp, hsite⟩
    exact ⟨p, hp, tys, hsite⟩
  · rintro ⟨p, hp, tys, hsite⟩
    exact ⟨tys, p, hp, hsite⟩

theorem procAt_mem_of_call {p : Procedure} (hp : p ∈ ds.procedures) {q : ProcId}
    (hq : q ∈ Statement.callsAll p.body) : ds.procAt q ∈ ds.procedures := by
  have hlt := (inRange_of_procedure hrun hcomplete hends hp).called q hq
  simp [Declarations.procAt, hlt]

theorem called_iff_mem_targets {ids : IdStream}
    (hids : (ds.publish.map ids).declaredIds.Nodup) {p : Procedure} (hp : p ∈ ds.procedures) :
    p.called ↔
      ids p.id ∈ (ds.publish.map ids).procedures.flatMap Document.Procedure.calls := by
  rw [ds.mem_targets_iff]
  constructor
  · intro hcalled
    obtain ⟨q, rfl⟩ := ds.exists_procAt hp
    obtain ⟨caller, hcaller, hq⟩ := (called_iff hrun hcomplete hends q).mp hcalled
    exact ⟨caller, hcaller, q, hq, rfl⟩
  · rintro ⟨caller, hcaller, q, hq, hid⟩
    have hmem := procAt_mem_of_call hrun hcomplete hends hcaller hq
    have hnodup : (ds.procedures.map fun p => ids p.id).Nodup := by
      rw [ds.declaredIds_publish] at hids
      exact hids.of_append_left
    rw [← List.inj_on_of_nodup_map hnodup hmem hp hid]
    exact (called_iff hrun hcomplete hends q).mpr ⟨caller, hcaller, hq⟩

omit hcomplete in
theorem exists_name_of_called {p : Procedure} (hp : p ∈ ds.procedures) (hcalled : p.called) :
    ∃ name, p.name = some name ∧
      (signatures.contains name ∨ s.table.captured.contains name) := by
  have hrecorded := recorded_of_runs hrun
  obtain ⟨q, rfl⟩ := ds.exists_procAt hp
  rw [hends.called_eq] at hcalled
  obtain ⟨tys, hsite⟩ := (hrecorded.called q).mp hcalled
  obtain ⟨name, hname, hknown⟩ := hrecorded.known hsite
  rw [signatures_of_runs hrun] at hknown
  rw [hends.procAt_eq (hrecorded.index_lt hsite)]
  exact ⟨name, hname, hknown⟩

theorem exists_call_of_captured {name : String} {signature : Signature}
    (hget : s.table.captured.get? name = some signature) :
    ¬ signatures.contains name ∧ ∃ p ∈ ds.procedures, ∃ q tys returns,
      (q, tys) ∈ View.callSites.code p.body ∧ (ds.procAt q).name = some name ∧
      returns ≤ (ds.procAt q).ty ∧ signature = .ofCall returns tys := by
  have hrecorded := recorded_of_runs hrun
  obtain ⟨hsupplied, q, tys, returns, hsite, hname, hty, hshown⟩ := hrecorded.shown hget
  rw [signatures_of_runs hrun] at hsupplied
  obtain ⟨p, hp, hcode⟩ := (mem_callSites_iff hrun hcomplete hends).mp hsite
  rw [← hends.procAt_eq (hrecorded.index_lt hsite)] at hname hty
  exact ⟨hsupplied, p, hp, q, tys, returns, hcode, hname, hty, hshown⟩

end Finished

/--
In a document with distinct ids, the procedures that are marked as called are
those that some procedure calls, and `called` lists their names in order.  What is
captured is captured for those of these names that have no signature yet.  It
shows one of the calls that stand in the document: the types of its arguments,
and a type below that of its result.
-/
theorem records_agree_with_calls {signatures : SignatureTable} {body : List Stmt}
    {lowered : Lowered} (ids : IdStream)
    (h : (run signatures (.module body)).result = .ok lowered)
    (hids : (lowered.declarations.publish.map ids).declaredIds.Nodup) :
    let ds := lowered.declarations
    let document := ds.publish.map ids
    let targets := document.procedures.flatMap Document.Procedure.calls
    (∀ p ∈ ds.procedures, p.called ↔ ids p.id ∈ targets) ∧
      lowered.called.map some =
        (document.procedures.filter (·.id ∈ targets)).map (·.name) ∧
      (∀ name, name ∈ lowered.captured.keys ↔ name ∈ lowered.called ∧ name ∉ signatures.keys) ∧
      ∀ name signature, lowered.captured.get? name = some signature →
        (∀ argument ∈ signature.arguments, argument.name = none) ∧
          ∃ p ∈ ds.procedures, ∃ q arguments ty, .call q arguments ty ∈ expressions p.body ∧
            (ds.procAt q).name = some name ∧
            signature.arguments.map (·.ty) = arguments.map (·.ty) ∧
            signature.returns ≤ (ds.procAt q).ty := by
  obtain ⟨s, hrun, hcomplete, hends, hcalled, hcaptured⟩ := exists_recording_run h
  intro ds document targets
  have hmarked {p : Procedure} (hp : p ∈ ds.procedures) : p.called ↔ ids p.id ∈ targets :=
    called_iff_mem_targets hrun hcomplete hends hids hp
  refine ⟨fun p hp => hmarked hp, ?_, fun name => ?_, fun name signature hget => ?_⟩
  · have hnamed : lowered.called.map some =
        (ds.procedures.filter (·.called)).map (·.name) := by
      rw [hcalled, List.map_filterMap, List.filterMap_eq_map_iff_forall_eq_some]
      intro p hp
      obtain ⟨hp, hcalled⟩ := List.mem_filter.mp hp
      obtain ⟨name, hname, -⟩ := exists_name_of_called hrun hends hp hcalled
      rw [hname]
      rfl
    have hsame : ds.procedures.filter (·.called) =
        ds.procedures.filter (fun p => ids p.id ∈ targets) :=
      List.filter_congr fun p hp => by simp [← hmarked hp]
    rw [hnamed, hsame]
    simp only [document, Document.map, Declarations.publish, List.map_map, List.filter_map]
    rfl
  · rw [hcaptured, ← OrderedMap.contains_iff_mem_keys, ← OrderedMap.contains_iff_mem_keys,
      hcalled, List.mem_filterMap]
    constructor
    · intro hcontains
      obtain ⟨signature, hget⟩ := Option.isSome_iff_exists.mp hcontains
      obtain ⟨hsupplied, p, hp, q, tys, returns, hcode, hname, -⟩ :=
        exists_call_of_captured hrun hcomplete hends hget
      have hcall : q ∈ Statement.callsAll p.body := mem_callsAll_iff.mpr ⟨tys, hcode⟩
      have hmem := procAt_mem_of_call hrun hcomplete hends hp hcall
      have hcalled := (called_iff hrun hcomplete hends q).mpr ⟨p, hp, hcall⟩
      exact ⟨⟨ds.procAt q, List.mem_filter.mpr ⟨hmem, hcalled⟩, hname⟩, hsupplied⟩
    · rintro ⟨⟨p, hp, hname⟩, hsupplied⟩
      obtain ⟨hp, hcalled⟩ := List.mem_filter.mp hp
      obtain ⟨name', hname', hknown⟩ := exists_name_of_called hrun hends hp hcalled
      rw [hname] at hname'
      obtain rfl := Option.some.inj hname'
      exact hknown.resolve_left hsupplied
  · rw [hcaptured] at hget
    obtain ⟨-, p, hp, q, tys, returns, hcode, hname, hty, rfl⟩ :=
      exists_call_of_captured hrun hcomplete hends hget
    obtain ⟨arguments, ty, hcall, rfl⟩ := exists_call_of_mem_callSites hcode
    refine ⟨by simp [Signature.ofCall], p, hp, q, arguments, ty, hcall, hname, ?_, hty⟩
    simp [Signature.ofCall]

theorem records_agree_with_calls_nestedModule : ∃ lowered,
    (run outerSignature (.module nestedModule)).result = .ok lowered ∧
      (lowered.declarations.publish.map (IdStream.sequential "id")).declaredIds.Nodup ∧
      lowered.called = ["outer", "inner"] ∧
      lowered.captured.get? "inner" = some (.ofCall .unknown [.int]) ∧
      (∀ p ∈ lowered.declarations.procedures, p.called ↔
        IdStream.sequential "id" p.id ∈
          (lowered.declarations.publish.map (IdStream.sequential "id")).procedures.flatMap
            Document.Procedure.calls) ∧
      (∀ name, name ∈ lowered.captured.keys ↔
        name ∈ lowered.called ∧ name ∉ outerSignature.keys) ∧
      ∃ p ∈ lowered.declarations.procedures, ∃ q arguments ty,
        .call q arguments ty ∈ expressions p.body ∧
          (lowered.declarations.procAt q).name = some "inner" ∧
          [.int] = arguments.map (·.ty) ∧
          .unknown ≤ (lowered.declarations.procAt q).ty := by
  obtain ⟨lowered, h⟩ : ∃ lowered,
    (run outerSignature (.module nestedModule)).result = .ok lowered := ⟨_, rfl⟩
  have hdistinct : (run outerSignature (.module nestedModule)).result.toOption.map
      (fun lowered => decide (lowered.declarations.publish.map
        (IdStream.sequential "id")).declaredIds.Nodup) = some true := by
    decide +kernel
  have hparts : (run outerSignature (.module nestedModule)).result.toOption.map
      (fun lowered => (lowered.called, lowered.captured.get? "inner")) =
      some (["outer", "inner"], some (.ofCall .unknown [.int])) := rfl
  rw [h] at hdistinct hparts
  have hids := of_decide_eq_true (Option.some.inj hdistinct)
  obtain ⟨hcalled, hget⟩ := Prod.mk.inj (Option.some.inj hparts)
  obtain ⟨hmarked, -, hkeys, hshown⟩ :=
    records_agree_with_calls (IdStream.sequential "id") h hids
  exact ⟨lowered, h, hids, hcalled, hget, hmarked, hkeys, (hshown "inner" _ hget).2⟩

end Lowering

end TypedPseudocode
