import TypedPseudocode.Proofs.Emission
import TypedPseudocode.Proofs.Outlines

/-!
Functions and the procedures that they become.

The outline of some statements tells beforehand which procedure each of their
functions becomes, at any depth.  Once the statements have been lowered, the
procedure has the name and the parameters of the function and its body is a
rendering of the source.  What is lowered later does not touch it again.
-/

namespace TypedPseudocode

open Code TypedPseudocode.Tree

theorem Table.Precedes.varAt {t : Table} {ds : Declarations} (h : t.Precedes ds) {v : VarId}
    (hv : v.index < t.vars.length) : ds.varAt v = t.varAt v := by
  obtain ⟨later, hlater⟩ := h.vars
  rw [Declarations.varAt, Declarations.varAt, ← hlater, List.getElem?_append_left hv]

namespace Lowering

variable {m : Meaning} {ds : Declarations} {t t' : Table}

/-! ## Places of procedures -/

section Places

variable (place : Option ProcId) (enclosing : List (Option ProcId))

def stateWith (t : Table) (returns : Ty) : State :=
  ⟨t, { Frame.start place enclosing none with block := ⟨[], returns⟩ }, [], [], []⟩

theorem lowerValue_length {e : Expr} {x : TypedExpression} (h : Yields (lowerValue e) t x t') :
    t'.procedures.length = t.procedures.length :=
  procedures_length_eq (runs_lowerValue h (stateWith none [] t .unknown)) rfl

theorem bindName_length {line : Nat} {name : String} {ty : Ty} {v : VarId}
    {declaration : List TypedStatement}
    (h : Yields (bindName line name ty) t (v, declaration) t') :
    t'.procedures.length = t.procedures.length := by
  cases binds_bindName h <;> rfl

theorem lowerStmt_outline {s : Stmt} {returns : Ty} {pass : FirstPass}
    (h : Yields (lowerStmt returns s) t pass t') :
    let o := s.outline (place :: enclosing) t.procedures.length
    pass.declared = o.places.map Prod.fst ∧ t'.procedures.length = o.next := by
  obtain ⟨-, -, -, -, -, hplaces, hnext⟩ :=
    lowers_lowerStmt (s := stateWith place enclosing t returns) s h
  exact ⟨hplaces, hnext⟩

theorem lowerStmts_outline {ss : List Stmt} {returns : Ty} {pass : FirstPass}
    (h : Yields (lowerStmts returns ss) t pass t') :
    let o := Stmt.outlineAll (place :: enclosing) t.procedures.length ss
    pass.declared = o.places.map Prod.fst ∧ t'.procedures.length = o.next := by
  obtain ⟨-, -, -, -, -, hplaces, hnext⟩ :=
    lowers_lowerStmts (s := stateWith place enclosing t returns) ss h
  exact ⟨hplaces, hnext⟩

theorem lowerBlock_next {body : List Stmt} {block : Block}
    (h : Yields (lowerBlock body) t block t') :
    t'.procedures.length = (blockOutline body (place :: enclosing) t.procedures.length).next :=
  (follows_of_passes (lowers_lowerStmts body) (completes_lowerBodies body)
    (stateWith place enclosing t .unknown) block t' h rfl).procedures_length

theorem lowerBodies_next {ss : List Stmt} {places : List (ProcId × String)} {u : Unit}
    (hnames : places.map Prod.snd = ss.filterMap Stmt.functionName?)
    (h : Yields (lowerBodies ss (places.map Prod.fst)) t u t') :
    t'.procedures.length =
      (Stmt.outlineBodies (place :: enclosing) ss places t.procedures.length).next := by
  obtain ⟨-, -, -, hnext⟩ :=
    completes_lowerBodies (s := stateWith place enclosing t .unknown) ss hnames h
  exact hnext

theorem named_lowerStmts {ss : List Stmt} {returns : Ty} {pass : FirstPass}
    (h : Yields (lowerStmts returns ss) t pass t') :
    ∀ waiting ∈ (Stmt.outlineAll (place :: enclosing) t.procedures.length ss).places,
      (t'.procAt waiting.1).name = some waiting.2 := by
  induction ss generalizing t returns pass with
  | nil => exact fun waiting hwaiting => absurd hwaiting List.not_mem_nil
  | cons s ss ih =>
      simp only [lowerStmts, yields_bind, yields_tell, yields_return] at h
      obtain ⟨_, _, rfl, here, t₁, hhere, there, t₂, hthere, rfl, rfl⟩ := h
      have hgrows : Table.Grows (Stmt.bindsAll ss) [] t₁ t₂ :=
        hthere.keeps (keeps_lowerStmts ss here.returns)
      obtain ⟨-, hnext⟩ := lowerStmt_outline place enclosing hhere
      intro waiting hwaiting
      rcases List.mem_append.mp hwaiting with hwaiting | hwaiting
      · obtain ⟨-, hlt⟩ := (covers_outline s (place :: enclosing) _).index_of_mem hwaiting
        rw [hgrows.name_eq (hnext ▸ hlt)]
        cases s with
        | functionDef line name ps body decorators hint =>
            obtain rfl := List.mem_singleton.mp hwaiting
            simp only [lowerStmt, yields_bind, yields_return] at hhere
            obtain ⟨p, t₃, hp, rfl, rfl⟩ := hhere
            obtain ⟨rfl, stated, -, rfl⟩ := declareFunction_yields hp
            rw [Table.procAt_withProcedure, if_pos rfl]
        | _ => exact absurd hwaiting List.not_mem_nil
      · rw [← hnext] at hwaiting
        exact ih hthere waiting hwaiting

end Places

/-! ## Translated functions -/

structure Translates (m : Meaning) (ds : Declarations) (r : Region) (procedure : Procedure) :
    Prop where
  name : procedure.name = r.name
  parameters : procedure.parameters.map (fun v => (ds.varAt v).name) =
    r.parameters.map (·.name)
  body : EmitsAll m r.body procedure.body

def Translated (m : Meaning) (ds : Declarations) (t : Table) (r : Region) : Prop :=
  ∃ p, r.place = some p ∧ p.index < t.procedures.length ∧ Translates m ds r (t.procAt p)

/-- What has been translated stays so, unless its procedure is completed again. -/
theorem Translated.grows {names : List String} {opened : List ProcId} {r : Region}
    (h : Translated m ds t r) (hgrows : Table.Grows names opened t t')
    (hopened : ∀ p ∈ opened, r.place ≠ some p) : Translated m ds t' r := by
  obtain ⟨p, hplace, hlt, htranslates⟩ := h
  refine ⟨p, hplace, hlt.trans_le hgrows.procedures_length, ?_⟩
  rcases hgrows.kept p hlt fun hmem => hopened p hmem hplace with heq | heq
  · exact heq ▸ htranslates
  · rw [heq]
    exact ⟨htranslates.name, htranslates.parameters, htranslates.body⟩

theorem Respects.enter (hm : Respects m t) : Respects m t.enter := by
  intro name
  have hsame : t.enter.lookup name .enclosing = t.lookup name .enclosing := by
    simp only [Table.lookup, Table.enter, List.findSome?_cons, OrderedMap.get?_empty]
  exact hsame ▸ hm name

theorem Respects.declareParameters {owner : String} {position : Nat} {ps : List Parameter}
    {vs : List VarId} (hm : Respects m t) (h : Yields (declareParameters owner position ps) t vs t')
    (hadmits : Admits m ds (ps.map (·.name))) (hds : t'.Precedes ds) :
    Respects m t' ∧ vs.map (fun v => (ds.varAt v).name) = ps.map (·.name) ∧
      t'.procedures = t.procedures := by
  induction ps generalizing position t vs with
  | nil =>
      obtain ⟨rfl, rfl⟩ := yields_pure.mp h
      exact ⟨hm, rfl, rfl⟩
  | cons p ps ih =>
      simp only [List.map_cons] at hadmits
      simp only [Lowering.declareParameters, yields_bind, yields_ofExcept,
        yields_declareVariable, yields_return] at h
      obtain ⟨stated, t₁, ⟨-, rfl⟩, v, t₂, ⟨rfl, rfl⟩, vs', t₃, hrest, rfl, rfl⟩ := h
      have hgrows : Table.Grows (ps.map (·.name)) [] _ t₃ :=
        hrest.keeps (keeps_declareParameters owner (position + 1) ps (List.Subset.refl _))
      have hfirst := hgrows.precedes hds
      obtain ⟨-, hbound⟩ := hm.withVariable hadmits List.mem_cons_self hfirst
      obtain ⟨hafter, hnames, hprocedures⟩ :=
        ih hbound hrest (hadmits.mono (List.subset_cons_self _ _))
      refine ⟨hafter, ?_, hprocedures⟩
      rw [List.map_cons, List.map_cons, hnames, hfirst.varAt (by simp)]
      simp [Declarations.varAt]

def TranslatesAll (m : Meaning) (ds : Declarations) (body : List Stmt) : Prop :=
  ∀ ⦃t t' : Table⦄ ⦃block : Block⦄, Yields (lowerBlock body) t block t' → Respects m t →
    t'.Precedes ds → ∀ (place : Option ProcId) (enclosing : List (Option ProcId)),
      ∀ r ∈ (blockOutline body (place :: enclosing) t.procedures.length).regions,
        Translated m ds t' r

theorem Translated.complete {r : Region} {p : ProcId} (h : Translated m ds t r)
    (hne : r.place ≠ some p) (ty : Ty) (vs : List VarId) (code : List TypedStatement) :
    Translated m ds (t.leave.complete p ty vs code) r := by
  obtain ⟨q, hplace, hlt, htranslates⟩ := h
  refine ⟨q, hplace, by simpa using hlt, ?_⟩
  have hother : q ≠ p := by
    rintro rfl
    exact hne hplace
  rw [Table.procAt_complete_of_ne ty vs code hother, Table.toDeclarations_leave]
  exact htranslates

theorem precedes_of_complete {p : ProcId} {ty : Ty} {vs : List VarId}
    {code : List TypedStatement} (h : (t.leave.complete p ty vs code).Precedes ds) :
    t.Precedes ds := by
  have hvars := h.vars
  have hprocedures := h.procedures
  have hsame : ∀ q : Procedure,
      ({ q with ty := ty, parameters := vs, body := code } : Procedure).name = q.name :=
    fun _ => rfl
  rw [Table.vars_complete, Table.toDeclarations_leave] at hvars
  rw [Table.procedures_complete, map_modify_eq hsame, Table.toDeclarations_leave] at hprocedures
  exact ⟨hvars, hprocedures⟩

theorem lowerFunction_yields {line : Nat} {name : String} {ps : Parameters} {p : ProcId}
    {body : Lowering Block} {u : Unit} (h : Yields (lowerFunction line name ps p body) t u t') :
    ∃ vs t₁ block t₂ unified, Yields (declareParameters name 0 ps.positional) t.enter vs t₁ ∧
      Yields body t₁ block t₂ ∧ t' = t₂.leave.complete p unified vs block.statements := by
  simp only [lowerFunction, yields_bind, yields_tell, yields_inChildScope, yields_return,
    yields_constrainProcedure, yields_modify] at h
  obtain ⟨_, _, rfl, _, _, ⟨_, ⟨vs, t₁, hvs, block, t₂, hblock, rfl, rfl⟩, rfl⟩,
    unified, _, ⟨-, rfl⟩, rfl⟩ := h
  exact ⟨vs, t₁, block, t₂, unified, hvs, hblock, rfl⟩

theorem translated_lowerFunction {line : Nat} {name : String} {ps : Parameters} {p : ProcId}
    {body : List Stmt} {u : Unit} (hbody : TranslatesAll m ds body)
    (h : Yields (lowerFunction line name ps p (lowerBlock body)) t u t') (hm : Respects m t)
    (hadmits : Admits m ds (ps.names ++ Stmt.bindsDeepAll body)) (hds : t'.Precedes ds)
    (hp : p.index < t.procedures.length) (hname : (t.procAt p).name = some name)
    (around : List (Option ProcId)) :
    let inner := blockOutline body (some p :: around) t.procedures.length
    t'.procedures.length = inner.next ∧ (∀ r ∈ inner.regions, Translated m ds t' r) ∧
      Translated m ds t' ⟨some p, around, some name, ps.positional, body⟩ := by
  obtain ⟨vs, t₁, block, t₂, unified, hvs, hblock, rfl⟩ := lowerFunction_yields h
  have hafter : t₂.Precedes ds := precedes_of_complete hds
  have hgrows : Table.Grows (Stmt.bindsAll body) [] t₁ t₂ :=
    hblock.keeps (keeps_lowerBlock body)
  obtain ⟨hinside, hparameters, hprocedures⟩ := hm.enter.declareParameters hvs
    (hadmits.mono (List.Subset.trans (Parameters.positional_subset_names ps)
      (List.subset_append_left _ _))) (hgrows.precedes hafter)
  obtain ⟨hcode, -⟩ := leaves_lowerBlock (hadmits.mono (List.Subset.trans
    (Stmt.bindsAll_subset_bindsDeepAll body) (List.subset_append_right _ _))) hblock hinside
      hafter
  replace hprocedures : t₁.procedures = t.procedures := hprocedures
  have hlater : p.index < t₂.leave.procedures.length := by
    rw [Table.toDeclarations_leave]
    exact (hprocedures ▸ hp).trans_le hgrows.procedures_length
  rw [← hprocedures]
  refine ⟨?_, fun r hr => ?_, p, rfl, by simpa using hlater, ?_⟩
  · simpa using lowerBlock_next (some p) around hblock
  · obtain ⟨q, hplace, hge, -⟩ := (covers_blockOutline body _ _).place_of_mem hr
    refine (hbody hblock hinside hafter (some p) around r hr).complete ?_ unified vs _
    rw [hplace]
    rintro ⟨⟩
    rw [hprocedures] at hge
    omega
  · rw [Table.procAt_complete_self unified vs _ hlater, Table.toDeclarations_leave]
    refine ⟨?_, hparameters, hcode⟩
    rw [hgrows.name_eq (hprocedures ▸ hp), Declarations.procAt, hprocedures]
    exact hname

/-! ## Both passes -/

theorem translatesAll_of_passes {body : List Stmt}
    (hadmits : Admits m ds (Stmt.bindsDeepAll body))
    (hfirst : ∀ {returns : Ty} {t t' : Table} {pass : FirstPass},
      Yields (lowerStmts returns body) t pass t' → Respects m t →
      Admits m ds (Stmt.bindsDeepAll body) → t'.Precedes ds →
      ∀ (place : Option ProcId) (enclosing : List (Option ProcId)),
        ∀ r ∈ (Stmt.outlineAll (place :: enclosing) t.procedures.length body).regions,
          Translated m ds t' r)
    (hsecond : ∀ {places : List (ProcId × String)} {t t' : Table} {u : Unit},
      places.map Prod.snd = body.filterMap Stmt.functionName? → (places.map Prod.fst).Nodup →
      (∀ waiting ∈ places, waiting.1.index < t.procedures.length ∧
        (t.procAt waiting.1).name = some waiting.2) →
      Yields (lowerBodies body (places.map Prod.fst)) t u t' → Respects m t →
      Admits m ds (Stmt.bindsDeepAll body) → t'.Precedes ds →
      ∀ (place : Option ProcId) (enclosing : List (Option ProcId)),
        ∀ r ∈ (Stmt.outlineBodies (place :: enclosing) body places t.procedures.length).regions,
          Translated m ds t' r) :
    TranslatesAll m ds body := by
  intro t t' block h hm hds place enclosing r hr
  simp only [lowerBlock, twoPasses, yields_bind, yields_return] at h
  obtain ⟨pass, t₁, hpass, _, t₂, hbodies, rfl, rfl⟩ := h
  have hgrows : Table.Grows [] pass.declared t₁ t₂ :=
    hbodies.keeps (keeps_lowerBodies body pass.declared)
  obtain ⟨hdeclared, hnext⟩ := lowerStmts_outline place enclosing hpass
  have hcovers := covers_outlineAll body (place :: enclosing) t.procedures.length
  rcases List.mem_append.mp hr with hr | hr
  · refine (hfirst hpass hm hadmits (hgrows.precedes hds) place enclosing r hr).grows hgrows ?_
    intro p hp
    rw [hdeclared] at hp
    obtain ⟨waiting, hwaiting, rfl⟩ := List.mem_map.mp hp
    exact hcovers.place_ne hr hwaiting
  · obtain ⟨-, hmiddle⟩ := emits_lowerStmts body hpass hm
      (hadmits.mono (Stmt.bindsAll_subset_bindsDeepAll body)) (hgrows.precedes hds)
    rw [hdeclared] at hbodies
    refine hsecond (Stmt.names_outlineAll _ _ _) hcovers.nodup_places (fun waiting hwaiting => ?_)
      hbodies hmiddle hadmits hds place enclosing r (hnext ▸ hr)
    exact ⟨hnext ▸ (hcovers.index_of_mem hwaiting).2,
      named_lowerStmts place enclosing hpass waiting hwaiting⟩

mutual

theorem translated_lowerStmt (s : Stmt) {returns : Ty} {t t' : Table} {pass : FirstPass}
    (h : Yields (lowerStmt returns s) t pass t') (hm : Respects m t)
    (hadmits : Admits m ds s.bindsDeep) (hds : t'.Precedes ds) (place : Option ProcId)
    (enclosing : List (Option ProcId)) :
    ∀ r ∈ (s.outline (place :: enclosing) t.procedures.length).regions,
      Translated m ds t' r := by
  cases s with
  | branch line test body orelse =>
      have hfirst := hadmits.mono (List.subset_append_left (Stmt.bindsDeepAll body) _)
      have hsecond := hadmits.mono (List.subset_append_right (Stmt.bindsDeepAll body) _)
      simp only [lowerStmt, yields_bind, yields_return, yields_joinReturns] at h
      obtain ⟨guard, t₁, hguard, yes, t₂, hyes, no, t₃, hno, joined, t₄, ⟨-, rfl⟩, both, t₅,
        ⟨-, rfl⟩, rfl, rfl⟩ := h
      have hbody := translatesAll_of_passes hfirst (translated_lowerStmts body)
        (translated_lowerBodies body)
      have horelse := translatesAll_of_passes hsecond (translated_lowerStmts orelse)
        (translated_lowerBodies orelse)
      have hgrows : Table.Grows (Stmt.bindsAll orelse) [] t₂ t₃ :=
        hno.keeps (keeps_lowerBlock orelse)
      have hbefore := hgrows.precedes hds
      obtain ⟨-, hmiddle⟩ := leaves_lowerBlock
        (hfirst.mono (Stmt.bindsAll_subset_bindsDeepAll body)) hyes (hm.lowerExpr hguard) hbefore
      have hlength := lowerValue_length hguard
      have hnext := lowerBlock_next place enclosing hyes
      rw [hlength] at hnext
      intro r hr
      rcases List.mem_append.mp hr with hr | hr
      · rw [← hlength] at hr
        exact (hbody hyes (hm.lowerExpr hguard) hbefore place enclosing r hr).grows hgrows
          fun p hp => absurd hp List.not_mem_nil
      · exact horelse hno hmiddle hds place enclosing r (hnext ▸ hr)
  | whileLoop line test body orelse =>
      have hfirst := hadmits.mono (List.subset_append_left (Stmt.bindsDeepAll body) _)
      simp only [lowerStmt] at h
      split at h
      · simp only [yields_bind, yields_return, yields_joinReturns] at h
        obtain ⟨guard, t₁, hguard, block, t₂, hblock, joined, t₃, ⟨-, rfl⟩, rfl, rfl⟩ := h
        have hbody := translatesAll_of_passes hfirst (translated_lowerStmts body)
          (translated_lowerBodies body)
        intro r hr
        exact hbody hblock (hm.lowerExpr hguard) hds place enclosing r
          ((lowerValue_length hguard).symm ▸ hr)
      · exact absurd h yields_refuse
  | forLoop line target iter body orelse =>
      simp only [lowerStmt] at h
      split at h
      · split at h
        · rename_i targetLine name ctx
          have hfirst : Admits m ds (Stmt.bindsDeepAll body) :=
            hadmits.mono (by simp [Stmt.bindsDeep])
          simp only [yields_bind, yields_return] at h
          obtain ⟨block, t₁, hloop, rfl, rfl⟩ := h
          obtain ⟨v, declaration, t₁, x, t₂, range, t₃, known, inner, t₄, advanced, joined,
            hbind, hx, hrange, -, hinner, -, -, rfl, rfl⟩ := yields_countingLoop.mp hloop
          obtain ⟨rfl, -⟩ := rangeOf_yields hrange
          have hbody := translatesAll_of_passes hfirst (translated_lowerStmts body)
            (translated_lowerBodies body)
          have hiter : Table.Grows [] [] t₁ t₃ := hx.keeps (assigning_grows.lowerExpr iter .operand)
          have hblock : Table.Grows (Stmt.bindsAll body) [] (t₃.raise v known) t₄ :=
            hinner.keeps (keeps_lowerBlock body)
          have hlater : t₄.Precedes ds := ⟨hds.vars, hds.procedures⟩
          have hbefore : t₃.Precedes ds :=
            ⟨(hblock.precedes hlater).vars, (hblock.precedes hlater).procedures⟩
          obtain ⟨-, -, hbound⟩ := hm.bindName hadmits
            (by simp [Stmt.bindsDeep, Expr.identifier?]) hbind (hiter.precedes hbefore)
          have hlength : (t₃.raise v known).procedures.length = t.procedures.length :=
            (lowerValue_length hx).trans (bindName_length hbind)
          intro r hr
          exact hbody hinner ((hbound.lowerExpr hx).raise _ _) hlater place enclosing r
            (hlength.symm ▸ hr)
        · exact absurd h yields_fail
      · exact absurd h yields_refuse
  | _ => exact fun r hr => absurd hr List.not_mem_nil

theorem translated_lowerStmts (ss : List Stmt) {returns : Ty} {t t' : Table} {pass : FirstPass}
    (h : Yields (lowerStmts returns ss) t pass t') (hm : Respects m t)
    (hadmits : Admits m ds (Stmt.bindsDeepAll ss)) (hds : t'.Precedes ds)
    (place : Option ProcId) (enclosing : List (Option ProcId)) :
    ∀ r ∈ (Stmt.outlineAll (place :: enclosing) t.procedures.length ss).regions,
      Translated m ds t' r := by
  cases ss with
  | nil => exact fun r hr => absurd hr List.not_mem_nil
  | cons s ss =>
      have hfirst := hadmits.mono (List.subset_append_left s.bindsDeep _)
      simp only [lowerStmts, yields_bind, yields_tell, yields_return] at h
      obtain ⟨_, _, rfl, here, t₁, hhere, there, t₂, hthere, rfl, rfl⟩ := h
      have hgrows : Table.Grows (Stmt.bindsAll ss) [] t₁ t₂ :=
        hthere.keeps (keeps_lowerStmts ss here.returns)
      have hbefore := hgrows.precedes hds
      obtain ⟨-, hmiddle⟩ :=
        emits_lowerStmt s hhere hm (hfirst.mono (Stmt.binds_subset_bindsDeep s)) hbefore
      obtain ⟨-, hnext⟩ := lowerStmt_outline place enclosing hhere
      intro r hr
      rcases List.mem_append.mp hr with hr | hr
      · exact (translated_lowerStmt s hhere hm hfirst hbefore place enclosing r hr).grows hgrows
          fun p hp => absurd hp List.not_mem_nil
      · exact translated_lowerStmts ss hthere hmiddle
          (hadmits.mono (List.subset_append_right s.bindsDeep _)) hds place enclosing r
          (hnext ▸ hr)

theorem translated_lowerBodies (ss : List Stmt) {places : List (ProcId × String)} {t t' : Table}
    {u : Unit} (hnames : places.map Prod.snd = ss.filterMap Stmt.functionName?)
    (hnodup : (places.map Prod.fst).Nodup)
    (hwaiting : ∀ waiting ∈ places, waiting.1.index < t.procedures.length ∧
      (t.procAt waiting.1).name = some waiting.2)
    (h : Yields (lowerBodies ss (places.map Prod.fst)) t u t') (hm : Respects m t)
    (hadmits : Admits m ds (Stmt.bindsDeepAll ss)) (hds : t'.Precedes ds)
    (place : Option ProcId) (enclosing : List (Option ProcId)) :
    ∀ r ∈ (Stmt.outlineBodies (place :: enclosing) ss places t.procedures.length).regions,
      Translated m ds t' r := by
  cases ss with
  | nil => exact fun r hr => absurd hr List.not_mem_nil
  | cons s ss =>
      have hhere := hadmits.mono (List.subset_append_left s.bindsDeep _)
      have hrest := hadmits.mono (List.subset_append_right s.bindsDeep _)
      cases s with
      | functionDef line name ps body decorators hint =>
          cases places with
          | nil => cases hnames
          | cons waiting others =>
              obtain ⟨p, declared⟩ := waiting
              obtain ⟨rfl, hothers⟩ := List.cons.inj hnames
              obtain ⟨hnot, hnodup⟩ := List.nodup_cons.mp hnodup
              obtain ⟨⟨hp, hname⟩, hwaiting⟩ := List.forall_mem_cons.mp hwaiting
              simp only [List.map_cons, lowerBodies, yields_bind] at h
              obtain ⟨_, t₁, hfunction, h⟩ := h
              have hinside : Admits m ds (ps.names ++ Stmt.bindsDeepAll body) :=
                hhere.mono (List.subset_cons_self _ _)
              have hnested := hinside.mono (List.subset_append_right ps.names _)
              have hbody := translatesAll_of_passes hnested (translated_lowerStmts body)
                (translated_lowerBodies body)
              have hgrows : Table.Grows [] [p] t t₁ := hfunction.keeps (keeps_lowerFunction line
                declared ps (List.mem_singleton_self p)
                  ((keeps_lowerBlock body).mono (List.Subset.refl _) (List.nil_subset _)))
              have hlater : Table.Grows [] (others.map Prod.fst) t₁ t' :=
                h.keeps (keeps_lowerBodies ss (others.map Prod.fst))
              obtain ⟨hnext, hinner, hself⟩ := translated_lowerFunction hbody hfunction hm hinside
                (hlater.precedes hds) hp hname (place :: enclosing)
              intro r hr
              simp only [Stmt.outlineBodies, List.mem_append, List.mem_cons] at hr
              rcases hr with hr | rfl | hr
              · refine (hinner r hr).grows hlater fun q hq => ?_
                obtain ⟨waiting, hmem, rfl⟩ := List.mem_map.mp hq
                obtain ⟨q, hplace, hge, -⟩ := (covers_blockOutline body _ _).place_of_mem hr
                rw [hplace]
                rintro ⟨⟩
                exact absurd (hwaiting waiting hmem).1 (Nat.not_lt.mpr hge)
              · refine hself.grows hlater fun q hq => ?_
                rintro ⟨⟩
                exact hnot hq
              · refine translated_lowerBodies ss hothers hnodup (fun waiting hmem => ?_) h
                  (hm.congr hgrows) hrest hds place enclosing r ?_
                · obtain ⟨hlt, hnamed⟩ := hwaiting waiting hmem
                  exact ⟨hlt.trans_le hgrows.procedures_length, by rw [hgrows.name_eq hlt, hnamed]⟩
                · rw [hnext]
                  exact hr
      | _ =>
          exact translated_lowerBodies ss hnames hnodup hwaiting h hm hrest hds place enclosing

end

theorem translatesAll {body : List Stmt} (hadmits : Admits m ds (Stmt.bindsDeepAll body)) :
    TranslatesAll m ds body :=
  translatesAll_of_passes hadmits (translated_lowerStmts body) (translated_lowerBodies body)

end Lowering

end TypedPseudocode
