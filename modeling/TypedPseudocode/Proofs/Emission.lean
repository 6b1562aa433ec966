import TypedPseudocode.Proofs.Renderings

/-!
What statements leave behind.

The code of every statement is its rendering, provided that names stand for
something that they may mean when lowering begins, and that the declarations to
come respect the meaning of the names that the statement binds.  Both are about
names only: neither the rest of the table nor the functions inside matter.
-/

namespace TypedPseudocode

open Code TypedPseudocode.Tree

/-! ## Declarations to come -/

/-- What is declared so far are the first of the given declarations. -/
structure Table.Precedes (t : Table) (ds : Declarations) : Prop where
  vars : t.vars <+: ds.vars
  procedures : t.procedures.map (·.name) <+: ds.procedures.map (·.name)

theorem Table.Precedes.refl (t : Table) : t.Precedes t.toDeclarations :=
  ⟨List.prefix_refl _, List.prefix_refl _⟩

theorem Table.Grows.precedes {names : List String} {opened : List ProcId} {t t' : Table}
    {ds : Declarations} (h : Grows names opened t t') (hds : t'.Precedes ds) :
    t.Precedes ds := by
  refine ⟨h.vars.trans hds.vars, List.IsPrefix.trans ?_ hds.procedures⟩
  simpa [Function.comp_def] using h.named.map Prod.snd

namespace Lowering

variable {m : Meaning} {ds : Declarations} {names names' : List String} {t t' : Table}

structure Admits (m : Meaning) (ds : Declarations) (names : List String) : Prop where
  ofVariable : ∀ name ∈ names, ∀ i, ds.vars[i]?.map (·.name) = some name →
    m name (some (.variable ⟨i⟩))
  ofProcedure : ∀ name ∈ names, ∀ i, ds.procedures[i]?.map (·.name) = some (some name) →
    m name (some (.procedure ⟨i⟩))

theorem Admits.mono (h : Admits m ds names) (hnames : names' ⊆ names) : Admits m ds names' :=
  ⟨fun name hname => h.ofVariable name (hnames hname),
    fun name hname => h.ofProcedure name (hnames hname)⟩

theorem Respects.raise (hm : Respects m t) (v : VarId) (ty : Ty) : Respects m (t.raise v ty) :=
  hm

theorem Respects.bind {name : String} {d : Declaration} (hm : Respects m t)
    (hd : m name (some d)) (houter : t'.outer = t.outer)
    (hscope : t'.scope = t.scope.insert name d) : Respects m t' := by
  intro other
  have hlookup : t'.lookup other .enclosing = (t.bind name d).lookup other .enclosing := by
    simp only [Table.lookup, Table.bind, houter, hscope]
  rw [hlookup, Table.lookup_bind]
  split
  · rename_i heq
    exact heq ▸ hd
  · exact hm other

theorem Respects.withVariable {name : String} {stated : Option Ty} {slot : Option Slot}
    (hm : Respects m t) (hadmits : Admits m ds names) (hname : name ∈ names)
    (hds : (t.withVariable name stated slot).Precedes ds) :
    m name (some (.variable ⟨t.vars.length⟩)) ∧
      Respects m (t.withVariable name stated slot) := by
  have hmeans : m name (some (.variable ⟨t.vars.length⟩)) := by
    refine hadmits.ofVariable name hname _ ?_
    obtain ⟨later, hlater⟩ := hds.vars
    simp [← hlater]
  exact ⟨hmeans, hm.bind hmeans rfl rfl⟩

theorem Respects.withProcedure {name : String} {stated : Option Ty} (hm : Respects m t)
    (hadmits : Admits m ds names) (hname : name ∈ names)
    (hds : (t.withProcedure name stated).Precedes ds) :
    Respects m (t.withProcedure name stated) := by
  refine hm.bind (hadmits.ofProcedure name hname t.procedures.length ?_) rfl rfl
  obtain ⟨later, hlater⟩ := hds.procedures
  rw [← List.getElem?_map, ← hlater]
  simp

theorem Respects.bindName {line : Nat} {name : String} {ty : Ty} {v : VarId}
    {declaration : List TypedStatement} (hm : Respects m t) (hadmits : Admits m ds names)
    (hname : name ∈ names) (h : Yields (bindName line name ty) t (v, declaration) t')
    (hds : t'.Precedes ds) :
    m name (some (.variable v)) ∧ Declares v declaration ∧ Respects m t' := by
  cases binds_bindName h with
  | known hscope hty =>
      have hmeans := hm name
      rw [Table.lookup_enclosing_of_innermost hscope] at hmeans
      exact ⟨hmeans, .inl rfl, hm⟩
  | fresh hscope =>
      obtain ⟨hmeans, hafter⟩ := hm.withVariable hadmits hname hds
      exact ⟨hmeans, .inr rfl, hafter⟩

/-! ## Assignments -/

theorem assigns_assignTo {value target : Expr} {x : TypedExpression}
    {code : List TypedStatement} (h : Yields (assignTo x target) t code t') (hm : Respects m t)
    (hadmits : Admits m ds target.targetNames) (hds : t'.Precedes ds)
    (hvalue : Renders m value x) : Assigns m target value code ∧ Respects m t' := by
  cases target with
  | name line id ctx =>
      simp only [assignTo, yields_bind, yields_return] at h
      obtain ⟨⟨v, declaration⟩, t₁, hbind, rfl, rfl⟩ := h
      obtain ⟨hv, hdeclares, hafter⟩ :=
        hm.bindName hadmits (List.mem_singleton_self id) hbind hds
      exact ⟨.name hv hdeclares hvalue, hafter⟩
  | subscript line base slice ctx =>
      simp only [assignTo, yields_bind, yields_constrainVariable, yields_return] at h
      obtain ⟨v, t₁, hv, i, t₂, hi, unified, t₃, ⟨-, rfl⟩, rfl, rfl⟩ := h
      obtain ⟨rfl, nameLine, id, baseCtx, rfl, hid⟩ := meaning_of_resolveArray hv hm
      exact ⟨.element hid (renders_lowerExpr slice hi hm) hvalue, (hm.lowerExpr hi).raise _ _⟩
  | _ => exact absurd h yields_fail

mutual

theorem assigns_unpack (target : Expr) {value : Expr} {t t' : Table}
    {code : List TypedStatement} (h : Yields (unpack target value) t code t')
    (hm : Respects m t) (hadmits : Admits m ds target.targetNames) (hds : t'.Precedes ds) :
    Assigns m target value code ∧ Respects m t' := by
  cases target with
  | list line targets ctx =>
      simp only [unpack, yields_bind] at h
      obtain ⟨values, t₁, hstep, h⟩ := h
      obtain ⟨rfl, hvalues, hlength⟩ := elementsFor_yields hstep
      obtain ⟨hcode, hafter⟩ := assigns_unpackEach targets hlength h hm hadmits hds
      exact ⟨.list hvalues hcode, hafter⟩
  | tuple line targets ctx =>
      simp only [unpack, yields_bind] at h
      obtain ⟨values, t₁, hstep, h⟩ := h
      obtain ⟨rfl, hvalues, hlength⟩ := elementsFor_yields hstep
      obtain ⟨hcode, hafter⟩ := assigns_unpackEach targets hlength h hm hadmits hds
      exact ⟨.tuple hvalues hcode, hafter⟩
  | _ =>
      simp only [unpack, yields_bind] at h
      obtain ⟨x, t₁, hx, h⟩ := h
      exact assigns_assignTo h (hm.lowerExpr hx) hadmits hds (renders_lowerExpr value hx hm)

theorem assigns_unpackEach (targets : List Expr) {values : List Expr} {t t' : Table}
    {code : List TypedStatement} (hlength : targets.length = values.length)
    (h : Yields (unpackEach targets values) t code t') (hm : Respects m t)
    (hadmits : Admits m ds (Expr.targetNamesAll targets)) (hds : t'.Precedes ds) :
    AssignsEach m targets values code ∧ Respects m t' := by
  cases targets with
  | nil =>
      obtain rfl := List.length_eq_zero_iff.mp hlength.symm
      obtain ⟨rfl, rfl⟩ := yields_pure.mp (by simpa only [unpackEach] using h)
      exact ⟨.nil, hm⟩
  | cons target targets =>
      cases values with
      | nil => cases hlength
      | cons value values =>
          simp only [unpackEach, yields_bind, yields_return] at h
          obtain ⟨first, t₁, hfirst, rest, t₂, hrest, rfl, rfl⟩ := h
          have hgrows : Table.Grows (Expr.targetNamesAll targets) [] t₁ t₂ :=
            hrest.keeps (assigning_grows.unpackEach targets values fun _ h => h)
          obtain ⟨hhere, hmiddle⟩ := assigns_unpack target hfirst hm
            (hadmits.mono (List.subset_append_left _ _)) (hgrows.precedes hds)
          obtain ⟨hthere, hafter⟩ := assigns_unpackEach targets (Nat.succ.inj hlength) hrest
            hmiddle (hadmits.mono (List.subset_append_right _ _)) hds
          exact ⟨.cons hhere hthere, hafter⟩

end

/-- All plain targets are assigned the one value that was lowered for the first of them. -/
theorem assigns_assignAll {value : Expr} {targets : List Expr}
    {lowered : Option TypedExpression} {code : List TypedStatement}
    (h : Yields (assignAll value targets lowered) t code t') (hm : Respects m t)
    (hadmits : Admits m ds (Expr.targetNamesAll targets)) (hds : t'.Precedes ds)
    (hlowered : ∀ x, lowered = some x → Renders m value x) :
    AssignsAll m value targets code ∧ Respects m t' := by
  induction targets generalizing t lowered code with
  | nil =>
      obtain ⟨rfl, rfl⟩ := yields_pure.mp h
      exact ⟨.nil, hm⟩
  | cons target targets ih =>
      have hfirst := hadmits.mono (List.subset_append_left target.targetNames _)
      have hrest := hadmits.mono (List.subset_append_right target.targetNames _)
      simp only [assignAll] at h
      split at h
      · simp only [yields_bind, yields_return] at h
        obtain ⟨first, t₁, hstep, rest, t₂, hsteps, rfl, rfl⟩ := h
        have hgrows : Table.Grows (Expr.targetNamesAll targets) [] t₁ t₂ :=
          hsteps.keeps (assigning_grows.assignAll value targets lowered fun _ h => h)
        obtain ⟨hhere, hmiddle⟩ := assigns_unpack target hstep hm hfirst (hgrows.precedes hds)
        obtain ⟨hthere, hafter⟩ := ih hsteps hmiddle hrest hlowered
        exact ⟨.cons hhere hthere, hafter⟩
      · obtain ⟨x, t₀, hx, hbefore, h⟩ : ∃ x t₀, Renders m value x ∧ Respects m t₀ ∧
            Yields (do
              let first ← assignTo x target
              let rest ← assignAll value targets (some x)
              return first ++ rest) t₀ code t' := by
          cases lowered with
          | some x =>
              obtain ⟨y, t₀, hy, h⟩ := yields_bind.mp h
              obtain ⟨rfl, rfl⟩ := yields_pure.mp hy
              exact ⟨x, t, hlowered x rfl, hm, h⟩
          | none =>
              obtain ⟨x, t₀, hx, h⟩ := yields_bind.mp h
              exact ⟨x, t₀, renders_lowerExpr value hx hm, hm.lowerExpr hx, h⟩
        simp only [yields_bind, yields_return] at h
        obtain ⟨first, t₁, hstep, rest, t₂, hsteps, rfl, rfl⟩ := h
        have hgrows : Table.Grows (Expr.targetNamesAll targets) [] t₁ t₂ :=
          hsteps.keeps (assigning_grows.assignAll value targets (some x) fun _ h => h)
        obtain ⟨hhere, hmiddle⟩ :=
          assigns_assignTo hstep hbefore hfirst (hgrows.precedes hds) hx
        obtain ⟨hthere, hafter⟩ := ih hsteps hmiddle hrest fun y hy => Option.some.inj hy ▸ hx
        exact ⟨.cons hhere hthere, hafter⟩

theorem emits_augment {line : Nat} {op : Operator} {value target : Expr}
    {code : List TypedStatement} (h : Yields (augment op value target) t code t')
    (hm : Respects m t) : Emits m (.augAssign line target op value) code := by
  simp only [augment, yields_bind] at h
  obtain ⟨op', t₀, hstep, h⟩ := h
  obtain ⟨hop, rfl⟩ := yields_lowerOperator.mp hstep
  cases target with
  | name nameLine id ctx =>
      simp only [yields_bind, yields_lookupVariable] at h
      obtain ⟨found, t₂, ⟨hfound, rfl⟩, h⟩ := h
      cases found with
      | none => exact absurd h yields_fail
      | some v =>
          simp only [yields_bind, yields_readVariable, yields_constrainVariable,
            yields_return] at h
          obtain ⟨_, t₂, ⟨rfl, rfl⟩, x, t₃, hx, unified, t₄, ⟨-, rfl⟩, rfl, rfl⟩ := h
          have hid := hm id
          rw [Table.lookup_enclosing_of_innermost hfound] at hid
          exact .augment hop hid (renders_lowerExpr value hx hm)
  | subscript targetLine base slice ctx =>
      simp only [yields_bind, yields_readVariable, yields_constrainVariable, yields_return] at h
      obtain ⟨v, t₁, hv, i, t₂, hi, x, t₃, hx, _, t₄, ⟨rfl, rfl⟩, unified, t₅, ⟨-, rfl⟩, rfl,
        rfl⟩ := h
      obtain ⟨rfl, nameLine, id, baseCtx, rfl, hid⟩ := meaning_of_resolveArray hv hm
      exact .augmentElement hop hid (renders_lowerExpr slice hi hm)
        (renders_lowerExpr value hx (hm.lowerExpr hi))
  | _ => exact absurd h yields_fail

theorem emits_assignHinted {line : Nat} {target typeHint : Expr} {value : Option Expr}
    {code : List TypedStatement} (h : Yields (assignHinted target typeHint value) t code t')
    (hm : Respects m t) (hadmits : Admits m ds target.identifier?.toList)
    (hds : t'.Precedes ds) :
    Emits m (.annAssign line target typeHint value) code ∧ Respects m t' := by
  simp only [assignHinted, yields_bind, yields_ofExcept] at h
  obtain ⟨ty, t₁, ⟨-, rfl⟩, h⟩ := h
  cases target with
  | name nameLine id ctx =>
      rw [yields_bind] at h
      obtain ⟨⟨v, declaration⟩, t₁, hbind, h⟩ := h
      have hid : id ∈ (Expr.name nameLine id ctx).identifier?.toList := List.mem_singleton_self id
      cases value with
      | none =>
          obtain ⟨rfl, rfl⟩ := yields_return.mp h
          obtain ⟨hv, hdeclares, hafter⟩ := hm.bindName hadmits hid hbind hds
          exact ⟨.hint hv hdeclares, hafter⟩
      | some value =>
          simp only [yields_bind, yields_constrainVariable, yields_return] at h
          obtain ⟨x, t₂, hx, unified, t₃, ⟨-, rfl⟩, rfl, rfl⟩ := h
          have hgrows : Table.Grows [] [] t₁ t₂ :=
            hx.keeps (assigning_grows.lowerExpr value .operand)
          have hlater : t₂.Precedes ds := ⟨hds.vars, hds.procedures⟩
          obtain ⟨hv, hdeclares, hafter⟩ :=
            hm.bindName hadmits hid hbind (hgrows.precedes hlater)
          exact ⟨.hintValue hv hdeclares (renders_lowerExpr value hx hafter),
            (hafter.lowerExpr hx).raise _ _⟩
  | _ => exact absurd h yields_refuse

/-! ## Calls as statements -/

theorem emits_standAlone {line : Nat} {value : Expr} {x : TypedExpression}
    {code : List TypedStatement} (h : Yields (standAlone line x) t code t')
    (hvalue : Renders m value x) : Emits m (.expression line value) code := by
  unfold standAlone at h
  split at h
  · obtain ⟨rfl, rfl⟩ := yields_pure.mp h
    exact .call hvalue
  · split at h
    · rename_i hname
      subst hname
      obtain ⟨rfl, rfl⟩ := yields_pure.mp h
      exact .append hvalue
    · exact absurd h yields_refuse
  · exact absurd h yields_refuse

theorem meaning_of_dropped {func : Expr} {name : String} (h : droppedName? func t = some name)
    (hm : Respects m t) :
    ∃ line ctx, func = .name line name ctx ∧ m name none ∧ Builtin.isIgnored name := by
  obtain ⟨hname, hdropped⟩ := Option.filter_eq_some_iff.mp h
  rw [Bool.and_eq_true, Option.isNone_iff_eq_none] at hdropped
  cases func with
  | name line id ctx =>
      obtain rfl := Option.some.inj hname
      exact ⟨line, ctx, rfl, hdropped.2 ▸ hm id, hdropped.1⟩
  | _ => cases hname

theorem emits_lowerStandAlone {line : Nat} {value : Expr} {code : List TypedStatement}
    (h : Yields (lowerStandAlone line value) t code t') (hm : Respects m t) :
    Emits m (.expression line value) code := by
  unfold lowerStandAlone at h
  split at h
  · obtain ⟨rfl, rfl⟩ := yields_pure.mp h
    exact .text
  · obtain ⟨rfl, rfl⟩ := yields_pure.mp h
    exact .str
  · rw [yields_bind] at h
    obtain ⟨dropped, t₁, hstep, h⟩ := h
    obtain ⟨hdropped, rfl⟩ := yields_gets.mp hstep
    cases dropped with
    | some name =>
        simp only [yields_bind, yields_tell, yields_return] at h
        obtain ⟨_, t₁, rfl, rfl, rfl⟩ := h
        obtain ⟨nameLine, ctx, rfl, hid, hignored⟩ := meaning_of_dropped hdropped hm
        exact .dropped hid hignored
    | none =>
        obtain ⟨x, t₁, hx, h⟩ := yields_bind.mp h
        exact emits_standAlone h (renders_lowerExpr _ hx hm)
  · obtain ⟨x, t₁, hx, h⟩ := yields_bind.mp h
    exact emits_standAlone h (renders_lowerExpr _ hx hm)

theorem emits_lowerOther {line : Nat} {kind : OtherStmt} {code : List TypedStatement}
    (h : Yields (lowerOther line kind) t code t') : Emits m (.other line kind) code := by
  unfold lowerOther at h
  split at h
  · obtain ⟨rfl, rfl⟩ := yields_pure.mp h
    exact .breakLoop
  · obtain ⟨rfl, rfl⟩ := yields_pure.mp h
    exact .continueLoop
  · split at h
    · rename_i hignored
      simp only [yields_bind, yields_tell, yields_return] at h
      obtain ⟨_, t₁, rfl, rfl, rfl⟩ := h
      exact .ignored hignored
    · exact absurd h yields_refuse

/-! ## Nested statements -/

def Leaves (m : Meaning) (ds : Declarations) (body : List Stmt) (step : Lowering Block) : Prop :=
  ∀ ⦃t t' : Table⦄ ⦃block : Block⦄, Yields step t block t' → Respects m t → t'.Precedes ds →
    EmitsAll m body block.statements ∧ Respects m t'

theorem leaves_twoPasses {body : List Stmt}
    (hfirst : ∀ {t t' : Table} {pass : FirstPass}, Yields (lowerStmts .unknown body) t pass t' →
      Respects m t → t'.Precedes ds → EmitsAll m body pass.statements ∧ Respects m t') :
    Leaves m ds body (lowerBlock body) := by
  intro t t' block h hm hds
  simp only [lowerBlock, twoPasses, yields_bind, yields_return] at h
  obtain ⟨pass, t₁, hpass, _, t₂, hbodies, rfl, rfl⟩ := h
  have hgrows : Table.Grows [] pass.declared t₁ t₂ :=
    hbodies.keeps (keeps_lowerBodies body pass.declared)
  obtain ⟨hcode, hmiddle⟩ := hfirst hpass hm (hgrows.precedes hds)
  exact ⟨hcode, hmiddle.congr hgrows⟩

theorem emits_countingLoop {line nameLine iterLine : Nat} {name : String} {ctx : Context}
    {iter : Expr} {body : List Stmt} {returns : Ty} {block : Block}
    (hbody : Leaves m ds body (lowerBlock body))
    (h : Yields (countingLoop line nameLine iterLine name (lowerValue iter) (lowerBlock body)
      returns) t block t') (hm : Respects m t) (hadmits : Admits m ds names)
    (hname : name ∈ names) (hds : t'.Precedes ds) :
    Emits m (.forLoop line (.name nameLine name ctx) iter body []) block.statements ∧
      Respects m t' := by
  obtain ⟨v, declaration, t₁, x, t₂, range, t₃, known, inner, t₄, advanced, joined, hbind, hx,
    hrange, -, hinner, -, -, rfl, rfl⟩ := yields_countingLoop.mp h
  obtain ⟨rfl, arguments, ty, rfl, hbounds⟩ := rangeOf_yields hrange
  have hiter : Table.Grows [] [] t₁ t₃ := hx.keeps (assigning_grows.lowerExpr iter .operand)
  have hblock : Table.Grows (Stmt.bindsAll body) [] (t₃.raise v known) t₄ :=
    hinner.keeps (keeps_lowerBlock body)
  have hlater : t₄.Precedes ds := ⟨hds.vars, hds.procedures⟩
  have hbefore : t₃.Precedes ds :=
    ⟨(hblock.precedes hlater).vars, (hblock.precedes hlater).procedures⟩
  obtain ⟨hv, hdeclares, hbound⟩ := hm.bindName hadmits hname hbind (hiter.precedes hbefore)
  obtain ⟨hcode, hafter⟩ := hbody hinner ((hbound.lowerExpr hx).raise _ _) hlater
  exact ⟨.forLoop hv hdeclares (renders_lowerExpr iter hx hbound) hbounds hcode,
    hafter.raise _ _⟩

theorem declareFunction_plain {line : Nat} {name : String} {ps : Parameters}
    {decorators : List Expr} {returns : Option Expr} {p : ProcId}
    (h : Yields (declareFunction line name ps decorators returns) t p t') :
    ps.names = ps.positional.map (·.name) := by
  unfold declareFunction at h
  split at h
  · exact absurd h yields_refuse
  · obtain ⟨_, t₁, hcheck, -⟩ := yields_bind.mp h
    unfold checkParameters at hcheck
    split at hcheck
    · exact absurd hcheck yields_refuse
    · rename_i hvariadic
      split at hcheck
      · exact absurd hcheck yields_refuse
      · rename_i hrestricted
        simp only [not_or, Bool.not_eq_true, Option.isSome_eq_false_iff, Option.isNone_iff_eq_none,
          not_not] at hvariadic hrestricted
        simp [Parameters.names, hvariadic, hrestricted]

/-! ## Lists of statements -/

mutual

theorem emits_lowerStmt (s : Stmt) {returns : Ty} {t t' : Table} {pass : FirstPass}
    (h : Yields (lowerStmt returns s) t pass t') (hm : Respects m t)
    (hadmits : Admits m ds s.binds) (hds : t'.Precedes ds) :
    Emits m s pass.statements ∧ Respects m t' := by
  cases s with
  | functionDef line name ps body decorators hint =>
      simp only [lowerStmt, yields_bind, yields_return] at h
      obtain ⟨p, t₁, hp, rfl, rfl⟩ := h
      have hplain := declareFunction_plain hp
      obtain ⟨-, stated, -, rfl⟩ := declareFunction_yields hp
      exact ⟨.functionDef hplain, hm.withProcedure hadmits (List.mem_singleton_self name) hds⟩
  | ret line value =>
      cases value with
      | none =>
          simp only [lowerStmt, yields_bind, yields_return, yields_joinReturns] at h
          obtain ⟨joined, t₁, ⟨-, rfl⟩, rfl, rfl⟩ := h
          exact ⟨.ret, hm⟩
      | some value =>
          simp only [lowerStmt, yields_bind, yields_return, yields_joinReturns] at h
          obtain ⟨x, t₁, hx, joined, t₂, ⟨-, rfl⟩, rfl, rfl⟩ := h
          exact ⟨.retValue (renders_lowerExpr value hx hm), hm.lowerExpr hx⟩
  | assign line targets value =>
      simp only [lowerStmt, yields_bind, yields_return] at h
      obtain ⟨code, t₁, hcode, rfl, rfl⟩ := h
      obtain ⟨hassigns, hafter⟩ := assigns_assignAll hcode hm hadmits hds (by simp)
      exact ⟨.assign hassigns, hafter⟩
  | augAssign line target op value =>
      simp only [lowerStmt, yields_bind, yields_return] at h
      obtain ⟨code, t₁, hcode, rfl, rfl⟩ := h
      have hgrows : Table.Grows [] [] t t₁ := hcode.keeps (assigning_grows.augment op value target)
      exact ⟨emits_augment hcode hm, hm.congr hgrows⟩
  | annAssign line target hint value =>
      simp only [lowerStmt, yields_bind, yields_return] at h
      obtain ⟨code, t₁, hcode, rfl, rfl⟩ := h
      exact emits_assignHinted hcode hm hadmits hds
  | branch line test body orelse =>
      simp only [lowerStmt, yields_bind, yields_return, yields_joinReturns] at h
      obtain ⟨guard, t₁, hguard, yes, t₂, hyes, no, t₃, hno, joined, t₄, ⟨-, rfl⟩, both, t₅,
        ⟨-, rfl⟩, rfl, rfl⟩ := h
      have hbody : Leaves m ds body (lowerBlock body) := leaves_twoPasses fun h hm hds =>
        emits_lowerStmts body h hm (hadmits.mono (List.subset_append_left _ _)) hds
      have horelse : Leaves m ds orelse (lowerBlock orelse) := leaves_twoPasses fun h hm hds =>
        emits_lowerStmts orelse h hm (hadmits.mono (List.subset_append_right _ _)) hds
      have hgrows : Table.Grows (Stmt.bindsAll orelse) [] t₂ t₃ :=
        hno.keeps (keeps_lowerBlock orelse)
      obtain ⟨hcode, hmiddle⟩ := hbody hyes (hm.lowerExpr hguard) (hgrows.precedes hds)
      obtain ⟨hcode', hafter⟩ := horelse hno hmiddle hds
      exact ⟨.branch (renders_lowerExpr test hguard hm) hcode hcode', hafter⟩
  | whileLoop line test body orelse =>
      simp only [lowerStmt] at h
      split at h
      · rename_i hempty
        obtain rfl := List.isEmpty_iff.mp hempty
        simp only [yields_bind, yields_return, yields_joinReturns] at h
        obtain ⟨guard, t₁, hguard, block, t₂, hblock, joined, t₃, ⟨-, rfl⟩, rfl, rfl⟩ := h
        have hbody : Leaves m ds body (lowerBlock body) := leaves_twoPasses fun h hm hds =>
          emits_lowerStmts body h hm (hadmits.mono (List.subset_append_left _ _)) hds
        obtain ⟨hcode, hafter⟩ := hbody hblock (hm.lowerExpr hguard) hds
        exact ⟨.whileLoop (renders_lowerExpr test hguard hm) hcode, hafter⟩
      · exact absurd h yields_refuse
  | forLoop line target iter body orelse =>
      simp only [lowerStmt] at h
      split at h
      · rename_i hempty
        obtain rfl := List.isEmpty_iff.mp hempty
        split at h
        · simp only [yields_bind, yields_return] at h
          obtain ⟨block, t₁, hblock, rfl, rfl⟩ := h
          have hbody : Leaves m ds body (lowerBlock body) := leaves_twoPasses fun h hm hds =>
            emits_lowerStmts body h hm (hadmits.mono (by simp [Stmt.binds])) hds
          exact emits_countingLoop hbody hblock hm hadmits
            (by simp [Stmt.binds, Expr.identifier?]) hds
        · exact absurd h yields_fail
      · exact absurd h yields_refuse
  | raise line cause =>
      cases cause with
      | none =>
          simp only [lowerStmt, yields_bind, yields_tell, yields_return] at h
          obtain ⟨_, t₁, rfl, rfl, rfl⟩ := h
          exact ⟨.raise, hm⟩
      | some cause => exact absurd h yields_refuse
  | expression line value =>
      simp only [lowerStmt, yields_bind, yields_return] at h
      obtain ⟨code, t₁, hcode, rfl, rfl⟩ := h
      have hgrows : Table.Grows [] [] t t₁ :=
        hcode.keeps (assigning_grows.lowerStandAlone line value)
      exact ⟨emits_lowerStandAlone hcode hm, hm.congr hgrows⟩
  | other line kind =>
      simp only [lowerStmt, yields_bind, yields_return] at h
      obtain ⟨code, t₁, hcode, rfl, rfl⟩ := h
      have hgrows : Table.Grows [] [] t t₁ := hcode.keeps (assigning_grows.lowerOther line kind)
      exact ⟨emits_lowerOther hcode, hm.congr hgrows⟩

theorem emits_lowerStmts (ss : List Stmt) {returns : Ty} {t t' : Table} {pass : FirstPass}
    (h : Yields (lowerStmts returns ss) t pass t') (hm : Respects m t)
    (hadmits : Admits m ds (Stmt.bindsAll ss)) (hds : t'.Precedes ds) :
    EmitsAll m ss pass.statements ∧ Respects m t' := by
  cases ss with
  | nil =>
      simp only [lowerStmts, yields_pure] at h
      obtain ⟨rfl, rfl⟩ := h
      exact ⟨.nil, hm⟩
  | cons s ss =>
      simp only [lowerStmts, yields_bind, yields_tell, yields_return] at h
      obtain ⟨_, _, rfl, here, t₁, hhere, there, t₂, hthere, rfl, rfl⟩ := h
      have hgrows : Table.Grows (Stmt.bindsAll ss) [] t₁ t₂ :=
        hthere.keeps (keeps_lowerStmts ss here.returns)
      obtain ⟨hcode, hmiddle⟩ := emits_lowerStmt s hhere hm
        (hadmits.mono (List.subset_append_left _ _)) (hgrows.precedes hds)
      obtain ⟨hcode', hafter⟩ := emits_lowerStmts ss hthere hmiddle
        (hadmits.mono (List.subset_append_right _ _)) hds
      exact ⟨.cons hcode hcode', hafter⟩

end

theorem leaves_lowerBlock {body : List Stmt} (hadmits : Admits m ds (Stmt.bindsAll body)) :
    Leaves m ds body (lowerBlock body) :=
  leaves_twoPasses fun h hm hds => emits_lowerStmts body h hm hadmits hds

end Lowering

end TypedPseudocode
