import TypedPseudocode.Proofs.Chronology
import TypedPseudocode.Proofs.Isolation
import TypedPseudocode.Proofs.Translation

/-!
Precedence: variables are declared once, and before they are used.

A name that is looked up stands for a variable that exists, hence for a handle that is
smaller than the number of variables.  What is lowered next to each other is written
down next to each other, so the code that is made while variables are added mentions
each variable only after its declaration.  Functions are lowered after the list that
they stand in, and their code goes elsewhere.
-/

namespace TypedPseudocode

open Code TypedPseudocode.Tree

/-! ## Tables -/

def AmongFirst (count : Nat) (_ : String) : Declaration → Prop
  | .variable v => v.index < count
  | .procedure _ => True

namespace Table

structure InOrder (t : Table) : Prop where
  bound : t.AllBound (AmongFirst t.vars.length)
  bodies : ∀ p ∈ t.procedures, Orderly 0 t.vars.length p.body

namespace InOrder

variable {t t' : Table}

theorem empty (signatures : SignatureTable) : (Table.empty signatures).InOrder where
  bound := .empty signatures
  bodies _ hp := absurd hp List.not_mem_nil

theorem congr (h : t.InOrder) (hscope : t'.scope = t.scope) (houter : t'.outer = t.outer)
    (hvars : t'.vars = t.vars)
    (hbodies : t'.procedures.map (·.body) = t.procedures.map (·.body)) : t'.InOrder where
  bound := by
    rw [hvars]
    exact h.bound.congr hscope houter
  bodies p hp := by
    have hbody : p.body ∈ t.procedures.map (·.body) := hbodies ▸ List.mem_map_of_mem hp
    obtain ⟨q, hq, hsame⟩ := List.mem_map.mp hbody
    rw [hvars, ← hsame]
    exact h.bodies q hq

theorem raise (h : t.InOrder) (v : VarId) (ty : Ty) : (t.raise v ty).InOrder :=
  h.congr rfl rfl rfl rfl

theorem reach (h : t.InOrder) (name : String) (p : ProcId) (arguments : List Ty) :
    (t.reach name p arguments).InOrder := by
  refine h.congr (by simp) (by simp) (by simp) ?_
  have hsame (q : Procedure) : { q with called := true }.body = q.body := rfl
  rw [Table.procedures_reach]
  exact map_modify_eq hsame _ _

theorem withVariable (h : t.InOrder) (name : String) (stated : Option Ty) (slot : Option Slot) :
    (t.withVariable name stated slot).InOrder := by
  have hmore : (t.withVariable name stated slot).vars.length = t.vars.length + 1 := by simp
  constructor
  · rw [hmore]
    refine Table.AllBound.bind ((h.bound.mono fun _ d hd => ?_).congr rfl rfl)
      (Nat.lt_succ_self t.vars.length)
    cases d with
    | procedure p => trivial
    | «variable» v => exact Nat.lt_succ_of_lt hd
  · intro p hp
    rw [hmore]
    exact (h.bodies p hp).mono (Nat.le_refl 0) (Nat.le_succ _)

theorem withProcedure (h : t.InOrder) (name : String) (stated : Option Ty) :
    (t.withProcedure name stated).InOrder where
  bound := Table.AllBound.bind (h.bound.congr rfl rfl) trivial
  bodies p hp := by
    rcases List.mem_append.mp hp with hp | hp
    · exact h.bodies p hp
    · rw [List.mem_singleton.mp hp]
      exact .nil (Nat.zero_le _)

theorem enter (h : t.InOrder) : t.enter.InOrder := ⟨h.bound.enter, h.bodies⟩

theorem leave (h : t.InOrder) : t.leave.InOrder := by
  constructor
  · rw [toDeclarations_leave]
    exact h.bound.leave
  · rw [toDeclarations_leave]
    exact h.bodies

theorem complete (h : t.InOrder) (p : ProcId) (ty : Ty) (parameters : List VarId)
    {body : List TypedStatement} (hbody : Orderly 0 t.vars.length body) :
    (t.complete p ty parameters body).InOrder := by
  refine ⟨h.bound.congr rfl rfl, fun q hq => ?_⟩
  rw [procedures_complete] at hq
  obtain ⟨i, hi⟩ := List.mem_iff_getElem?.mp hq
  rw [List.getElem?_modify] at hi
  obtain ⟨q', hq', rfl⟩ := Option.map_eq_some_iff.mp hi
  by_cases hpi : p.index = i
  · rw [if_pos hpi]
    exact hbody
  · rw [if_neg hpi]
    exact h.bodies q' (List.mem_of_getElem? hq')

theorem index_lt (h : t.InOrder) {name : String} {reach : Reach} {v : VarId}
    (hv : t.lookup name reach = some (.variable v)) : v.index < t.vars.length :=
  h.bound.of_lookup hv

end InOrder

end Table

/-! ## Expressions -/

namespace Lowering

variable {t t₁ t₂ t' : Table} {n : Nat}

def ReadsBelow (n : Nat) (es : List TypedExpression) : Prop :=
  ∀ v ∈ Expression.reads es, v.index < n

theorem ReadsBelow.mono {es : List TypedExpression} {m : Nat} (h : ReadsBelow n es)
    (hle : n ≤ m) : ReadsBelow m es :=
  fun v hv => Nat.lt_of_lt_of_le (h v hv) hle

theorem readsBelow_append {es fs : List TypedExpression} :
    ReadsBelow n (es ++ fs) ↔ ReadsBelow n es ∧ ReadsBelow n fs := by
  simp only [ReadsBelow, Expression.reads, Expression.gather_append, List.forall_mem_append]

theorem readsBelow_pair {e f : TypedExpression} :
    ReadsBelow n [e, f] ↔ ReadsBelow n [e] ∧ ReadsBelow n [f] := by
  rw [← List.singleton_append, readsBelow_append]

theorem readsBelow_read {v : VarId} {ty : Ty} : ReadsBelow n [.read v ty] ↔ v.index < n := by
  simp [ReadsBelow, Expression.reads, Expression.gather_cons, Expression.target?, Expression.inner]

theorem readsBelow_inner {e : TypedExpression} (he : e.target? = none) :
    ReadsBelow n [e] ↔ ReadsBelow n e.inner := by
  simp [ReadsBelow, Expression.reads, Expression.gather_cons, he]

theorem Composes.readsBelow {operands : List TypedExpression} {e : TypedExpression}
    (h : Composes operands e) : ReadsBelow n [e] ↔ ReadsBelow n operands := by
  constructor
  · exact fun hreads v hv => hreads v ((h.mem_operands View.references v).mpr hv)
  · exact fun hreads v hv => hreads v ((h.mem_operands View.references v).mp hv)

theorem Evals.readsBelow {operands operands' : List TypedExpression}
    (h : Evals t operands t' operands') (ht : t.InOrder)
    (hreads : ReadsBelow t.vars.length operands) :
    t'.InOrder ∧ t'.vars = t.vars ∧ ReadsBelow t.vars.length operands' := by
  induction h with
  | refl => exact ⟨ht, rfl, hreads⟩
  | tail _ step ih =>
      obtain ⟨ht₁, hvars, hbelow⟩ := ih hreads
      cases step with
      | compose hcompose =>
          refine ⟨ht₁, hvars, ?_⟩
          rw [readsBelow_append] at hbelow ⊢
          exact ⟨hbelow.1, hcompose.readsBelow.mpr hbelow.2⟩
      | read hlookup =>
          refine ⟨ht₁, hvars, readsBelow_append.mpr ⟨hbelow, readsBelow_read.mpr ?_⟩⟩
          exact hvars ▸ ht₁.index_lt hlookup
      | call hlookup =>
          refine ⟨ht₁.reach _ _ _, by simpa using hvars, ?_⟩
          rw [readsBelow_append] at hbelow ⊢
          exact ⟨hbelow.1, (readsBelow_inner rfl).mpr hbelow.2⟩
      | append hlookup hty =>
          refine ⟨ht₁.raise _ _, hvars, ?_⟩
          rw [readsBelow_append] at hbelow ⊢
          refine ⟨hbelow.1, (readsBelow_inner rfl).mpr (readsBelow_pair.mpr ⟨?_, hbelow.2⟩)⟩
          exact readsBelow_read.mpr (hvars ▸ ht₁.index_lt hlookup)

theorem inOrder_lowerExpr (e : Expr) {place : Place} {x : TypedExpression}
    (h : Yields (lowerExpr place e) t x t') (ht : t.InOrder) :
    t'.InOrder ∧ t'.vars = t.vars ∧ ReadsBelow t.vars.length [x] :=
  (evals_lowerExpr e h []).readsBelow ht fun _ hv => absurd hv List.not_mem_nil

theorem Bounds.readsBelow {arguments : List TypedExpression} {range : Range}
    (h : Bounds arguments range) (hreads : ReadsBelow n arguments) :
    ReadsBelow n [range.start] ∧ ReadsBelow n [range.stop] ∧ ReadsBelow n [range.step] := by
  have hall : ReadsBelow n [range.step, range.stop, range.start] :=
    fun v hv => hreads v ((h.mem_operands View.references v).mp hv)
  rw [← List.singleton_append, readsBelow_append, readsBelow_pair] at hall
  exact ⟨hall.2.2, hall.2.1, hall.1⟩

/-! ## Statements -/

/-- This code was written in order while one table became the other. -/
structure Writes (t t' : Table) (code : List TypedStatement) : Prop where
  inOrder : t'.InOrder
  orderly : Orderly t.vars.length t'.vars.length code

namespace Writes

variable {code code' : List TypedStatement} {statement : TypedStatement}

theorem nothing (ht : t.InOrder) : Writes t t [] := ⟨ht, .nil (Nat.le_refl _)⟩

theorem append (h : Writes t t₁ code) (h' : Writes t₁ t' code') : Writes t t' (code ++ code') :=
  ⟨h'.inOrder, h.orderly.append h'.orderly⟩

theorem meanwhile (h : Writes t t₁ code) (h' : Writes t₁ t' code') : Writes t t' code :=
  ⟨h'.inOrder, h.orderly.mono (Nat.le_refl _) h'.orderly.le⟩

theorem raise (h : Writes t t' code) (v : VarId) (ty : Ty) : Writes t (t'.raise v ty) code :=
  ⟨h.inOrder.raise v ty, h.orderly⟩

theorem after (hvars : t₁.vars = t.vars) (h : Writes t₁ t' code) : Writes t t' code :=
  ⟨h.inOrder, hvars ▸ h.orderly⟩

theorem around (hs : statement.declaration? = none)
    (hused : ∀ v ∈ statement.used, v.index < t.vars.length)
    (hinner : Writes t t' statement.inner) : Writes t t' [statement] :=
  ⟨hinner.inOrder, .statement hs hused hinner.orderly⟩

theorem single (ht : t'.InOrder) (hvars : t'.vars = t.vars) (hs : statement.declaration? = none)
    (hinner : statement.inner = []) (hused : ∀ v ∈ statement.used, v.index < t.vars.length) :
    Writes t t' [statement] :=
  around hs hused (after hvars (hinner ▸ nothing ht))

theorem assign {v : VarId} {value : TypedExpression} (ht : t'.InOrder) (hvars : t'.vars = t.vars)
    (hv : v.index < t.vars.length) (hvalue : ReadsBelow t.vars.length [value]) :
    Writes t t' [.assign v value] :=
  single ht hvars rfl rfl (List.forall_mem_cons.mpr ⟨hv, hvalue⟩)

theorem assignElement {v : VarId} {index value : TypedExpression} (ht : t'.InOrder)
    (hvars : t'.vars = t.vars) (hv : v.index < t.vars.length)
    (hindex : ReadsBelow t.vars.length [index]) (hvalue : ReadsBelow t.vars.length [value]) :
    Writes t t' [.assignElement v [index] value] :=
  single ht hvars rfl rfl
    (List.forall_mem_cons.mpr ⟨hv, readsBelow_pair.mpr ⟨hindex, hvalue⟩⟩)

end Writes

theorem Binds.writes {name : String} {ty : Ty} {v : VarId} {declaration : List TypedStatement}
    (h : Binds t name ty v declaration t') (ht : t.InOrder) :
    Writes t t' declaration ∧ v.index < t'.vars.length := by
  cases h with
  | known hv _ =>
      exact ⟨(Writes.nothing ht).raise v _, ht.bound t.scope List.mem_cons_self name _ hv⟩
  | fresh _ =>
      have hmore : (t.withVariable name (some ty) none).vars.length = t.vars.length + 1 := by simp
      refine ⟨⟨ht.withVariable _ _ _, ?_⟩, ?_⟩
      · rw [hmore]
        exact .declare t.vars.length
      · rw [hmore]
        exact Nat.lt_succ_self _

theorem writes_assignTo {value : TypedExpression} {target : Expr} {code : List TypedStatement}
    (h : Yields (assignTo value target) t code t') (ht : t.InOrder)
    (hvalue : ReadsBelow t.vars.length [value]) : Writes t t' code := by
  cases target with
  | name line id ctx =>
      simp only [assignTo, yields_bind, yields_return] at h
      obtain ⟨⟨v, declaration⟩, t₁, hbind, rfl, rfl⟩ := h
      obtain ⟨hwrites, hv⟩ := (binds_bindName hbind).writes ht
      have hlater := hvalue.mono hwrites.orderly.le
      exact hwrites.append (.assign hwrites.inOrder rfl hv hlater)
  | subscript line base slice ctx =>
      simp only [assignTo, yields_bind, yields_constrainVariable, yields_return] at h
      obtain ⟨v, t₁, hv, index, t₂, hindex, unified, t₃, ⟨-, rfl⟩, rfl, rfl⟩ := h
      obtain ⟨rfl, name, hname⟩ := resolveArray_yields hv
      obtain ⟨ht₂, hvars, hreads⟩ := inOrder_lowerExpr slice hindex ht
      exact .assignElement (ht₂.raise v unified) hvars (ht.index_lt hname) hreads hvalue
  | _ => exact absurd h yields_fail

mutual

theorem writes_unpack (target : Expr) {value : Expr} {t t' : Table} {code : List TypedStatement}
    (h : Yields (unpack target value) t code t') (ht : t.InOrder) : Writes t t' code := by
  cases target with
  | list line targets ctx =>
      simp only [unpack, yields_bind] at h
      obtain ⟨values, t₁, hvalues, h⟩ := h
      obtain ⟨rfl, -⟩ := elementsFor_yields hvalues
      exact writes_unpackEach targets h ht
  | tuple line targets ctx =>
      simp only [unpack, yields_bind] at h
      obtain ⟨values, t₁, hvalues, h⟩ := h
      obtain ⟨rfl, -⟩ := elementsFor_yields hvalues
      exact writes_unpackEach targets h ht
  | _ =>
      simp only [unpack, yields_bind] at h
      obtain ⟨x, t₁, hx, h⟩ := h
      obtain ⟨ht₁, hvars, hreads⟩ := inOrder_lowerExpr value hx ht
      exact .after hvars (writes_assignTo h ht₁ (hvars ▸ hreads))

theorem writes_unpackEach (targets : List Expr) {values : List Expr} {t t' : Table}
    {code : List TypedStatement} (h : Yields (unpackEach targets values) t code t')
    (ht : t.InOrder) : Writes t t' code := by
  cases targets with
  | nil =>
      obtain ⟨rfl, rfl⟩ := yields_pure.mp (by simpa only [unpackEach] using h)
      exact .nothing ht
  | cons target targets =>
      cases values with
      | nil =>
          obtain ⟨rfl, rfl⟩ := yields_pure.mp (by simpa only [unpackEach] using h)
          exact .nothing ht
      | cons value values =>
          simp only [unpackEach, yields_bind, yields_return] at h
          obtain ⟨first, t₁, hfirst, rest, t₂, hrest, rfl, rfl⟩ := h
          have hwrites := writes_unpack target hfirst ht
          exact hwrites.append (writes_unpackEach targets hrest hwrites.inOrder)

end

/-- The value of several targets is read again after the first of them is declared. -/
theorem writes_assignAll {value : Expr} {targets : List Expr}
    {lowered : Option TypedExpression} {code : List TypedStatement}
    (h : Yields (assignAll value targets lowered) t code t') (ht : t.InOrder)
    (hlowered : ∀ e, lowered = some e → ReadsBelow t.vars.length [e]) : Writes t t' code := by
  induction targets generalizing t lowered code with
  | nil =>
      obtain ⟨rfl, rfl⟩ := yields_pure.mp h
      exact .nothing ht
  | cons target targets ih =>
      simp only [assignAll] at h
      split at h
      · simp only [yields_bind, yields_return] at h
        obtain ⟨first, t₁, hfirst, rest, t₂, hrest, rfl, rfl⟩ := h
        have hwrites := writes_unpack target hfirst ht
        exact hwrites.append
          (ih hrest hwrites.inOrder fun e he => (hlowered e he).mono hwrites.orderly.le)
      · obtain ⟨e, t₁, ht₁, hvars, hreads, h⟩ : ∃ e t₁, t₁.InOrder ∧ t₁.vars = t.vars ∧
            ReadsBelow t.vars.length [e] ∧
            Yields (do
              let first ← assignTo e target
              let rest ← assignAll value targets (some e)
              return first ++ rest) t₁ code t' := by
          cases lowered with
          | some e =>
              obtain ⟨x, t₁, hx, h⟩ := yields_bind.mp h
              obtain ⟨rfl, rfl⟩ := yields_pure.mp hx
              exact ⟨e, t, ht, rfl, hlowered e rfl, h⟩
          | none =>
              obtain ⟨e, t₁, he, h⟩ := yields_bind.mp h
              obtain ⟨ht₁, hvars, hreads⟩ := inOrder_lowerExpr value he ht
              exact ⟨e, t₁, ht₁, hvars, hreads, h⟩
        simp only [yields_bind, yields_return] at h
        obtain ⟨first, t₂, hfirst, rest, t₃, hrest, rfl, rfl⟩ := h
        have hwrites := Writes.after hvars (writes_assignTo hfirst ht₁ (hvars ▸ hreads))
        refine hwrites.append (ih hrest hwrites.inOrder fun x hx => ?_)
        obtain rfl := Option.some.inj hx
        exact hreads.mono hwrites.orderly.le

theorem writes_augment {op : Operator} {value target : Expr} {code : List TypedStatement}
    (h : Yields (augment op value target) t code t') (ht : t.InOrder) : Writes t t' code := by
  simp only [augment, yields_bind] at h
  obtain ⟨op', t₀, hop, h⟩ := h
  obtain ⟨-, rfl⟩ := yields_lowerOperator.mp hop
  cases target with
  | name line id ctx =>
      simp only [yields_bind, yields_lookupVariable] at h
      obtain ⟨found, t₂, ⟨hfound, rfl⟩, h⟩ := h
      cases found with
      | none => exact absurd h yields_fail
      | some v =>
          simp only [yields_bind, yields_readVariable, yields_constrainVariable,
            yields_return] at h
          obtain ⟨_, t₂, ⟨rfl, rfl⟩, x, t₃, hx, unified, t₄, ⟨-, rfl⟩, rfl, rfl⟩ := h
          obtain ⟨ht₃, hvars, hreads⟩ := inOrder_lowerExpr value hx ht
          have hv := ht.index_lt hfound
          refine .assign (ht₃.raise v unified) hvars hv ((readsBelow_inner rfl).mpr ?_)
          exact readsBelow_pair.mpr ⟨readsBelow_read.mpr hv, hreads⟩
  | subscript line base slice ctx =>
      simp only [yields_bind, yields_readVariable, yields_constrainVariable,
        yields_return] at h
      obtain ⟨v, t₁, hv, index, t₂, hindex, x, t₃, hx, _, t₄, ⟨rfl, rfl⟩, unified, t₅,
        ⟨-, rfl⟩, rfl, rfl⟩ := h
      obtain ⟨rfl, name, hname⟩ := resolveArray_yields hv
      obtain ⟨ht₂, hvars, hindexReads⟩ := inOrder_lowerExpr slice hindex ht
      obtain ⟨ht₃, hvars', hreads⟩ := inOrder_lowerExpr value hx ht₂
      rw [hvars] at hvars' hreads
      have hread := ht.index_lt hname
      refine .assignElement (ht₃.raise v unified) hvars' hread hindexReads
        ((readsBelow_inner rfl).mpr (readsBelow_pair.mpr ⟨(readsBelow_inner rfl).mpr ?_, hreads⟩))
      exact readsBelow_pair.mpr ⟨readsBelow_read.mpr hread, hindexReads⟩
  | _ => exact absurd h yields_fail

theorem writes_assignHinted {target typeHint : Expr} {value : Option Expr}
    {code : List TypedStatement} (h : Yields (assignHinted target typeHint value) t code t')
    (ht : t.InOrder) : Writes t t' code := by
  simp only [assignHinted, yields_bind, yields_ofExcept] at h
  obtain ⟨ty, t₁, ⟨-, rfl⟩, h⟩ := h
  cases target with
  | name targetLine id ctx =>
      rw [yields_bind] at h
      obtain ⟨⟨v, declaration⟩, t₁, hbind, h⟩ := h
      obtain ⟨hwrites, hv⟩ := (binds_bindName hbind).writes ht
      cases value with
      | none =>
          obtain ⟨rfl, rfl⟩ := yields_return.mp h
          exact hwrites
      | some value =>
          simp only [yields_bind, yields_constrainVariable, yields_return] at h
          obtain ⟨x, t₂, hx, unified, t₃, ⟨-, rfl⟩, rfl, rfl⟩ := h
          obtain ⟨ht₂, hvars, hreads⟩ := inOrder_lowerExpr value hx hwrites.inOrder
          exact hwrites.append (.assign (ht₂.raise v unified) hvars hv hreads)
  | _ => exact absurd h yields_refuse

theorem writes_standAlone {line : Nat} {e : TypedExpression} {code : List TypedStatement}
    (h : Yields (standAlone line e) t code t') (ht : t.InOrder)
    (hreads : ReadsBelow t.vars.length [e]) : Writes t t' code := by
  unfold standAlone at h
  split at h
  · obtain ⟨rfl, rfl⟩ := yields_pure.mp h
    exact .single ht rfl rfl rfl ((readsBelow_inner rfl).mp hreads)
  · split at h
    · obtain ⟨rfl, rfl⟩ := yields_pure.mp h
      exact .single ht rfl rfl rfl ((readsBelow_inner rfl).mp hreads)
    · exact absurd h yields_refuse
  · exact absurd h yields_refuse

theorem writes_lowerStandAlone {line : Nat} {e : Expr} {code : List TypedStatement}
    (h : Yields (lowerStandAlone line e) t code t') (ht : t.InOrder) : Writes t t' code := by
  have hcall {x : TypedExpression} {t₁ : Table} (hx : Yields (lowerValue e) t x t₁)
      (h : Yields (standAlone line x) t₁ code t') : Writes t t' code := by
    obtain ⟨ht₁, hvars, hreads⟩ := inOrder_lowerExpr e hx ht
    exact .after hvars (writes_standAlone h ht₁ (hvars ▸ hreads))
  unfold lowerStandAlone at h
  split at h
  · obtain ⟨rfl, rfl⟩ := yields_pure.mp h
    exact .nothing ht
  · obtain ⟨rfl, rfl⟩ := yields_pure.mp h
    exact .nothing ht
  · rw [yields_bind] at h
    obtain ⟨dropped, t₁, hdropped, h⟩ := h
    obtain ⟨-, rfl⟩ := yields_gets.mp hdropped
    cases dropped with
    | some name =>
        simp only [yields_bind, yields_tell, yields_return] at h
        obtain ⟨_, t₁, rfl, rfl, rfl⟩ := h
        exact .nothing ht
    | none =>
        obtain ⟨x, t₁, hx, h⟩ := yields_bind.mp h
        exact hcall hx h
  · obtain ⟨x, t₁, hx, h⟩ := yields_bind.mp h
    exact hcall hx h

theorem writes_lowerOther {line : Nat} {kind : OtherStmt} {code : List TypedStatement}
    (h : Yields (lowerOther line kind) t code t') (ht : t.InOrder) : Writes t t' code := by
  unfold lowerOther at h
  split at h
  · obtain ⟨rfl, rfl⟩ := yields_pure.mp h
    exact .single ht rfl rfl rfl fun _ hv => absurd hv List.not_mem_nil
  · obtain ⟨rfl, rfl⟩ := yields_pure.mp h
    exact .single ht rfl rfl rfl fun _ hv => absurd hv List.not_mem_nil
  · split at h
    · simp only [yields_bind, yields_tell, yields_return] at h
      obtain ⟨_, t₁, rfl, rfl, rfl⟩ := h
      exact .nothing ht
    · exact absurd h yields_refuse

/-! ## Blocks and functions -/

def WritesBlock (body : Lowering Block) : Prop :=
  ∀ {t t' : Table} {block : Block}, Yields body t block t' → t.InOrder →
    Writes t t' block.statements

theorem writes_countingLoop {line targetLine iterLine : Nat} {name : String} {iter : Expr}
    {body : Lowering Block} {returns : Ty} {block : Block} (hbody : WritesBlock body)
    (h : Yields (countingLoop line targetLine iterLine name (lowerValue iter) body returns)
      t block t') (ht : t.InOrder) : Writes t t' block.statements := by
  obtain ⟨v, declaration, t₁, x, t₂, range, t₃, known, inner, t₄, advanced, joined, hbind, hx,
    hrange, -, hinner, -, -, rfl, rfl⟩ := yields_countingLoop.mp h
  obtain ⟨hdeclare, hv⟩ := (binds_bindName hbind).writes ht
  obtain ⟨ht₂, hvars, hreads⟩ := inOrder_lowerExpr iter hx hdeclare.inOrder
  obtain ⟨rfl, arguments, ty, rfl, hbounds⟩ := rangeOf_yields hrange
  obtain ⟨hstart, hstop, hstep⟩ := hbounds.readsBelow ((readsBelow_inner rfl).mp hreads)
  have hassign : Writes t₁ (t₃.raise v known) [.assign v range.start] :=
    .assign (ht₂.raise v known) hvars hv hstart
  have hwithin := hbody hinner hassign.inOrder
  have hlength : t₁.vars.length = (t₃.raise v known).vars.length := congrArg List.length hvars.symm
  rw [hlength] at hv hstop hstep
  have hv' := Nat.lt_of_lt_of_le hv hwithin.orderly.le
  have hadvance : Writes t₄ (t₄.raise v advanced) [.assign v (.binary .add
      (.read v ((t₄.raise v advanced).tyOf v)) range.step
      (BinOp.add.resultTy (t₄.tyOf v) range.step.ty))] := by
    refine .assign (hwithin.inOrder.raise v advanced) rfl hv' ((readsBelow_inner rfl).mpr ?_)
    exact readsBelow_pair.mpr ⟨readsBelow_read.mpr hv', hstep.mono hwithin.orderly.le⟩
  have hguard : ReadsBelow (t₃.raise v known).vars.length
      [.binary .different (.read v ((t₃.raise v known).tyOf v)) range.stop .boolean] :=
    (readsBelow_inner rfl).mpr (readsBelow_pair.mpr ⟨readsBelow_read.mpr hv, hstop⟩)
  exact hdeclare.append (hassign.append (.around rfl hguard (hwithin.append hadvance)))

theorem writes_declareParameters {owner : String} {position : Nat} {ps : List Parameter}
    {vs : List VarId} (h : Yields (declareParameters owner position ps) t vs t')
    (ht : t.InOrder) : Writes t t' [] := by
  induction ps generalizing position t vs with
  | nil =>
      obtain ⟨-, rfl⟩ := yields_pure.mp h
      exact .nothing ht
  | cons p ps ih =>
      simp only [declareParameters, yields_bind, yields_ofExcept, yields_declareVariable,
        yields_return] at h
      obtain ⟨stated, t₁, ⟨-, rfl⟩, v, t₂, ⟨-, rfl⟩, vs', t₃, hrest, -, rfl⟩ := h
      have hfirst : Writes t (t.withVariable p.name stated (some ⟨owner, position⟩)) [] :=
        ⟨ht.withVariable _ _ _, .nil (by simp)⟩
      exact hfirst.append (ih hrest hfirst.inOrder)

theorem writes_lowerFunction {line : Nat} {name : String} {ps : Parameters} {p : ProcId}
    {body : Lowering Block} {u : Unit} (hbody : WritesBlock body)
    (h : Yields (lowerFunction line name ps p body) t u t') (ht : t.InOrder) :
    Writes t t' [] := by
  obtain ⟨vs, t₁, block, t₂, unified, hvs, hblock, rfl⟩ := lowerFunction_yields h
  have hparameters := writes_declareParameters hvs ht.enter
  have hwithin := hbody hblock hparameters.inOrder
  have hsame : (t₂.leave.complete p unified vs block.statements).vars = t₂.vars := by simp
  refine ⟨hwithin.inOrder.leave.complete p unified vs ?_, .nil ?_⟩
  · rw [Table.toDeclarations_leave]
    exact hwithin.orderly.mono (Nat.zero_le _) (Nat.le_refl _)
  · rw [hsame]
    exact Nat.le_trans hparameters.orderly.le hwithin.orderly.le

theorem writes_twoPasses {body : List Stmt}
    (hfirst : ∀ {t t' : Table} {pass : FirstPass}, Yields (lowerStmts .unknown body) t pass t' →
      t.InOrder → Writes t t' pass.statements)
    (hsecond : ∀ {t t' : Table} {places : List ProcId} {u : Unit},
      Yields (lowerBodies body places) t u t' → t.InOrder → Writes t t' []) :
    WritesBlock (twoPasses (lowerStmts .unknown body) (lowerBodies body)) := by
  intro t t' block h ht
  simp only [twoPasses, yields_bind, yields_return] at h
  obtain ⟨pass, t₁, hpass, _, t₂, hbodies, rfl, rfl⟩ := h
  have hwrites := hfirst hpass ht
  exact hwrites.meanwhile (hsecond hbodies hwrites.inOrder)

mutual

theorem writes_lowerStmt (s : Stmt) {returns : Ty} {t t' : Table} {pass : FirstPass}
    (h : Yields (lowerStmt returns s) t pass t') (ht : t.InOrder) :
    Writes t t' pass.statements := by
  cases s with
  | functionDef line name ps body decorators hint =>
      simp only [lowerStmt, yields_bind, yields_return] at h
      obtain ⟨p, t₁, hp, rfl, rfl⟩ := h
      obtain ⟨-, stated, -, rfl⟩ := declareFunction_yields hp
      exact ⟨ht.withProcedure name stated, .nil (by simp)⟩
  | ret line value =>
      cases value with
      | none =>
          simp only [lowerStmt, yields_bind, yields_return] at h
          obtain ⟨returns, t₁, hreturns, rfl, rfl⟩ := h
          obtain ⟨-, rfl⟩ := yields_joinReturns.mp hreturns
          exact .single ht rfl rfl rfl fun _ hv => absurd hv List.not_mem_nil
      | some value =>
          simp only [lowerStmt, yields_bind, yields_return] at h
          obtain ⟨x, t₁, hx, returns, t₂, hreturns, rfl, rfl⟩ := h
          obtain ⟨-, rfl⟩ := yields_joinReturns.mp hreturns
          obtain ⟨ht₁, hvars, hreads⟩ := inOrder_lowerExpr value hx ht
          exact .single ht₁ hvars rfl rfl hreads
  | assign line targets value =>
      simp only [lowerStmt, yields_bind, yields_return] at h
      obtain ⟨code, t₁, hcode, rfl, rfl⟩ := h
      exact writes_assignAll hcode ht fun _ he => by cases he
  | augAssign line target op value =>
      simp only [lowerStmt, yields_bind, yields_return] at h
      obtain ⟨code, t₁, hcode, rfl, rfl⟩ := h
      exact writes_augment hcode ht
  | annAssign line target hint value =>
      simp only [lowerStmt, yields_bind, yields_return] at h
      obtain ⟨code, t₁, hcode, rfl, rfl⟩ := h
      exact writes_assignHinted hcode ht
  | branch line test body orelse =>
      simp only [lowerStmt, yields_bind, yields_return] at h
      obtain ⟨guard, t₁, hguard, yes, t₂, hyes, no, t₃, hno, joined, t₄, hjoined, returns, t₅,
        hreturns, rfl, rfl⟩ := h
      obtain ⟨-, rfl⟩ := yields_joinReturns.mp hjoined
      obtain ⟨-, rfl⟩ := yields_joinReturns.mp hreturns
      obtain ⟨ht₁, hvars, hreads⟩ := inOrder_lowerExpr test hguard ht
      have hwrites := writes_twoPasses (writes_lowerStmts body) (writes_lowerBodies body) hyes ht₁
      have hwrites' := writes_twoPasses (writes_lowerStmts orelse) (writes_lowerBodies orelse) hno
        hwrites.inOrder
      exact .around rfl hreads (.after hvars (hwrites.append hwrites'))
  | whileLoop line test body orelse =>
      simp only [lowerStmt] at h
      split at h
      · simp only [yields_bind, yields_return] at h
        obtain ⟨guard, t₁, hguard, block, t₂, hblock, returns, t₃, hreturns, rfl, rfl⟩ := h
        obtain ⟨-, rfl⟩ := yields_joinReturns.mp hreturns
        obtain ⟨ht₁, hvars, hreads⟩ := inOrder_lowerExpr test hguard ht
        have hwrites := writes_twoPasses (writes_lowerStmts body) (writes_lowerBodies body) hblock
          ht₁
        exact .around rfl hreads (.after hvars hwrites)
      · exact absurd h yields_refuse
  | forLoop line target iter body orelse =>
      simp only [lowerStmt] at h
      split at h
      · split at h
        · simp only [yields_bind, yields_return] at h
          obtain ⟨block, t₁, hblock, rfl, rfl⟩ := h
          have hbody := @writes_twoPasses body (writes_lowerStmts body) (writes_lowerBodies body)
          exact writes_countingLoop hbody hblock ht
        · exact absurd h yields_fail
      · exact absurd h yields_refuse
  | raise line cause =>
      cases cause with
      | none =>
          simp only [lowerStmt, yields_bind, yields_tell, yields_return] at h
          obtain ⟨_, t₁, rfl, rfl, rfl⟩ := h
          exact .nothing ht
      | some cause => exact absurd h yields_refuse
  | expression line value =>
      simp only [lowerStmt, yields_bind, yields_return] at h
      obtain ⟨code, t₁, hcode, rfl, rfl⟩ := h
      exact writes_lowerStandAlone hcode ht
  | other line kind =>
      simp only [lowerStmt, yields_bind, yields_return] at h
      obtain ⟨code, t₁, hcode, rfl, rfl⟩ := h
      exact writes_lowerOther hcode ht

theorem writes_lowerStmts (ss : List Stmt) {returns : Ty} {t t' : Table} {pass : FirstPass}
    (h : Yields (lowerStmts returns ss) t pass t') (ht : t.InOrder) :
    Writes t t' pass.statements := by
  cases ss with
  | nil =>
      simp only [lowerStmts, yields_pure] at h
      obtain ⟨rfl, rfl⟩ := h
      exact .nothing ht
  | cons s rest =>
      simp only [lowerStmts, yields_bind, yields_tell, yields_return] at h
      obtain ⟨_, _, rfl, here, t₁, hhere, there, t₂, hthere, rfl, rfl⟩ := h
      have hwrites := writes_lowerStmt s hhere ht
      exact hwrites.append (writes_lowerStmts rest hthere hwrites.inOrder)

theorem writes_lowerBodies (ss : List Stmt) {places : List ProcId} {t t' : Table} {u : Unit}
    (h : Yields (lowerBodies ss places) t u t') (ht : t.InOrder) : Writes t t' [] := by
  cases ss with
  | nil =>
      simp only [lowerBodies, yields_pure] at h
      obtain ⟨-, rfl⟩ := h
      exact .nothing ht
  | cons s rest =>
      cases s with
      | functionDef line name ps body decorators hint =>
          cases places with
          | nil => exact writes_lowerBodies rest h ht
          | cons p places =>
              simp only [lowerBodies, yields_bind] at h
              obtain ⟨_, t₁, hfunction, hrest⟩ := h
              have hbody := @writes_twoPasses body (writes_lowerStmts body)
                (writes_lowerBodies body)
              have hwrites := writes_lowerFunction hbody hfunction ht
              exact hwrites.append (writes_lowerBodies rest hrest hwrites.inOrder)
      | _ => exact writes_lowerBodies rest h ht

end

/-! ## Documents -/

theorem declared_published (ds : Declarations) (ids : IdStream) (p : Procedure) :
    declared (ds.published ids p).body =
      (declared p.body).map fun v => (ds.publishVariable v).map ids := by
  simp [Declarations.published, Document.Procedure.map, Declarations.publishProcedure,
    Document.Statement.map, Declarations.publishBody, declared_mapAll, Function.comp_def]

section Finished

variable {signatures : SignatureTable} {ds : Declarations}

theorem eq_of_id_eq {s : State} (hrun : Runs (.initial signatures) s) (hends : Ends s ds)
    {v w : VarId} (hv : v.index < ds.vars.length) (hw : w.index < ds.vars.length)
    (h : (ds.varAt v).id = (ds.varAt w).id) : v = w := by
  have hnodup : (ds.vars.map (·.id)).Nodup :=
    ((serials_perm hrun hends).nodup_iff.mpr List.nodup_range).of_append_right
  rw [ds.vars_eq_map, List.map_map] at hnodup
  have hmem {u : VarId} (hu : u.index < ds.vars.length) :
      u ∈ (List.range ds.vars.length).map VarId.mk :=
    List.mem_map.mpr ⟨u.index, List.mem_range.mpr hu, rfl⟩
  exact List.inj_on_of_nodup_map hnodup (hmem hv) (hmem hw) h

theorem orderly_of_run {body : List Stmt} {lowered : Lowered}
    (h : (run signatures (.module body)).result = .ok lowered) {p : Procedure}
    (hp : p ∈ lowered.declarations.procedures) :
    Orderly 0 lowered.declarations.vars.length p.body := by
  obtain ⟨block, t, t', hblock, hentry, rfl⟩ := run_yields h
  obtain ⟨hprocedures, hvars, -⟩ := wrapEntry_yields hentry
  have hwrites : Writes (.empty signatures) t block.statements :=
    writes_twoPasses (writes_lowerStmts body) (writes_lowerBodies body) hblock (.empty signatures)
  change p ∈ t'.procedures at hp
  change Orderly 0 t'.vars.length p.body
  rw [hprocedures] at hp
  rw [hvars]
  rcases List.mem_append.mp hp with hp | hp
  · exact hwrites.inOrder.bodies p hp
  · unfold entryOf at hp
    split at hp
    · cases hp
    · rw [List.mem_singleton.mp hp]
      exact hwrites.orderly

theorem declaredFirst_published {s : State} (hrun : Runs (.initial signatures) s)
    (hends : Ends s ds) {p : Procedure} (hp : Orderly 0 ds.vars.length p.body) {v : VarId}
    (hv : v ∈ declared p.body) {ids : IdStream} (hids : Function.Injective ids) :
    DeclaredFirst (·.id) (ds.published ids p).body (ids (ds.varAt v).id) := by
  have hlt : v.index < ds.vars.length := by
    obtain ⟨statement, hstatement, hdeclaration⟩ := List.mem_filterMap.mp hv
    exact hp.below statement hstatement v (by simp [Statement.mentioned, hdeclaration])
  have hserials : DeclaredFirst (·.id) (ds.publishBody p.body) (ds.varAt v).id := by
    refine (hp.declaredFirst hv).mapAll _ _ _ _ (fun _ => rfl) fun s' hs' w hw hserial => ?_
    exact eq_of_id_eq hrun hends (hp.below s' hs' w hw) hlt hserial
  exact hserials.mapAll _ _ _ _ (fun _ => rfl) fun _ _ _ _ hsame => hids hsame

end Finished

/--
Every variable is a parameter or is declared in the code of one procedure.  There a
single statement declares it, before all that assign or read it.  This is so in the
whole document and in each that is isolated from it.
-/
theorem declared_before_use {signatures : SignatureTable} {body : List Stmt} {lowered : Lowered}
    (h : (run signatures (.module body)).result = .ok lowered) :
    let ds := lowered.declarations
    (ds.procedures.flatMap Procedure.locals).Perm
        ((List.range ds.vars.length).map VarId.mk) ∧
      (∀ p ∈ ds.procedures, ∀ v ∈ p.locals, v ∉ p.parameters → DeclaredFirst id p.body v) ∧
      ∀ ids : IdStream, Function.Injective ids → ∀ document : Document String,
        (document = ds.publish.map ids ∨
          ∃ name, (ds.publish.map ids).isolate? name = some document) →
        ∀ p ∈ document.procedures, ∀ x ∈ p.declarations, x ∉ p.parameters →
          DeclaredFirst (·.id) p.body x.id := by
  intro ds
  obtain ⟨s, hrun, hcomplete, hends⟩ := exists_run h
  refine ⟨locals_perm hrun hcomplete hends, fun p hp v hv hnot => ?_,
    fun ids hids document hdocument p hp x hx hnot => ?_⟩
  · have hdeclared := (List.mem_append.mp hv).resolve_left hnot
    exact (orderly_of_run h hp).declaredFirst hdeclared
  · have hmem : p ∈ (ds.publish.map ids).procedures := by
      rcases hdocument with rfl | ⟨name, hpart⟩
      · exact hp
      · exact (Document.sublist_of_isolate? hpart).2.subset hp
    rw [ds.procedures_publish] at hmem
    obtain ⟨q, hq, rfl⟩ := List.mem_map.mp hmem
    have hdeclared := (List.mem_append.mp hx).resolve_left hnot
    rw [declared_published] at hdeclared
    obtain ⟨v, hv, rfl⟩ := List.mem_map.mp hdeclared
    exact declaredFirst_published hrun hends (orderly_of_run h hq) hv hids

theorem declared_before_use_nestedModule : ∃ lowered procedure,
    (run OrderedMap.empty (.module nestedModule)).result = .ok lowered ∧
      procedure ∈ lowered.declarations.procedures ∧
      DeclaredFirst id procedure.body ⟨0⟩ ∧
      DeclaredFirst (·.id) (lowered.declarations.published (.sequential "id") procedure).body
        (IdStream.sequential "id" (lowered.declarations.varAt ⟨0⟩).id) := by
  obtain ⟨lowered, h⟩ := nestedModule_lowered
  have hparts : (run OrderedMap.empty (.module nestedModule)).result.toOption.map
      (fun lowered => lowered.declarations.procedures[2]?.map fun p =>
        (p.parameters, declared p.body)) = some (some ([], [⟨0⟩])) := rfl
  rw [h] at hparts
  obtain ⟨procedure, hget, hprocedure⟩ := Option.map_eq_some_iff.mp (Option.some.inj hparts)
  obtain ⟨hparameters, hdeclared⟩ := Prod.mk.inj hprocedure
  have hmem := List.mem_of_getElem? hget
  obtain ⟨-, hhandles, hdocuments⟩ := declared_before_use h
  refine ⟨lowered, procedure, h, hmem, hhandles procedure hmem ⟨0⟩ ?_ ?_,
    hdocuments (.sequential "id") (sequential_injective "id") _ (.inl rfl)
      (lowered.declarations.published (.sequential "id") procedure) ?_
      ((lowered.declarations.publishVariable ⟨0⟩).map (IdStream.sequential "id")) ?_ ?_⟩
  · simp [Procedure.locals, hdeclared]
  · simp [hparameters]
  · rw [Declarations.procedures_publish]
    exact List.mem_map_of_mem hmem
  · refine List.mem_append_right _ ?_
    rw [declared_published, hdeclared]
    exact List.mem_singleton_self _
  · simp [Declarations.published, Document.Procedure.map, Declarations.publishProcedure,
      hparameters]

end Lowering

end TypedPseudocode
