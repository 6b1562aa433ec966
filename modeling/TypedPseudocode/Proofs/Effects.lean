import TypedPseudocode.Proofs.Dialects
import TypedPseudocode.Proofs.Keeping
import TypedPseudocode.Proofs.Sessions

/-!
Effects of expressions.

Lowering an expression declares nothing, whether it succeeds or fails.  A call may reach a
procedure, which is then called and may be captured, and an append call may tell more of
the type of the variable that it appends to.  That is all: every other part of the table
is as it was before.
-/

namespace TypedPseudocode

open Code TypedPseudocode.Tree

/-! ## Append calls -/

namespace Tree.Expr

def isAppend : Expr → Bool
  | .call _ (.attribute _ _ attr _) _ _ => attr = "append"
  | _ => false

def appended? : Expr → Option String
  | .call _ (.attribute _ base attr _) _ _ => if attr = "append" then base.identifier? else none
  | _ => none

/-- The names that the append calls of an expression append to, at any depth. -/
def appended (e : Expr) : List String := e.nodes.filterMap appended?

theorem appended?_of_isAppend {e : Expr} (h : e.isAppend = false) : e.appended? = none := by
  unfold isAppend at h
  split at h
  · exact if_neg (of_decide_eq_false h)
  · rename_i hcall
    unfold appended?
    split
    · exact absurd rfl (hcall _ _ _ _ _ _ _)
    · rfl

theorem appended_eq_nil {e : Expr} (h : ∀ n ∈ e.nodes, n.isAppend = false) : e.appended = [] :=
  List.filterMap_eq_nil_iff.mpr fun n hn => appended?_of_isAppend (h n hn)

end Tree.Expr

/-! ## What may change -/

/-- All that changes in a procedure is that it may turn out to be called. -/
def Procedure.Reached (p p' : Procedure) : Prop :=
  ∃ called, (p.called → called = true) ∧ p' = { p with called }

theorem Procedure.Reached.trans {p p' p'' : Procedure} (h : p.Reached p') (h' : p'.Reached p'') :
    p.Reached p'' := by
  obtain ⟨called, hcalled, rfl⟩ := h
  obtain ⟨called', hcalled', rfl⟩ := h'
  exact ⟨called', fun hp => hcalled' (hcalled hp), rfl⟩

namespace Table

/-- Whether every variable in scope has a type on record. -/
def Records (t : Table) : Prop :=
  ∀ name v, t.lookup name .enclosing = some (.variable v) → v ∈ t.types.keys

theorem Consistent.records {t : Table} (h : t.Consistent) : t.Records := by
  intro name v hv
  obtain ⟨x, hx, -⟩ := h.bindings.of_lookup hv
  obtain ⟨hindex, -⟩ := List.getElem?_eq_some_iff.mp hx
  exact (OrderedMap.contains_iff_mem_keys _ _).mp (h.stored v hindex)

/-- What an expression may change that appends to variables of the given names only. -/
structure Touches (names : List String) (t t' : Table) : Prop where
  scope : t'.scope = t.scope
  outer : t'.outer = t.outer
  source : t'.source = t.source
  signatures : t'.signatures = t.signatures
  vars : t'.vars = t.vars
  count : t'.procedures.length = t.procedures.length
  procedures : ∀ (i : Nat) (p : Procedure), t.procedures[i]? = some p →
    ∃ p', t'.procedures[i]? = some p' ∧ p.Reached p'
  captured : t.captured.entries <+: t'.captured.entries
  types : ∀ v, t.tyOf v ≤ t'.tyOf v
  others : ∀ v, t'.types.get? v ≠ t.types.get? v →
    ∃ name ∈ names, t.lookup name .enclosing = some (.variable v)
  keys : t.Records → t'.types.keys = t.types.keys
  still : names = [] → t'.types = t.types

namespace Touches

variable {names : List String} {t t' t'' : Table}

theorem lookup_eq (h : Touches names t t') (name : String) (reach : Reach) :
    t'.lookup name reach = t.lookup name reach := by
  cases reach <;> simp [Table.lookup, h.scope, h.outer]

theorem records (h : Touches names t t') (ht : t.Records) : t'.Records := by
  intro name v hv
  rw [h.lookup_eq] at hv
  rw [h.keys ht]
  exact ht name v hv

theorem refl (names : List String) (t : Table) : Touches names t t where
  scope := rfl
  outer := rfl
  source := rfl
  signatures := rfl
  vars := rfl
  count := rfl
  procedures _ p hp := ⟨p, hp, p.called, id, rfl⟩
  captured := List.prefix_refl _
  types _ := le_refl _
  others _ hv := absurd rfl hv
  keys _ := rfl
  still _ := rfl

theorem trans (h : Touches names t t') (h' : Touches names t' t'') : Touches names t t'' where
  scope := h'.scope.trans h.scope
  outer := h'.outer.trans h.outer
  source := h'.source.trans h.source
  signatures := h'.signatures.trans h.signatures
  vars := h'.vars.trans h.vars
  count := h'.count.trans h.count
  procedures i p hp := by
    obtain ⟨p', hp', hreached⟩ := h.procedures i p hp
    obtain ⟨p'', hp'', hreached'⟩ := h'.procedures i p' hp'
    exact ⟨p'', hp'', hreached.trans hreached'⟩
  captured := h.captured.trans h'.captured
  types v := (h.types v).trans (h'.types v)
  others v hv := by
    by_cases heq : t'.types.get? v = t.types.get? v
    · obtain ⟨name, hname, hlookup⟩ := h'.others v (heq ▸ hv)
      rw [h.lookup_eq] at hlookup
      exact ⟨name, hname, hlookup⟩
    · exact h.others v heq
  keys ht := (h'.keys (h.records ht)).trans (h.keys ht)
  still hnames := (h'.still hnames).trans (h.still hnames)

instance : IsTrans Table (Touches names) := ⟨fun _ _ _ => Touches.trans⟩

theorem reach (names : List String) (t : Table) (name : String) (p : ProcId)
    (arguments : List Ty) : Touches names t (t.reach name p arguments) where
  scope := t.scope_reach name p arguments
  outer := t.outer_reach name p arguments
  source := t.source_reach name p arguments
  signatures := t.signatures_reach name p arguments
  vars := t.vars_reach name p arguments
  count := by simp
  procedures i q hq := by
    rw [procedures_reach, List.getElem?_modify, hq]
    by_cases hi : p.index = i
    · exact ⟨{ q with called := true }, by simp [hi], true, fun _ => rfl, rfl⟩
    · exact ⟨q, by simp [hi], q.called, id, rfl⟩
  captured := t.captured_reach name p arguments
  types v := by rw [Declarations.tyOf, Declarations.tyOf, types_reach]
  others v hv := absurd (by rw [types_reach]) hv
  keys _ := by rw [types_reach]
  still _ := t.types_reach name p arguments

theorem raise {name : String} {v : VarId} {ty unified : Ty} (hname : name ∈ names)
    (hv : t.lookup name .enclosing = some (.variable v))
    (hty : (t.tyOf v).unify ty = some unified) : Touches names t (t.raise v unified) where
  scope := rfl
  outer := rfl
  source := rfl
  signatures := rfl
  vars := rfl
  count := rfl
  procedures _ p hp := ⟨p, hp, p.called, id, rfl⟩
  captured := List.prefix_refl _
  types w := by
    rw [tyOf_raise]
    split
    · rename_i heq
      exact heq ▸ ((Ty.unify_le_iff hty unified).mp (le_refl unified)).1
    · exact le_refl _
  others w hw := by
    by_cases heq : v = w
    · exact ⟨name, hname, heq ▸ hv⟩
    · exact absurd ((OrderedMap.get?_insert _ _ _ _).trans (if_neg heq)) hw
  keys ht := OrderedMap.keys_insert_of_mem _ (ht name v hv)
  still hnames := absurd (hnames ▸ hname) List.not_mem_nil

end Touches

end Table

namespace Lowering

variable {α β : Type} {names : List String}

/-! ## Steps of expressions -/

theorem looking_still : Looking fun step => ∀ t, (step t).table = t where
  ofExcept _ _ := rfl
  bind {α β step next} h hnext t := by
    rcases hstep : step t with ⟨result, t', events⟩
    have hfirst := h t
    rw [hstep] at hfirst
    cases result with
    | error d =>
        rw [bind_run_error hstep]
        exact hfirst
    | ok a =>
        rw [bind_run_ok hstep]
        exact (hnext a t').trans hfirst
  tell _ _ := rfl
  gets _ _ := rfl
  lookupVariable _ _ _ _ := rfl

theorem touches_of_still {step : Lowering α} (h : ∀ t, (step t).table = t) :
    Keeps (Table.Touches names) step := by
  intro t
  rw [h t]
  exact .refl names t

theorem touches_lookupCalled (name : String) (reach : Reach) (arguments : List Ty) (line : Nat) :
    Keeps (Table.Touches names) (lookupCalled name reach arguments line) := by
  intro t
  simp only [lookupCalled, Table.lookupCalled]
  cases t.lookup name reach with
  | none => exact .refl names t
  | some d =>
      cases d with
      | procedure p => exact .reach names t name p arguments
      | «variable» v => exact .refl names t

theorem touches_callName (line nameLine : Nat) (name : String)
    (arguments : List TypedExpression) :
    Keeps (Table.Touches names) (callName line nameLine name arguments) := by
  refine (touches_lookupCalled _ _ _ _).andThen fun found => touches_of_still ?_
  cases found with
  | some p =>
      exact looking_still.bind (looking_still.gets fun ds _ => (ds.procAt p).ty)
        fun _ => looking_still.pure _
  | none => exact looking_still.callBuiltin _ _ _ _

theorem touches_appendTo {t : Table} {name : String} {v : VarId} (hname : name ∈ names)
    (hv : t.lookup name .enclosing = some (.variable v)) (line : Nat) (value : TypedExpression) :
    Table.Touches names t (appendTo line v value t).table := by
  refine related_bind ?_ fun _ t₁ _ => ?_
  · rcases table_constrainVariable v (.array value.ty) line t with hsame | ⟨unified, hty, hraised⟩
    · rw [hsame]
      exact .refl names t
    · rw [hraised]
      exact .raise hname hv hty
  · exact touches_of_still (looking_still.bind (looking_still.readVariable v)
      fun _ => looking_still.pure _) t₁

/-! ## Expressions -/

mutual

theorem touches_lowerExpr (e : Expr) (place : Place)
    (h : ∀ n ∈ e.nodes, ∀ name ∈ n.appended?, name ∈ names) :
    Keeps (Table.Touches names) (lowerExpr place e) := by
  obtain ⟨hhere, hinner⟩ := List.forall_mem_cons.mp h
  cases e with
  | name line id ctx =>
      simp only [lowerExpr]
      exact touches_of_still (looking_still.lowerName _ _ _)
  | constant | num | nameConstant | str =>
      simp only [lowerExpr]
      exact touches_of_still fun _ => rfl
  | list line elements ctx | tuple line elements ctx =>
      simp only [lowerExpr]
      exact (touches_lowerExprs elements hinner).andThen fun _ =>
        touches_of_still (looking_still.aggregate _ _)
  | binOp line left op right =>
      obtain ⟨hleft, hright⟩ := List.forall_mem_append.mp hinner
      simp only [lowerExpr]
      refine (touches_of_still (looking_still.lowerOperator op line)).andThen fun op => ?_
      refine (touches_lowerExpr left .operand hleft).andThen fun left => ?_
      exact (touches_lowerExpr right .operand hright).andThen fun _ =>
        touches_of_still fun _ => rfl
  | boolOp line op values =>
      simp only [lowerExpr]
      exact (touches_lowerExprs values hinner).andThen fun _ =>
        touches_of_still (looking_still.connect _ _ _)
  | compare line left ops comparators =>
      obtain ⟨hleft, hrest⟩ := List.forall_mem_append.mp hinner
      simp only [lowerExpr]
      split
      · exact touches_of_still fun _ => rfl
      · refine (touches_of_still (looking_still.lowerComparisons line ops)).andThen fun ops => ?_
        refine (touches_lowerExpr left .operand hleft).andThen fun first => ?_
        exact (touches_lowerExprs comparators hrest).andThen fun _ =>
          touches_of_still (looking_still.compareAll _ _ _)
  | unaryOp line op operand =>
      simp only [lowerExpr]
      refine (touches_lowerExpr operand .operand hinner).andThen fun operand => ?_
      cases op <;> exact touches_of_still fun _ => rfl
  | call line func args keywords =>
      obtain ⟨hfunc, hargs⟩ := List.forall_mem_append.mp hinner
      unfold lowerExpr
      split
      · split
        · exact (touches_lowerExprs args hargs).andThen fun _ => touches_callName _ _ _ _
        · rename_i target attr ctx
          split
          · rename_i hattr
            match args with
            | [value] =>
                have hvalue := touches_lowerExpr value .operand
                  (List.forall_mem_append.mp hargs).1
                refine (touches_of_still (looking_still.resolveArray target)).bind
                  fun t v t' hv => ?_
                obtain ⟨rfl, name, hid, hlookup⟩ := resolveArray_identifier hv
                have hname : name ∈ names := hhere name ((if_pos hattr).trans hid)
                refine related_bind (hvalue t') fun value t₁ hyields => ?_
                -- Names still stand for what they stood for before the value was lowered.
                have hsame := hvalue t'
                rw [hyields.2] at hsame
                exact touches_appendTo hname ((hsame.lookup_eq name _).trans hlookup) line value
            | [] | _ :: _ :: _ => exact touches_of_still fun _ => rfl
          · exact touches_of_still fun _ => rfl
        · exact touches_of_still fun _ => rfl
      · exact touches_of_still fun _ => rfl
  | subscript line base slice ctx =>
      obtain ⟨hbase, hslice⟩ := List.forall_mem_append.mp hinner
      simp only [lowerExpr]
      refine (touches_of_still fun _ => rfl).andThen fun _ => ?_
      refine (touches_lowerExpr base .operand hbase).andThen fun target => ?_
      split
      · exact touches_of_still fun _ => rfl
      · exact touches_of_still fun _ => rfl
      · exact (touches_lowerExpr slice .index hslice).andThen fun _ =>
          touches_of_still fun _ => rfl
  | «attribute» line value attr ctx =>
      simp only [lowerExpr]
      exact touches_of_still fun _ => rfl
  | index line value =>
      simp only [lowerExpr]
      cases place with
      | index => exact touches_lowerExpr value .operand hinner
      | operand => exact touches_of_still fun _ => rfl
  | slice line lower upper step =>
      simp only [lowerExpr]
      cases place <;> exact touches_of_still fun _ => rfl
  | other line kind =>
      simp only [lowerExpr]
      split <;> exact touches_of_still fun _ => rfl

theorem touches_lowerExprs (es : List Expr)
    (h : ∀ n ∈ Expr.nodesAll es, ∀ name ∈ n.appended?, name ∈ names) :
    Keeps (Table.Touches names) (lowerExprs es) := by
  cases es with
  | nil =>
      simp only [lowerExprs]
      exact touches_of_still fun _ => rfl
  | cons e es =>
      obtain ⟨hfirst, hrest⟩ := List.forall_mem_append.mp h
      simp only [lowerExprs]
      refine (touches_lowerExpr e .operand hfirst).andThen fun first => ?_
      exact (touches_lowerExprs es hrest).andThen fun _ => touches_of_still fun _ => rfl

end

/--
What lowering an expression does to any table, whether it succeeds or fails and wherever it
stands.  Scopes, drawn ids, supplied signatures and variables are as before, and so are
the procedures but for their being called, which can only become true.  What was captured
stays, and more may follow.  Types only move up, and only those of variables that append
calls in the expression append to; in a consistent table no type is put on record that was
not there.  Without an append call all types stay.
-/
theorem expression_effects (e : Expr) (t : Table) :
    ∀ t' ∈ [(lowerValue e t).table, (lowerIndex e t).table, (resolveArray e t).table],
      (t'.scope = t.scope ∧ t'.outer = t.outer ∧ t'.source = t.source ∧
        t'.signatures = t.signatures ∧ t'.vars = t.vars) ∧
      (t'.procedures.length = t.procedures.length ∧
        ∀ (i : Nat) (p : Procedure), t.procedures[i]? = some p →
          ∃ called, (p.called → called = true) ∧ t'.procedures[i]? = some { p with called }) ∧
      t.captured.entries <+: t'.captured.entries ∧
      (∀ v, t.tyOf v ≤ t'.tyOf v) ∧
      (∀ v, t'.types.get? v ≠ t.types.get? v →
        ∃ name ∈ e.appended, t.lookup name .enclosing = some (.variable v)) ∧
      (t.Consistent → t'.types.keys = t.types.keys) ∧
      ((∀ n ∈ e.nodes, n.isAppend = false) → t'.types = t.types) := by
  have happended : ∀ n ∈ e.nodes, ∀ name ∈ n.appended?, name ∈ e.appended :=
    fun n hn name hname => List.mem_filterMap.mpr ⟨n, hn, hname⟩
  have htouches : ∀ t' ∈ [(lowerValue e t).table, (lowerIndex e t).table,
      (resolveArray e t).table], Table.Touches e.appended t t' := by
    simp only [List.forall_mem_cons]
    exact ⟨touches_lowerExpr e .operand happended t, touches_lowerExpr e .index happended t,
      touches_of_still (looking_still.resolveArray e) t, List.forall_mem_nil _⟩
  intro t' ht'
  have h := htouches t' ht'
  refine ⟨⟨h.scope, h.outer, h.source, h.signatures, h.vars⟩, ⟨h.count, fun i p hp => ?_⟩,
    h.captured, h.types, h.others, fun ht => h.keys ht.records, fun hnone => ?_⟩
  · obtain ⟨p', hp', called, hcalled, rfl⟩ := h.procedures i p hp
    exact ⟨called, hcalled, hp'⟩
  · exact h.still (Expr.appended_eq_nil hnone)

theorem expression_effects_append :
    let t := (Table.empty ∅).after
      [.declareVariable "xs" none none, .declareVariable "n" (some .int) none]
    let append := Expr.call 1 (.attribute 1 (.name 1 "xs" .load) "append" .load)
      [.name 1 "n" .load] []
    let e := Expr.binOp 1 append .add (.name 1 "m" .load)
    let t' := (lowerValue e t).table
    (lowerValue e t).result.toOption.isNone ∧ t'.types.get? ⟨0⟩ = some (.array .int) ∧
      t'.vars = t.vars ∧ t'.types.keys = t.types.keys ∧
      ∃ name ∈ e.appended, t.lookup name .enclosing = some (.variable ⟨0⟩) := by
  intro t append e t'
  obtain ⟨⟨-, -, -, -, hvars⟩, -, -, -, hothers, hkeys, -⟩ :=
    expression_effects e t t' List.mem_cons_self
  have hraised : t'.types.get? ⟨0⟩ = some (.array .int) := by decide
  have hbefore : t.types.get? ⟨0⟩ = some .unknown := by decide
  refine ⟨by decide, hraised, hvars, hkeys ((Table.Consistent.empty ∅).after _), ?_⟩
  exact hothers ⟨0⟩ (by rw [hraised, hbefore]; decide)

end Lowering

end TypedPseudocode
