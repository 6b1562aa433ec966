import Mathlib.Data.List.Forall2
import TypedPseudocode.Proofs.Yields

/-!
Expressions in small steps.

However an expression is nested, lowering it comes down to a sequence of steps
on a stack of operands: a step takes operands off the end of the stack, may look
at the symbol table or change it, and puts one expression in their place.  Only
four kinds of steps exist, and only two of them change the table.
-/

namespace TypedPseudocode

open Code TypedPseudocode.Tree

/-! ## What operators stand for -/

namespace Tree

inductive Operator.StandsFor : Operator → BinOp → Prop
  | add : StandsFor .add .add
  | sub : StandsFor .sub .sub
  | mult : StandsFor .mult .mul
  | div : StandsFor .div .div
  | floorDiv : StandsFor .floorDiv .intDiv
  | mod : StandsFor .mod .mod
  | pow : StandsFor .pow .pow

inductive BoolOperator.StandsFor : BoolOperator → BinOp → Prop
  | and : StandsFor .and .and
  | or : StandsFor .or .or

inductive Comparison.StandsFor : Comparison → BinOp → Prop
  | eq : StandsFor .eq .equal
  | notEq : StandsFor .notEq .different
  | gt : StandsFor .gt .greater
  | ge : StandsFor .ge .greaterEq
  | lt : StandsFor .lt .smaller
  | le : StandsFor .le .smallerEq

theorem Comparison.forall_isComparison {ops : List Comparison} {ops' : List BinOp}
    (h : List.Forall₂ Comparison.StandsFor ops ops') : ∀ op ∈ ops', op.isComparison := by
  induction h with
  | nil => simp
  | cons hop _ ih =>
      refine List.forall_mem_cons.mpr ⟨?_, ih⟩
      cases hop <;> rfl

end Tree

namespace Lowering

theorem binOp?_eq_some_iff {op : Operator} {op' : BinOp} :
    binOp? op = some op' ↔ op.StandsFor op' := by
  constructor
  · intro h
    cases op <;> cases h <;> constructor
  · rintro ⟨⟩ <;> rfl

theorem connective_eq_iff {op : BoolOperator} {op' : BinOp} :
    connective op = op' ↔ op.StandsFor op' := by
  constructor
  · rintro rfl
    cases op <;> constructor
  · rintro ⟨⟩ <;> rfl

theorem comparison?_eq_some_iff {op : Comparison} {op' : BinOp} :
    comparison? op = some op' ↔ op.StandsFor op' := by
  constructor
  · intro h
    cases op <;> cases h <;> constructor
  · rintro ⟨⟩ <;> rfl

/-! ## Steps on operands -/

/-- The expressions put together from others without a look at the table. -/
inductive Composes : List TypedExpression → TypedExpression → Prop
  | literal (value : Constant) : Composes [] (.constant value)
  | readBuiltin {name : String} {ty : Ty} (h : Builtin.variableTy? name = some ty) :
      Composes [] (.readBuiltin name ty)
  | aggregate {elements : List TypedExpression} {ty : Ty}
      (h : Ty.unifyAll (elements.map (·.ty)) = .ok ty) :
      Composes elements (.aggregate elements (.array ty))
  | binary (op : BinOp) (left right : TypedExpression) :
      Composes [left, right] (.binary op left right (op.resultTy left.ty right.ty))
  | connect {op : BoolOperator} {operands : List TypedExpression} {e : TypedExpression}
      (h : Expression.chain? (connective op) operands = some e) : Composes operands e
  | compare {ops : List BinOp} {operands : List TypedExpression} {e : TypedExpression}
      (hops : ∀ op ∈ ops, op.isComparison) (hlength : ops.length + 1 = operands.length)
      (h : Expression.chain? .and (Expression.comparisons ops operands) = some e) :
      Composes operands e
  | unary (op : UnOp) (operand : TypedExpression) :
      Composes [operand] (.unary op operand operand.ty)
  | arrayLength (target : TypedExpression) : Composes [target] (.arrayLength target)
  | arrayElement (target index : TypedExpression) :
      Composes [target, index] (.arrayElement target index target.ty.element)
  | callBuiltin {name : String} {arguments : List TypedExpression} {ty : Ty} {line : Nat}
      (hname : name ≠ "len") (hfunction : Builtin.isFunction name)
      (hty : Builtin.callTy name (arguments.map (·.ty)) line = .ok ty) :
      Composes arguments (.callBuiltin name arguments ty)

/-- One step on the operands, which end with the topmost one. -/
inductive Eval : Table → List TypedExpression → Table → List TypedExpression → Prop
  | compose {t : Table} {below operands : List TypedExpression} {e : TypedExpression}
      (h : Composes operands e) : Eval t (below ++ operands) t (below ++ [e])
  | read {t : Table} {below : List TypedExpression} {name : String} {v : VarId}
      (h : t.lookup name .enclosing = some (.variable v)) :
      Eval t below t (below ++ [.read v (t.tyOf v)])
  | call {t : Table} {below arguments : List TypedExpression} {name : String} {p : ProcId}
      (h : t.lookup name .enclosing = some (.procedure p)) :
      Eval t (below ++ arguments) (t.reach name p (arguments.map (·.ty)))
        (below ++
          [.call p arguments ((t.reach name p (arguments.map (·.ty))).procAt p).ty])
  | append {t : Table} {below : List TypedExpression} {value : TypedExpression}
      {name : String} {v : VarId} {ty : Ty}
      (h : t.lookup name .enclosing = some (.variable v))
      (hty : (t.tyOf v).unify (.array value.ty) = some ty) :
      Eval t (below ++ [value]) (t.raise v ty)
        (below ++ [.callBuiltin "append" [.read v ((t.raise v ty).tyOf v), value] .void])

inductive Evals : Table → List TypedExpression → Table → List TypedExpression → Prop
  | refl (t : Table) (operands : List TypedExpression) : Evals t operands t operands
  | tail {t t₁ t₂ : Table} {operands operands₁ operands₂ : List TypedExpression}
      (h : Evals t operands t₁ operands₁) (step : Eval t₁ operands₁ t₂ operands₂) :
      Evals t operands t₂ operands₂

variable {t t' : Table}

theorem Evals.trans {t₁ t₂ : Table} {operands operands₁ operands₂ : List TypedExpression}
    (h : Evals t operands t₁ operands₁) (h' : Evals t₁ operands₁ t₂ operands₂) :
    Evals t operands t₂ operands₂ := by
  induction h' with
  | refl => exact h
  | tail _ step ih => exact (ih h).tail step

theorem Eval.once {t₁ : Table} {operands operands₁ : List TypedExpression}
    (h : Eval t operands t₁ operands₁) : Evals t operands t₁ operands₁ :=
  (Evals.refl t operands).tail h

theorem Evals.scopes_eq {operands operands' : List TypedExpression}
    (h : Evals t operands t' operands') : t'.scope = t.scope ∧ t'.outer = t.outer := by
  induction h with
  | refl => exact ⟨rfl, rfl⟩
  | tail _ step ih => cases step <;> simpa using ih

theorem Evals.lookup_eq {operands operands' : List TypedExpression}
    (h : Evals t operands t' operands') (name : String) (reach : Reach) :
    t'.lookup name reach = t.lookup name reach := by
  obtain ⟨hscope, houter⟩ := h.scopes_eq
  cases reach <;> simp [Table.lookup, hscope, houter]

/-! ## Elementary expressions -/

theorem yields_lowerOperator {op : Operator} {line : Nat} {op' : BinOp} :
    Yields (lowerOperator op line) t op' t' ↔ op.StandsFor op' ∧ t = t' := by
  rw [← binOp?_eq_some_iff, lowerOperator]
  cases binOp? op with
  | some found => simp [yields_pure]
  | none => simp

theorem yields_lowerComparisons {line : Nat} {ops : List Comparison} {ops' : List BinOp} :
    Yields (lowerComparisons line ops) t ops' t' ↔
      List.Forall₂ Comparison.StandsFor ops ops' ∧ t = t' := by
  induction ops generalizing ops' t' with
  | nil => simp [lowerComparisons, yields_pure]
  | cons op ops ih =>
      simp only [List.forall₂_cons_left_iff, ← comparison?_eq_some_iff, lowerComparisons]
      cases comparison? op with
      | some found =>
          simp only [yields_bind, yields_return, ih, Option.some.injEq]
          constructor
          · rintro ⟨rest, _, ⟨hrest, rfl⟩, rfl, rfl⟩
            exact ⟨⟨found, rest, rfl, hrest, rfl⟩, rfl⟩
          · rintro ⟨⟨_, rest, rfl, hrest, rfl⟩, rfl⟩
            exact ⟨rest, t, ⟨hrest, rfl⟩, rfl, rfl⟩
      | none => simp

theorem lowerExprs_length (es : List Expr) {xs : List TypedExpression}
    (h : Yields (lowerExprs es) t xs t') : xs.length = es.length := by
  induction es generalizing t xs with
  | nil =>
      obtain ⟨rfl, rfl⟩ := yields_pure.mp (by simpa only [lowerExprs] using h)
      rfl
  | cons e es ih =>
      simp only [lowerExprs, yields_bind, yields_return] at h
      obtain ⟨x, t₁, hx, xs', t₂, hxs, rfl, rfl⟩ := h
      simp [ih hxs]

theorem evals_lowerName {line : Nat} {id : String} {ctx : Context} {e : TypedExpression}
    (h : Yields (lowerName line id ctx) t e t') (below : List TypedExpression) :
    Evals t below t' (below ++ [e]) := by
  simp only [lowerName, yields_bind, yields_lookupVariable] at h
  obtain ⟨found, t₁, ⟨hfound, rfl⟩, h⟩ := h
  cases found with
  | some v =>
      obtain ⟨rfl, rfl⟩ := yields_readVariable.mp h
      have hvisible : t.lookup id .enclosing = some (.variable v) := by
        cases ctx with
        | store => exact Table.lookup_enclosing_of_innermost hfound
        | load => exact hfound
        | del => exact hfound
      exact (Eval.read hvisible).once
  | none =>
      simp only at h
      split at h
      · rename_i ty hty
        obtain ⟨rfl, rfl⟩ := yields_pure.mp h
        have step : Eval t (below ++ []) t (below ++ [_]) := .compose (.readBuiltin hty)
        rw [List.append_nil] at step
        exact step.once
      · exact absurd h yields_fail

theorem resolveArray_identifier {base : Expr} {v : VarId}
    (h : Yields (resolveArray base) t v t') :
    t' = t ∧ ∃ name, base.identifier? = some name ∧
      t.lookup name .enclosing = some (.variable v) := by
  cases base with
  | name line id ctx =>
      simp only [resolveArray, yields_bind, yields_lookupVariable] at h
      obtain ⟨found, t₁, ⟨hfound, rfl⟩, h⟩ := h
      cases found with
      | some w =>
          obtain ⟨rfl, rfl⟩ := yields_pure.mp h
          exact ⟨rfl, id, rfl, hfound⟩
      | none =>
          simp only at h
          split at h
          · exact absurd h yields_refuse
          · exact absurd h yields_fail
  | _ => exact absurd h yields_fail

theorem resolveArray_yields {base : Expr} {v : VarId}
    (h : Yields (resolveArray base) t v t') :
    t' = t ∧ ∃ name, t.lookup name .enclosing = some (.variable v) := by
  obtain ⟨ht, name, -, hname⟩ := resolveArray_identifier h
  exact ⟨ht, name, hname⟩

/-! ## Calls -/

theorem evals_callBuiltin {line nameLine : Nat} {name : String}
    {arguments : List TypedExpression} {e : TypedExpression}
    (h : Yields (callBuiltin line nameLine name arguments) t e t')
    (below : List TypedExpression) : Evals t (below ++ arguments) t' (below ++ [e]) := by
  unfold callBuiltin at h
  split at h
  · split at h
    · rename_i target
      obtain ⟨rfl, rfl⟩ := yields_pure.mp h
      exact (Eval.compose (.arrayLength target)).once
    · exact absurd h yields_fail
  · rename_i hname
    split at h
    · rename_i hfunction
      simp only [yields_bind, yields_ofExcept, yields_return] at h
      obtain ⟨ty, t₁, ⟨hty, rfl⟩, rfl, rfl⟩ := h
      exact (Eval.compose (.callBuiltin hname hfunction hty)).once
    · exact absurd h yields_fail

theorem evals_callName {line nameLine : Nat} {name : String}
    {arguments : List TypedExpression} {e : TypedExpression}
    (h : Yields (callName line nameLine name arguments) t e t')
    (below : List TypedExpression) : Evals t (below ++ arguments) t' (below ++ [e]) := by
  simp only [callName, yields_bind, yields_lookupCalled] at h
  obtain ⟨found, t₁, ⟨hfound, rfl⟩, h⟩ := h
  cases found with
  | some p =>
      simp only [yields_bind, yields_gets, yields_return, Option.elim_some] at h
      obtain ⟨ty, t₂, ⟨rfl, rfl⟩, rfl, rfl⟩ := h
      exact (Eval.call hfound).once
  | none => exact evals_callBuiltin h below

theorem evals_appendTo {line : Nat} {v : VarId} {name : String} {value e : TypedExpression}
    (hvisible : t.lookup name .enclosing = some (.variable v))
    (h : Yields (appendTo line v value) t e t') (below : List TypedExpression) :
    Evals t (below ++ [value]) t' (below ++ [e]) := by
  simp only [appendTo, yields_bind, yields_constrainVariable, yields_readVariable,
    yields_return] at h
  obtain ⟨ty, t₁, ⟨hty, rfl⟩, target, t₂, ⟨rfl, rfl⟩, rfl, rfl⟩ := h
  exact (Eval.append hvisible hty).once

/-! ## Composite expressions -/

theorem evals_aggregate {line : Nat} {elements : List TypedExpression} {e : TypedExpression}
    (h : Yields (aggregate line elements) t e t') (below : List TypedExpression) :
    Evals t (below ++ elements) t' (below ++ [e]) := by
  simp only [aggregate, yields_bind, yields_ofExcept, yields_return] at h
  obtain ⟨ty, t₁, ⟨hty, rfl⟩, rfl, rfl⟩ := h
  have hunify : Ty.unifyAll (elements.map (·.ty)) = .ok ty := by
    cases hall : Ty.unifyAll (elements.map (·.ty)) with
    | error conflict =>
        rw [hall] at hty
        cases hty
    | ok ty' =>
        rw [hall] at hty
        cases hty
        rfl
  exact (Eval.compose (.aggregate hunify)).once

theorem evals_connect {line : Nat} {op : BoolOperator} {operands : List TypedExpression}
    {e : TypedExpression} (h : Yields (connect line (connective op) operands) t e t')
    (below : List TypedExpression) : Evals t (below ++ operands) t' (below ++ [e]) := by
  unfold connect at h
  split at h
  · rename_i hchain
    obtain ⟨rfl, rfl⟩ := yields_pure.mp h
    exact (Eval.compose (.connect hchain)).once
  · exact absurd h yields_fail

theorem evals_compareAll {line : Nat} {ops : List BinOp} {operands : List TypedExpression}
    {e : TypedExpression} (hops : ∀ op ∈ ops, op.isComparison)
    (hlength : ops.length + 1 = operands.length)
    (h : Yields (compareAll line ops operands) t e t') (below : List TypedExpression) :
    Evals t (below ++ operands) t' (below ++ [e]) := by
  unfold compareAll at h
  split at h
  · rename_i hchain
    obtain ⟨rfl, rfl⟩ := yields_pure.mp h
    exact (Eval.compose (.compare hops hlength hchain)).once
  · exact absurd h yields_fail

private theorem evals_literal (value : Constant) (below : List TypedExpression) :
    Evals t below t (below ++ [.constant value]) := by
  have step : Eval t (below ++ []) t (below ++ [.constant value]) := .compose (.literal value)
  rw [List.append_nil] at step
  exact step.once

mutual

theorem evals_lowerExpr (e : Expr) {place : Place} {t t' : Table} {x : TypedExpression}
    (h : Yields (lowerExpr place e) t x t') (below : List TypedExpression) :
    Evals t below t' (below ++ [x]) := by
  cases e with
  | name line id ctx => exact evals_lowerName (by simpa only [lowerExpr] using h) below
  | constant line value =>
      obtain ⟨rfl, rfl⟩ := yields_pure.mp (by simpa only [lowerExpr] using h)
      exact evals_literal value below
  | num line value =>
      obtain ⟨rfl, rfl⟩ := yields_pure.mp (by simpa only [lowerExpr] using h)
      exact evals_literal value below
  | nameConstant line value =>
      obtain ⟨rfl, rfl⟩ := yields_pure.mp (by simpa only [lowerExpr] using h)
      exact evals_literal value below
  | str line text =>
      obtain ⟨rfl, rfl⟩ := yields_pure.mp (by simpa only [lowerExpr] using h)
      exact evals_literal (.str text) below
  | list line elements ctx =>
      simp only [lowerExpr, yields_bind] at h
      obtain ⟨es, t₁, hes, h⟩ := h
      exact (evals_lowerExprs elements hes below).trans (evals_aggregate h below)
  | tuple line elements ctx =>
      simp only [lowerExpr, yields_bind] at h
      obtain ⟨es, t₁, hes, h⟩ := h
      exact (evals_lowerExprs elements hes below).trans (evals_aggregate h below)
  | binOp line left op right =>
      simp only [lowerExpr, yields_bind, yields_return] at h
      obtain ⟨op', t₁, hop, l, t₂, hl, r, t₃, hr, rfl, rfl⟩ := h
      obtain ⟨-, rfl⟩ := yields_lowerOperator.mp hop
      have hleft := evals_lowerExpr left hl below
      have hright := evals_lowerExpr right hr (below ++ [l])
      rw [List.append_assoc] at hright
      exact (hleft.trans hright).tail (.compose (.binary op' l r))
  | boolOp line op values =>
      simp only [lowerExpr, yields_bind] at h
      obtain ⟨es, t₁, hes, h⟩ := h
      exact (evals_lowerExprs values hes below).trans (evals_connect h below)
  | compare line left ops comparators =>
      simp only [lowerExpr] at h
      split at h
      · exact absurd h yields_fail
      · rename_i hcount
        simp only [yields_bind] at h
        obtain ⟨ops', t₁, hstep, first, t₂, hfirst, rest, t₃, hrest, h⟩ := h
        obtain ⟨hops, rfl⟩ := yields_lowerComparisons.mp hstep
        have hlength := hops.length_eq
        have hoperands := (evals_lowerExpr left hfirst below).trans
          (evals_lowerExprs comparators hrest (below ++ [first]))
        rw [List.append_assoc] at hoperands
        have hrestLength := lowerExprs_length comparators hrest
        exact hoperands.trans
          (evals_compareAll (Comparison.forall_isComparison hops) (by simp; omega) h below)
  | unaryOp line op operand =>
      simp only [lowerExpr, yields_bind] at h
      obtain ⟨x', t₁, hx, h⟩ := h
      have hoperand := evals_lowerExpr operand hx below
      cases op with
      | plus =>
          obtain ⟨rfl, rfl⟩ := yields_return.mp h
          exact hoperand
      | not =>
          obtain ⟨rfl, rfl⟩ := yields_return.mp h
          exact hoperand.tail (.compose (.unary .not x'))
      | minus =>
          obtain ⟨rfl, rfl⟩ := yields_return.mp h
          exact hoperand.tail (.compose (.unary .neg x'))
      | invert => exact absurd h yields_refuse
  | call line func args keywords =>
      unfold lowerExpr at h
      split at h
      · split at h
        · rename_i nameLine id ctx
          obtain ⟨xs, t₁, hxs, h⟩ := yields_bind.mp h
          exact (evals_lowerExprs args hxs below).trans (evals_callName h below)
        · rename_i target attr ctx
          split at h
          · match args with
            | [value] =>
                simp only [yields_bind] at h
                obtain ⟨v, t₁, hv, x', t₂, hx, h⟩ := h
                obtain ⟨rfl, name, hname⟩ := resolveArray_yields hv
                have hvalue := evals_lowerExpr value hx below
                rw [← hvalue.lookup_eq] at hname
                exact hvalue.trans (evals_appendTo hname h below)
            | [] | _ :: _ :: _ => exact absurd h yields_fail
          · exact absurd h yields_refuse
        · exact absurd h yields_refuse
      · exact absurd h yields_refuse
  | subscript line base slice ctx =>
      simp only [lowerExpr, yields_bind] at h
      obtain ⟨_, t₁, hname, target, t₂, htarget, h⟩ := h
      obtain ⟨_, rfl⟩ := yields_ofExcept.mp hname
      have hbase := evals_lowerExpr base htarget below
      split at h
      · obtain ⟨rfl, rfl⟩ := yields_return.mp h
        exact hbase
      · exact absurd h yields_refuse
      · simp only [yields_bind, yields_return] at h
        obtain ⟨i, t₃, hi, rfl, rfl⟩ := h
        have hindex := evals_lowerExpr slice hi (below ++ [target])
        rw [List.append_assoc] at hindex
        exact (hbase.trans hindex).tail (.compose (.arrayElement target i))
  | «attribute» line value attr ctx =>
      simp only [lowerExpr] at h
      exact absurd h yields_refuse
  | index line value =>
      simp only [lowerExpr] at h
      cases place with
      | index => exact evals_lowerExpr value h below
      | operand => exact absurd h yields_refuse
  | slice line lower upper step =>
      simp only [lowerExpr] at h
      cases place <;> exact absurd h yields_refuse
  | other line kind =>
      simp only [lowerExpr] at h
      split at h <;> exact absurd h yields_refuse

theorem evals_lowerExprs (es : List Expr) {t t' : Table} {xs : List TypedExpression}
    (h : Yields (lowerExprs es) t xs t') (below : List TypedExpression) :
    Evals t below t' (below ++ xs) := by
  cases es with
  | nil =>
      obtain ⟨rfl, rfl⟩ := yields_pure.mp (by simpa only [lowerExprs] using h)
      simpa using Evals.refl t below
  | cons e es =>
      simp only [lowerExprs, yields_bind, yields_return] at h
      obtain ⟨x, t₁, hx, xs', t₂, hxs, rfl, rfl⟩ := h
      have hrest := evals_lowerExprs es hxs (below ++ [x])
      rw [List.append_assoc] at hrest
      exact (evals_lowerExpr e hx below).trans hrest

end

end Lowering

end TypedPseudocode
