import TypedPseudocode.Proofs.Renderings

/-!
Chains of conditions.

A connective between any number of conditions is nested to the right, and a chain of
comparisons is the conjunction of one comparison for each operator.  The operands are
lowered once each, from left to right; an operand between two operators is then put
into both comparisons.
-/

namespace TypedPseudocode

open Code TypedPseudocode.Tree

/-! ## The shape of chains -/

namespace Code.Expression

variable {V P : Type}

/-- `a op (b op (.. last))`, where every node is boolean. -/
def nested (op : BinOp) (before : List (Expression V P Ty)) (last : Expression V P Ty) :
    Expression V P Ty :=
  before.foldr (fun left right => .binary op left right .boolean) last

/-- There is one comparison for each operator, between the operand in its place and the next. -/
structure Compares (ops : List BinOp) (operands comparisons : List (Expression V P Ty)) :
    Prop where
  length_eq : comparisons.length = ops.length
  pairs : ∀ i < ops.length, ∃ op left right, ops[i]? = some op ∧ operands[i]? = some left ∧
    operands[i + 1]? = some right ∧ comparisons[i]? = some (.binary op left right .boolean)

theorem chain?_append (op : BinOp) (before : List (Expression V P Ty))
    (last : Expression V P Ty) : chain? op (before ++ [last]) = some (nested op before last) := by
  induction before with
  | nil => rfl
  | cons left before ih =>
      cases hrest : before ++ [last] with
      | nil => simp at hrest
      | cons next rest =>
          rw [List.cons_append, hrest, chain?, ← hrest, ih]
          · rfl
          · exact List.cons_ne_nil next rest

theorem chain?_eq_some_iff {op : BinOp} {operands : List (Expression V P Ty)}
    {e : Expression V P Ty} : chain? op operands = some e ↔
      ∃ before last, operands = before ++ [last] ∧ e = nested op before last := by
  constructor
  · intro h
    rcases List.eq_nil_or_concat operands with rfl | ⟨before, last, rfl⟩
    · cases h
    · rw [List.concat_eq_append, chain?_append] at h
      exact ⟨before, last, List.concat_eq_append, (Option.some.inj h).symm⟩
  · rintro ⟨before, last, rfl, rfl⟩
    exact chain?_append op before last

theorem compares_comparisons {ops : List BinOp} {operands : List (Expression V P Ty)}
    (h : operands.length = ops.length + 1) : Compares ops operands (comparisons ops operands) := by
  induction ops generalizing operands with
  | nil => exact ⟨by simp [comparisons], by simp⟩
  | cons op ops ih =>
      obtain _ | ⟨left, _ | ⟨right, rest⟩⟩ := operands
      · simp at h
      · simp at h
      · have hrest : (right :: rest).length = ops.length + 1 := by simpa using h
        obtain ⟨hlength, hpairs⟩ := ih hrest
        refine ⟨by simp [comparisons, hlength], fun i hi => ?_⟩
        cases i with
        | zero => exact ⟨op, left, right, rfl, rfl, rfl, rfl⟩
        | succ i => exact hpairs i (by simpa using hi)

theorem Compares.unique {ops : List BinOp} {operands cs cs' : List (Expression V P Ty)}
    (h : Compares ops operands cs) (h' : Compares ops operands cs') : cs = cs' := by
  apply List.ext_getElem?
  intro i
  by_cases hi : i < ops.length
  · obtain ⟨op, left, right, hop, hleft, hright, hc⟩ := h.pairs i hi
    obtain ⟨op', left', right', hop', hleft', hright', hc'⟩ := h'.pairs i hi
    rw [hop] at hop'
    rw [hleft] at hleft'
    rw [hright] at hright'
    cases hop'
    cases hleft'
    cases hright'
    rw [hc, hc']
  · rw [List.getElem?_eq_none (by rw [h.length_eq]; omega),
      List.getElem?_eq_none (by rw [h'.length_eq]; omega)]

theorem Compares.shared {ops : List BinOp} {operands cs : List (Expression V P Ty)}
    (h : Compares ops operands cs) (i : Nat) (hi : i + 1 < ops.length) :
    ∃ op op' left shared right, cs[i]? = some (.binary op left shared .boolean) ∧
      cs[i + 1]? = some (.binary op' shared right .boolean) := by
  obtain ⟨op, left, shared, -, -, hshared, hc⟩ := h.pairs i (by omega)
  obtain ⟨op', shared', right, -, hshared', -, hc'⟩ := h.pairs (i + 1) hi
  rw [hshared] at hshared'
  cases hshared'
  exact ⟨op, op', left, shared, right, hc, hc'⟩

end Code.Expression

/-! ## Lowering of chains -/

namespace Lowering

variable {t t' : Table}

/-- The expressions are lowered one after the other, each in the table that the last one left. -/
inductive InTurn : List Expr → Table → List TypedExpression → Table → Prop
  | nil (t : Table) : InTurn [] t [] t
  | cons {e : Expr} {es : List Expr} {t t₁ t₂ : Table} {x : TypedExpression}
      {xs : List TypedExpression} (h : Yields (lowerValue e) t x t₁) (hs : InTurn es t₁ xs t₂) :
      InTurn (e :: es) t (x :: xs) t₂

theorem InTurn.length_eq {es : List Expr} {xs : List TypedExpression} (h : InTurn es t xs t') :
    xs.length = es.length := by
  induction h with
  | nil => rfl
  | cons _ _ ih => simp [ih]

theorem yields_lowerExprs {es : List Expr} {xs : List TypedExpression} :
    Yields (lowerExprs es) t xs t' ↔ InTurn es t xs t' := by
  constructor
  · intro h
    induction es generalizing t xs with
    | nil =>
        obtain ⟨rfl, rfl⟩ := yields_pure.mp (by simpa only [lowerExprs] using h)
        exact .nil t
    | cons e es ih =>
        simp only [lowerExprs, yields_bind, yields_return] at h
        obtain ⟨x, t₁, hx, xs, t₂, hxs, rfl, rfl⟩ := h
        exact .cons hx (ih hxs)
  · intro h
    induction h with
    | nil t => exact ⟨rfl, rfl⟩
    | cons h _ ih =>
        simp only [lowerExprs, yields_bind, yields_return]
        exact ⟨_, _, h, _, _, ih, rfl, rfl⟩

variable {place : Place} {line : Nat} {e : TypedExpression}

theorem yields_boolOp {op : BoolOperator} {values : List Expr} :
    Yields (lowerExpr place (.boolOp line op values)) t e t' ↔
      ∃ op' before last, op.StandsFor op' ∧ before.length + 1 = values.length ∧
        InTurn values t (before ++ [last]) t' ∧ e = .nested op' before last := by
  simp only [lowerExpr, yields_bind, yields_lowerExprs, yields_connect,
    Expression.chain?_eq_some_iff]
  constructor
  · rintro ⟨_, _, hvalues, ⟨before, last, rfl, rfl⟩, rfl⟩
    exact ⟨connective op, before, last, connective_eq_iff.mp rfl,
      by simpa using hvalues.length_eq, hvalues, rfl⟩
  · rintro ⟨op', before, last, hop, -, hvalues, rfl⟩
    obtain rfl := connective_eq_iff.mpr hop
    exact ⟨_, _, hvalues, ⟨before, last, rfl, rfl⟩, rfl⟩

theorem yields_compare {left : Expr} {ops : List Comparison} {comparators : List Expr} :
    Yields (lowerExpr place (.compare line left ops comparators)) t e t' ↔
      ops.length = comparators.length ∧ ∃ ops' operands before last,
        List.Forall₂ Comparison.StandsFor ops ops' ∧
        InTurn (left :: comparators) t operands t' ∧
        Expression.Compares ops' operands (before ++ [last]) ∧ e = .nested .and before last := by
  simp only [lowerExpr]
  split
  · rename_i hlength
    simp [hlength]
  · rename_i hlength
    have hlength : ops.length = comparators.length := of_not_not hlength
    simp only [hlength, true_and, yields_bind, yields_lowerComparisons, yields_lowerExprs,
      yields_compareAll, Expression.chain?_eq_some_iff]
    constructor
    · rintro ⟨ops', _, ⟨hops, rfl⟩, first, t₁, hfirst, rest, t₂, hrest,
        ⟨before, last, hcomparisons, rfl⟩, rfl⟩
      have hoperands : (first :: rest).length = ops'.length + 1 := by
        simp [hrest.length_eq, ← hlength, hops.length_eq]
      exact ⟨ops', first :: rest, before, last, hops, .cons hfirst hrest,
        hcomparisons ▸ Expression.compares_comparisons hoperands, rfl⟩
    · rintro ⟨ops', _, before, last, hops, hoperands, hcompares, rfl⟩
      cases hoperands with
      | @cons _ _ _ t₁ _ first rest hfirst hrest =>
          have hoperands : (first :: rest).length = ops'.length + 1 := by
            simp [hrest.length_eq, ← hlength, hops.length_eq]
          exact ⟨ops', t, ⟨hops, rfl⟩, first, t₁, hfirst, rest, t', hrest,
            ⟨before, last, (Expression.compares_comparisons hoperands).unique hcompares, rfl⟩, rfl⟩

theorem lowerExpr_compare_unequal {left : Expr} {ops : List Comparison} {comparators : List Expr}
    (h : ops.length ≠ comparators.length) :
    (lowerExpr place (.compare line left ops comparators) t).result =
      .error ⟨.comparatorCount ops.length comparators.length, line⟩ := by
  simp only [lowerExpr, h, ↓reduceIte, ne_eq, not_false_eq_true]
  rfl

theorem lowerExpr_compare_nil (place : Place) (line : Nat) (left : Expr) (t : Table) :
    (∃ d, (lowerValue left t).result = .error d ∧
      (lowerExpr place (.compare line left [] []) t).result = .error d) ∨
    (lowerExpr place (.compare line left [] []) t).result = .error ⟨.noComparison, line⟩ := by
  have hlower : (lowerExpr place (.compare line left [] []) : Lowering TypedExpression) =
      lowerValue left >>= fun first => compareAll line [] [first] := rfl
  rw [hlower]
  rcases hleft : lowerValue left t with ⟨_ | _, _, _⟩
  · rw [bind_run_error hleft]
    exact .inl ⟨_, rfl, rfl⟩
  · rw [bind_run_ok hleft]
    exact .inr rfl

/--
A connective with operands is accepted if these are, and is then nested to the right
over what they are lowered to, in their order.  A chain of comparisons is accepted if
its operands and operators are, and is then the conjunction of the comparisons between
each operand and the next.  What has no operands or no operators, or not as many
operators as comparators, is a fault.
-/
theorem chains_fold_right (place : Place) (line : Nat) (t : Table) :
    (∀ op values e t', Yields (lowerExpr place (.boolOp line op values)) t e t' ↔
      ∃ op' before last, op.StandsFor op' ∧ before.length + 1 = values.length ∧
        InTurn values t (before ++ [last]) t' ∧ e = .nested op' before last) ∧
    (∀ op value e t', Yields (lowerExpr place (.boolOp line op [value])) t e t' ↔
      Yields (lowerValue value) t e t') ∧
    (∀ op, ∃ d, (lowerExpr place (.boolOp line op []) t).result = .error d ∧
      d.kind = .structural ∧ d.line = line) ∧
    (∀ left ops comparators e t',
      Yields (lowerExpr place (.compare line left ops comparators)) t e t' ↔
        ops.length = comparators.length ∧ ∃ ops' operands before last,
          List.Forall₂ Comparison.StandsFor ops ops' ∧
          InTurn (left :: comparators) t operands t' ∧
          Expression.Compares ops' operands (before ++ [last]) ∧
          (∀ i, i + 1 < ops.length → ∃ op op' left shared right,
            (before ++ [last])[i]? = some (.binary op left shared .boolean) ∧
            (before ++ [last])[i + 1]? = some (.binary op' shared right .boolean)) ∧
          e = .nested .and before last) ∧
    ∀ left ops comparators, ops = [] ∨ ops.length ≠ comparators.length →
      ∃ d, (lowerExpr place (.compare line left ops comparators) t).result = .error d ∧
        (d.kind = .structural ∧ d.line = line ∨ (lowerValue left t).result = .error d) := by
  refine ⟨fun _ _ _ _ => yields_boolOp, fun op value e t' => ?_,
    fun _ => ⟨⟨.tooFewOperands, line⟩, rfl, rfl, rfl⟩, fun left ops comparators e t' => ?_,
    fun left ops comparators h => ?_⟩
  · rw [yields_boolOp]
    constructor
    · rintro ⟨op', before, last, -, hlength, hvalues, rfl⟩
      obtain rfl : before = [] := by simpa using hlength
      cases hvalues with
      | cons h hs =>
          cases hs
          exact h
    · exact fun h => ⟨connective op, [], e, connective_eq_iff.mp rfl, rfl, .cons h (.nil t'), rfl⟩
  · rw [yields_compare]
    constructor
    · rintro ⟨hlength, ops', operands, before, last, hops, hoperands, hcompares, rfl⟩
      exact ⟨hlength, ops', operands, before, last, hops, hoperands, hcompares,
        fun i hi => hcompares.shared i (hops.length_eq ▸ hi), rfl⟩
    · rintro ⟨hlength, ops', operands, before, last, hops, hoperands, hcompares, -, rfl⟩
      exact ⟨hlength, ops', operands, before, last, hops, hoperands, hcompares, rfl⟩
  · by_cases hlength : ops.length = comparators.length
    · obtain rfl : ops = [] := h.resolve_right (not_not.mpr hlength)
      obtain rfl : comparators = [] := List.length_eq_zero_iff.mp hlength.symm
      rcases lowerExpr_compare_nil place line left t with ⟨d, hleft, hresult⟩ | hresult
      · exact ⟨d, hresult, .inr hleft⟩
      · exact ⟨_, hresult, .inl ⟨rfl, rfl⟩⟩
    · exact ⟨_, lowerExpr_compare_unequal hlength, .inl ⟨rfl, rfl⟩⟩

theorem chains_fold_right_between :
    let t := (Table.empty .empty).withVariable "b" (some .int) none
    let b : TypedExpression := .read ⟨0⟩ .int
    Yields (lowerExpr .operand (.compare 1 (.constant 1 (.int 1)) [.lt, .le]
      [.name 1 "b" .load, .constant 1 (.int 3)])) t
      (.binary .and (.binary .smaller (.int 1) b .boolean)
        (.binary .smallerEq b (.int 3) .boolean) .boolean) t ∧
    ∃ d, (lowerExpr .operand (.compare 1 (.name 1 "c" .load) [] []) t).result = .error d ∧
      (d.kind = .structural ∧ d.line = 1 ∨
        (lowerValue (.name 1 "c" .load) t).result = .error d) := by
  intro t b
  obtain ⟨-, -, -, hcompare, hfault⟩ := chains_fold_right .operand 1 t
  have hcompares : Expression.Compares [.smaller, .smallerEq] [.int 1, b, .int 3]
      ([.binary .smaller (.int 1) b .boolean] ++ [.binary .smallerEq b (.int 3) .boolean]) :=
    Expression.compares_comparisons rfl
  refine ⟨(hcompare ..).mpr ⟨rfl, _, _, _, _, ?_, ?_, hcompares, hcompares.shared, rfl⟩,
    hfault _ _ _ (.inl rfl)⟩
  · exact .cons .lt (.cons .le .nil)
  · exact .cons ⟨rfl, rfl⟩ (.cons ⟨rfl, rfl⟩ (.cons ⟨rfl, rfl⟩ (.nil t)))

end Lowering

end TypedPseudocode
