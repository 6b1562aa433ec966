import Mathlib.Data.List.Basic
import TypedPseudocode.Proofs.Parts

/-!
Views of code.

A view shows something of some statements and of some expressions: which
variable is referred to, which procedure is called, what is told of a type.  All
views considered here agree on one point: putting expressions together, or using
an expression as a statement, shows nothing new.  What a view shows of a piece of
code therefore changes only where new reads, calls and assignments are made.
-/

namespace TypedPseudocode.Code

variable {β : Type}

/-- Reads, calls and `append` say something of their own; all other expressions do not. -/
def Expression.isComposite : TypedExpression → Bool
  | .read .. | .call .. => false
  | .callBuiltin name _ _ => name ≠ "append"
  | _ => true

def Statement.isComposite : TypedStatement → Bool
  | .assign .. | .assignElement .. | .call .. | .callBuiltin .. => false
  | _ => true

def Expression.callSite? : TypedExpression → Option (ProcId × List Ty)
  | .call p arguments _ => some (p, arguments.map (·.ty))
  | _ => none

def Statement.callSite? : TypedStatement → Option (ProcId × List Ty)
  | .call p arguments => some (p, arguments.map (·.ty))
  | _ => none

structure View (β : Type) where
  statement : TypedStatement → Option β
  expression : TypedExpression → Option β
  ofComposite : ∀ e : TypedExpression, e.isComposite → expression e = none
  ofCompositeStatement : ∀ s : TypedStatement, s.isComposite → statement s = none
  /-- A call shows the same as a statement. -/
  ofCall : ∀ p arguments ty, statement (.call p arguments) = expression (.call p arguments ty)
  ofAppend : ∀ arguments ty, statement (.callBuiltin "append" arguments) =
    expression (.callBuiltin "append" arguments ty)

namespace View

variable (w : View β)

def operands (es : List TypedExpression) : List β := Expression.gather w.expression es

def code (ss : List TypedStatement) : List β :=
  (Statement.partsAll ss).flatMap fun s => (w.statement s).toList ++ w.operands s.operands

@[simp] theorem operands_nil : w.operands [] = [] := rfl

@[simp] theorem operands_append (es fs : List TypedExpression) :
    w.operands (es ++ fs) = w.operands es ++ w.operands fs :=
  Expression.gather_append w.expression es fs

theorem operands_cons (e : TypedExpression) (es : List TypedExpression) :
    w.operands (e :: es) = (w.expression e).toList ++ w.operands e.inner ++ w.operands es :=
  Expression.gather_cons w.expression e es

theorem operands_split (e : TypedExpression) (es : List TypedExpression) :
    w.operands (e :: es) = w.operands [e] ++ w.operands es := by
  rw [← operands_append, List.singleton_append]

@[simp] theorem operands_pair (e f : TypedExpression) :
    w.operands [e, f] = w.operands [e] ++ w.operands [f] :=
  operands_split w e [f]

@[simp] theorem code_nil : w.code [] = [] := rfl

@[simp] theorem code_append (ss rs : List TypedStatement) :
    w.code (ss ++ rs) = w.code ss ++ w.code rs := by
  simp [code]

theorem code_cons (s : TypedStatement) (ss : List TypedStatement) :
    w.code (s :: ss) =
      ((w.statement s).toList ++ w.operands s.operands) ++ w.code s.inner ++ w.code ss := by
  simp [code, Statement.partsAll_cons]

theorem operands_composite {e : TypedExpression} (h : e.isComposite) :
    w.operands [e] = w.operands e.inner := by
  rw [operands_cons, w.ofComposite e h]
  simp

theorem code_composite {s : TypedStatement} (h : s.isComposite) :
    w.code [s] = w.operands s.operands ++ w.code s.inner := by
  rw [code_cons, w.ofCompositeStatement s h]
  simp

theorem operands_subset_code {s : TypedStatement} {ss : List TypedStatement} (hs : s ∈ ss)
    {e : TypedExpression} (he : e ∈ s.operands) : w.operands [e] ⊆ w.code ss := by
  intro x hx
  obtain ⟨before, after, rfl⟩ := List.append_of_mem hs
  obtain ⟨left, right, hoperands⟩ := List.append_of_mem he
  rw [code_append, code_cons, hoperands, operands_append, operands_split w e right]
  simp [hx]

/-! ## Chains -/

theorem operands_chain {op : BinOp} {es : List TypedExpression} {e : TypedExpression}
    (h : Expression.chain? op es = some e) : w.operands [e] = w.operands es := by
  induction es generalizing e with
  | nil => cases h
  | cons first rest ih =>
      cases rest with
      | nil =>
          obtain rfl := Option.some.inj h
          rfl
      | cons second rest =>
          obtain ⟨chained, hchained, rfl⟩ := Option.map_eq_some_iff.mp h
          rw [w.operands_composite rfl, operands_split w first (second :: rest), ← ih hchained]
          exact operands_pair w first chained

theorem mem_operands_comparisons {ops : List BinOp} {es : List TypedExpression}
    (hlength : ops.length + 1 = es.length) (hops : ops ≠ []) (x : β) :
    x ∈ w.operands (Expression.comparisons ops es) ↔ x ∈ w.operands es := by
  induction ops generalizing es with
  | nil => exact absurd rfl hops
  | cons op ops ih =>
      match es, hlength with
      | left :: right :: rest, hlength =>
          have hcompare : w.operands [.binary op left right .boolean] =
              w.operands [left] ++ w.operands [right] := by
            rw [w.operands_composite rfl]
            exact operands_pair w left right
          rw [Expression.comparisons, operands_split, hcompare,
            operands_split w left (right :: rest), operands_split w right rest]
          cases ops with
          | nil =>
              have hrest : rest = [] := by
                simpa using hlength
              simp [hrest, Expression.comparisons]
          | cons op' ops' =>
              have hlength' : (op' :: ops').length + 1 = (right :: rest).length := by
                simpa using hlength
              have hinner := ih hlength' (List.cons_ne_nil op' ops')
              rw [operands_split w right rest] at hinner
              simp only [List.mem_append] at hinner ⊢
              grind

/-! ## The views that are used -/

def references : View VarId where
  statement := Statement.array?
  expression := Expression.target?
  ofComposite e h := by cases e <;> first | rfl | cases h
  ofCompositeStatement s h := by cases s <;> first | rfl | cases h
  ofCall _ _ _ := rfl
  ofAppend _ _ := rfl

def assignments : View VarId where
  statement := Statement.assigned?
  expression _ := none
  ofComposite _ _ := rfl
  ofCompositeStatement s h := by cases s <;> first | rfl | cases h
  ofCall _ _ _ := rfl
  ofAppend _ _ := rfl

def calls : View ProcId where
  statement := Statement.callee?
  expression := Expression.callee?
  ofComposite e h := by cases e <;> first | rfl | cases h
  ofCompositeStatement s h := by cases s <;> first | rfl | cases h
  ofCall _ _ _ := rfl
  ofAppend _ _ := rfl

def callSites : View (ProcId × List Ty) where
  statement := Statement.callSite?
  expression := Expression.callSite?
  ofComposite e h := by cases e <;> first | rfl | cases h
  ofCompositeStatement s h := by cases s <;> first | rfl | cases h
  ofCall _ _ _ := rfl
  ofAppend _ _ := rfl

def types : View (VarId × Ty) where
  statement := Statement.told?
  expression := Expression.appended?
  ofComposite e h := by
    unfold Expression.appended?
    split
    · cases h
    · rfl
  ofCompositeStatement s h := by cases s <;> first | rfl | cases h
  ofCall _ _ _ := rfl
  ofAppend arguments ty := by
    match arguments with
    | [] => rfl
    | [target] | [target, _] | target :: _ :: _ :: _ => cases target <;> rfl

theorem code_references (ss : List TypedStatement) : references.code ss = referenced ss := rfl

theorem code_types (ss : List TypedStatement) : types.code ss = told ss := rfl

theorem code_assignments (ss : List TypedStatement) : assignments.code ss = assigned ss := by
  have hnothing (es : List TypedExpression) : assignments.operands es = [] :=
    List.filterMap_none (Expression.partsAll es)
  simp only [code, hnothing, List.append_nil, assigned]
  exact (List.filterMap_eq_flatMap_toList _ _).symm

theorem operands_calls (es : List TypedExpression) :
    calls.operands es = Expression.callsAll es :=
  (Expression.callsAll_eq_gather es).symm

mutual

theorem code_calls_singleton (s : TypedStatement) : calls.code [s] = s.calls := by
  have hcalls : s.calls = s.callee?.toList ++ Expression.callsAll s.operands ++
      Statement.callsAll s.inner := by
    simpa [Statement.callsAll] using Statement.callsAll_cons s []
  have hinner : calls.code s.inner = Statement.callsAll s.inner := by
    cases s with
    | selection guard body alternative =>
        rw [Statement.inner, code_append, Statement.callsAll_append, code_calls body,
          code_calls alternative]
    | loop guard body => exact code_calls body
    | _ => rfl
  rw [code_cons, operands_calls, hinner, hcalls, code_nil, List.append_nil]
  rfl

theorem code_calls (ss : List TypedStatement) : calls.code ss = Statement.callsAll ss := by
  cases ss with
  | nil => rfl
  | cons s ss =>
      rw [← List.singleton_append, code_append, code_calls_singleton s, code_calls ss]
      rfl

end

end View

end TypedPseudocode.Code
