import TypedPseudocode.Proofs.Progress
import TypedPseudocode.Proofs.Regions

/-!
Every successful lowering is a run.

Each construct of the source is followed through the steps that it takes, from
any state in which it may be met.  Along with the run goes what the source says
of it: the types that it states, and the regions whose bodies are completed.
-/

namespace TypedPseudocode.Lowering

open Code TypedPseudocode.Tree

namespace State

def on (s : State) (t : Table) : State := { s with table := t }

def push (s : State) (operands : List TypedExpression) : State :=
  { s with frame := { s.frame with operands := s.frame.operands ++ operands } }

def emit (s : State) (code : List TypedStatement) : State :=
  { s with
    frame := { s.frame with
      block := ⟨s.frame.block.statements ++ code, s.frame.block.returns⟩ } }

def hint (s : State) (hints : List Hint) : State :=
  { s with frame := { s.frame with hints := s.frame.hints ++ hints } }

@[simp] theorem emit_nil (s : State) : s.emit [] = s := by
  simp [emit]

@[simp] theorem push_nil (s : State) : s.push [] = s := by
  simp [push]

theorem emit_emit (s : State) (code more : List TypedStatement) :
    (s.emit code).emit more = s.emit (code ++ more) := by
  simp [emit]

end State

variable {t t' : Table}

theorem Evals.push {operands : List TypedExpression} {s : State}
    (h : Evals t s.frame.operands t' (s.frame.operands ++ operands)) :
    Runs (s.on t) ((s.on t').push operands) :=
  h.runs rfl rfl

theorem runs_lowerValue {e : Expr} {x : TypedExpression}
    (h : Yields (lowerValue e) t x t') (s : State) : Runs (s.on t) ((s.on t').push [x]) :=
  (evals_lowerExpr e h s.frame.operands).push

/-! ## Assignments -/

theorem binds_bindName {line : Nat} {name : String} {ty : Ty} {v : VarId}
    {declaration : List TypedStatement}
    (h : Yields (bindName line name ty) t (v, declaration) t') :
    Binds t name ty v declaration t' := by
  simp only [bindName, yields_bind, yields_lookupVariable] at h
  obtain ⟨found, t₁, ⟨hfound, rfl⟩, h⟩ := h
  cases found with
  | some w =>
      simp only [yields_bind, yields_constrainVariable, yields_return, Prod.mk.injEq] at h
      obtain ⟨unified, t₂, ⟨hty, rfl⟩, ⟨rfl, rfl⟩, rfl⟩ := h
      exact .known hfound hty
  | none =>
      simp only [yields_bind, yields_declareVariable, yields_return, Prod.mk.injEq] at h
      obtain ⟨w, t₂, ⟨rfl, rfl⟩, ⟨rfl, rfl⟩, rfl⟩ := h
      exact .fresh hfound

theorem runs_assignTo {value : TypedExpression} {target : Expr} {code : List TypedStatement}
    (h : Yields (assignTo value target) t code t') (s : State) :
    Runs ((s.on t).push [value]) ((s.on t').emit code) := by
  cases target with
  | name line id ctx =>
      simp only [assignTo, yields_bind, yields_return] at h
      obtain ⟨⟨v, declaration⟩, t₁, hbind, rfl, rfl⟩ := h
      exact .single (.assign rfl (binds_bindName hbind))
  | subscript line base slice ctx =>
      simp only [assignTo, yields_bind, yields_constrainVariable, yields_return] at h
      obtain ⟨v, t₁, hv, index, t₂, hindex, unified, t₃, ⟨hty, rfl⟩, rfl, rfl⟩ := h
      obtain ⟨rfl, name, hname⟩ := resolveArray_yields hv
      have hrun := evals_lowerExpr slice hindex (s.frame.operands ++ [value])
      rw [← hrun.lookup_eq] at hname
      rw [List.append_assoc] at hrun
      exact (Evals.runs hrun rfl rfl).tail (.assignElement rfl hname hty)
  | _ => exact absurd h yields_fail

theorem assignTo_operands {value : TypedExpression} {target : Expr}
    {code : List TypedStatement} (h : Yields (assignTo value target) t code t') :
    ∃ assignment ∈ code, value ∈ assignment.operands := by
  cases target with
  | name line id ctx =>
      simp only [assignTo, yields_bind, yields_return] at h
      obtain ⟨⟨v, declaration⟩, t₁, hbind, rfl, rfl⟩ := h
      exact ⟨.assign v value, by simp, by simp [Statement.operands]⟩
  | subscript line base slice ctx =>
      simp only [assignTo, yields_bind, yields_constrainVariable, yields_return] at h
      obtain ⟨v, t₁, hv, index, t₂, hindex, unified, t₃, ⟨hty, rfl⟩, rfl, rfl⟩ := h
      exact ⟨.assignElement v [index] value, by simp, by simp [Statement.operands]⟩
  | _ => exact absurd h yields_fail

theorem elementsFor_yields {line count : Nat} {value : Expr} {values : List Expr}
    (h : Yields (elementsFor line count value) t values t') :
    t' = t ∧ value.elements? = some values ∧ count = values.length := by
  unfold elementsFor at h
  split at h
  · exact absurd h yields_refuse
  · rename_i vs hvs
    split at h
    · rename_i hlength
      obtain ⟨rfl, rfl⟩ := yields_pure.mp h
      exact ⟨rfl, hvs, hlength⟩
    · exact absurd h yields_fail

mutual

theorem runs_unpack (target : Expr) {value : Expr} {t t' : Table} {code : List TypedStatement}
    (h : Yields (unpack target value) t code t') (s : State) :
    Runs (s.on t) ((s.on t').emit code) := by
  cases target with
  | list line targets ctx =>
      simp only [unpack, yields_bind] at h
      obtain ⟨values, t₁, hvalues, h⟩ := h
      obtain ⟨rfl, -⟩ := elementsFor_yields hvalues
      exact runs_unpackEach targets h s
  | tuple line targets ctx =>
      simp only [unpack, yields_bind] at h
      obtain ⟨values, t₁, hvalues, h⟩ := h
      obtain ⟨rfl, -⟩ := elementsFor_yields hvalues
      exact runs_unpackEach targets h s
  | _ =>
      simp only [unpack, yields_bind] at h
      obtain ⟨x, t₁, hx, h⟩ := h
      exact (runs_lowerValue hx s).trans (runs_assignTo h s)

theorem runs_unpackEach (targets : List Expr) {values : List Expr} {t t' : Table}
    {code : List TypedStatement} (h : Yields (unpackEach targets values) t code t')
    (s : State) : Runs (s.on t) ((s.on t').emit code) := by
  cases targets with
  | nil =>
      obtain ⟨rfl, rfl⟩ := yields_pure.mp (by simpa only [unpackEach] using h)
      simpa using .refl
  | cons target targets =>
      cases values with
      | nil =>
          obtain ⟨rfl, rfl⟩ := yields_pure.mp (by simpa only [unpackEach] using h)
          simpa using .refl
      | cons value values =>
          simp only [unpackEach, yields_bind, yields_return] at h
          obtain ⟨first, t₁, hfirst, rest, t₂, hrest, rfl, rfl⟩ := h
          have hrun := runs_unpackEach targets hrest (s.emit first)
          rw [show (s.emit first).on t₂ = (s.on t₂).emit first from rfl,
            State.emit_emit] at hrun
          exact (runs_unpack target hfirst s).trans hrun

end

theorem Runs.emit {s : State} {t₁ t₂ : Table} {code more : List TypedStatement}
    (h : Runs (s.on t) ((s.on t₁).emit code))
    (h' : Runs ((s.emit code).on t₁) (((s.emit code).on t₂).emit more)) :
    Runs (s.on t) ((s.on t₂).emit (code ++ more)) := by
  rw [← State.emit_emit]
  exact h.trans h'

theorem runs_assignAll {value : Expr} {targets : List Expr}
    {lowered : Option TypedExpression} {code : List TypedStatement}
    (h : Yields (assignAll value targets lowered) t code t') (s : State)
    (hlowered : ∀ e, lowered = some e →
      ∃ assignment ∈ s.frame.block.statements, e ∈ assignment.operands) :
    Runs (s.on t) ((s.on t').emit code) := by
  induction targets generalizing t lowered code s with
  | nil =>
      obtain ⟨rfl, rfl⟩ := yields_pure.mp h
      simpa using .refl
  | cons target targets ih =>
      simp only [assignAll] at h
      split at h
      · simp only [yields_bind, yields_return] at h
        obtain ⟨first, t₁, hfirst, rest, t₂, hrest, rfl, rfl⟩ := h
        refine (runs_unpack target hfirst s).emit (ih hrest (s.emit first) ?_)
        intro e he
        obtain ⟨assignment, hmem, huses⟩ := hlowered e he
        exact ⟨assignment, List.mem_append_left first hmem, huses⟩
      · obtain ⟨e, t₁, hvalue, h⟩ : ∃ e t₁, Runs (s.on t) ((s.on t₁).push [e]) ∧
            Yields (do
              let first ← assignTo e target
              let rest ← assignAll value targets (some e)
              return first ++ rest) t₁ code t' := by
          cases lowered with
          | some e =>
              obtain ⟨x, t₁, hx, h⟩ := yields_bind.mp h
              obtain ⟨rfl, rfl⟩ := yields_pure.mp hx
              exact ⟨e, t, .single (.again (hlowered e rfl)), h⟩
          | none =>
              obtain ⟨e, t₁, he, h⟩ := yields_bind.mp h
              exact ⟨e, t₁, runs_lowerValue he s, h⟩
        simp only [yields_bind, yields_return] at h
        obtain ⟨first, t₂, hfirst, rest, t₃, hrest, rfl, rfl⟩ := h
        refine Runs.emit (hvalue.trans (runs_assignTo hfirst s)) (ih hrest (s.emit first) ?_)
        intro x hx
        obtain rfl := Option.some.inj hx
        obtain ⟨assignment, hmem, huses⟩ := assignTo_operands hfirst
        exact ⟨assignment, List.mem_append_right _ hmem, huses⟩

theorem runs_augment {op : Operator} {value target : Expr} {code : List TypedStatement}
    (h : Yields (augment op value target) t code t') (s : State) :
    Runs (s.on t) ((s.on t').emit code) := by
  simp only [augment, yields_bind] at h
  obtain ⟨op', t₀, hop, h⟩ := h
  obtain ⟨-, rfl⟩ := yields_lowerOperator.mp hop
  cases target with
  | name line id ctx =>
      simp only [yields_bind, yields_lookupVariable] at h
      obtain ⟨found, t₂, ⟨hfound, rfl⟩, h⟩ := h
      cases found with
      | none => exact absurd h yields_fail
      | some v =>
          simp only [yields_bind, yields_readVariable, yields_constrainVariable,
            yields_return] at h
          obtain ⟨_, t₂, ⟨rfl, rfl⟩, x, t₃, hx, unified, t₄, ⟨hty, rfl⟩, rfl, rfl⟩ := h
          have hscope : t.scope.get? id = some (.variable v) := hfound
          have hread : Evals t s.frame.operands t _ :=
            (Eval.read (Table.lookup_enclosing_of_innermost hscope)).once
          have hvalue := evals_lowerExpr value hx (s.frame.operands ++ [.read v (t.tyOf v)])
          rw [← hvalue.scopes_eq.1] at hscope
          rw [List.append_assoc] at hvalue
          have hall := (hread.trans hvalue).tail (.compose (.binary op' _ x))
          have hrun := hall.runs (s := s.on t) rfl rfl
          exact hrun.tail (.assign rfl (.known hscope hty))
  | subscript line base slice ctx =>
      simp only [yields_bind, yields_readVariable, yields_constrainVariable,
        yields_return] at h
      obtain ⟨v, t₁, hv, index, t₂, hindex, x, t₃, hx, _, t₄, ⟨rfl, rfl⟩, unified, t₅,
        ⟨hty, rfl⟩, rfl, rfl⟩ := h
      obtain ⟨rfl, name, hname⟩ := resolveArray_yields hv
      have hfirst := evals_lowerExpr slice hindex s.frame.operands
      have hsecond := evals_lowerExpr value hx (s.frame.operands ++ [index])
      rw [← hfirst.lookup_eq, ← hsecond.lookup_eq] at hname
      rw [List.append_assoc] at hsecond
      have hrun := (hfirst.trans hsecond).runs (s := s.on t₁) rfl rfl
      exact hrun.tail (.augmentElement rfl hname hty)
  | _ => exact absurd h yields_fail

/-- A type hint is told of the variable before the value is lowered. -/
theorem runs_assignHinted {target typeHint : Expr} {value : Option Expr}
    {code : List TypedStatement} (h : Yields (assignHinted target typeHint value) t code t')
    (line : Nat) (s : State) :
    ∃ hints, Runs (s.on t) (((s.on t').emit code).hint hints) ∧
      hints.map (fun hint => (hint.name, hint.ty)) =
        (Stmt.annAssign line target typeHint value).hints := by
  simp only [assignHinted, yields_bind, yields_ofExcept] at h
  obtain ⟨ty, t₁, ⟨hty, rfl⟩, h⟩ := h
  cases target with
  | name targetLine id ctx =>
      rw [yields_bind] at h
      obtain ⟨⟨v, declaration⟩, t₁, hbind, h⟩ := h
      have hbinds := binds_bindName hbind
      refine ⟨[⟨id, ty, v⟩], ?_, by simp [Stmt.hints, Expr.identifier?, hty]⟩
      have hhint : Runs (s.on t) (((s.on t₁).emit declaration).hint [⟨id, ty, v⟩]) :=
        .single (.hint hbinds)
      cases value with
      | none =>
          obtain ⟨rfl, rfl⟩ := yields_return.mp h
          exact hhint
      | some value =>
          simp only [yields_bind, yields_constrainVariable, yields_return] at h
          obtain ⟨x, t₂, hx, unified, t₃, ⟨hunify, rfl⟩, rfl, rfl⟩ := h
          have hvalue := evals_lowerExpr value hx s.frame.operands
          have hscope := hbinds.get?
          rw [← hvalue.scopes_eq.1] at hscope
          have hrun := hvalue.runs
            (s := ((s.on t₁).emit declaration).hint [⟨id, ty, v⟩]) rfl rfl
          rw [← State.emit_emit]
          exact hhint.trans (hrun.tail (.assign rfl (.known hscope hunify)))
  | _ => exact absurd h yields_refuse

/-! ## Calls as statements -/

theorem Uses.run {operands : List TypedExpression} {statement : TypedStatement} {s : State}
    (h : Uses operands statement .unknown) : Runs (s.push operands) (s.emit [statement]) :=
  .single (.use rfl h (Ty.unify_unknown_right _))

theorem runs_standAlone {line : Nat} {e : TypedExpression} {code : List TypedStatement}
    (h : Yields (standAlone line e) t code t') (s : State) :
    Runs ((s.on t).push [e]) ((s.on t').emit code) := by
  unfold standAlone at h
  split at h
  · rename_i p arguments ty
    obtain ⟨rfl, rfl⟩ := yields_pure.mp h
    exact (Uses.call p arguments ty).run
  · rename_i name arguments ty
    split at h
    · rename_i hname
      obtain ⟨rfl, rfl⟩ := yields_pure.mp h
      subst hname
      exact (Uses.append arguments ty).run
    · exact absurd h yields_refuse
  · exact absurd h yields_refuse

theorem runs_lowerStandAlone {line : Nat} {e : Expr} {code : List TypedStatement}
    (h : Yields (lowerStandAlone line e) t code t') (s : State) :
    Runs (s.on t) ((s.on t').emit code) := by
  unfold lowerStandAlone at h
  split at h
  · obtain ⟨rfl, rfl⟩ := yields_pure.mp h
    simpa using .refl
  · obtain ⟨rfl, rfl⟩ := yields_pure.mp h
    simpa using .refl
  · rw [yields_bind] at h
    obtain ⟨dropped, t₁, hdropped, h⟩ := h
    obtain ⟨-, rfl⟩ := yields_gets.mp hdropped
    cases dropped with
    | some name =>
        simp only [yields_bind, yields_tell, yields_return] at h
        obtain ⟨_, t₁, rfl, rfl, rfl⟩ := h
        simpa using .refl
    | none =>
        obtain ⟨x, t₁, hx, h⟩ := yields_bind.mp h
        exact (runs_lowerValue hx s).trans (runs_standAlone h s)
  · obtain ⟨x, t₁, hx, h⟩ := yields_bind.mp h
    exact (runs_lowerValue hx s).trans (runs_standAlone h s)

theorem runs_lowerOther {line : Nat} {kind : OtherStmt} {code : List TypedStatement}
    (h : Yields (lowerOther line kind) t code t') (s : State) :
    Runs (s.on t) ((s.on t').emit code) := by
  unfold lowerOther at h
  split at h
  · obtain ⟨rfl, rfl⟩ := yields_pure.mp h
    simpa using Uses.breakLoop.run (s := s.on t)
  · obtain ⟨rfl, rfl⟩ := yields_pure.mp h
    simpa using Uses.continueLoop.run (s := s.on t)
  · split at h
    · simp only [yields_bind, yields_tell, yields_return] at h
      obtain ⟨_, t₁, rfl, rfl, rfl⟩ := h
      simpa using .refl
    · exact absurd h yields_refuse

end TypedPseudocode.Lowering
