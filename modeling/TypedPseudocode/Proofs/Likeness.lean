import Mathlib.Data.List.Basic
import TypedPseudocode.Lowering.Statement
import TypedPseudocode.Proofs.Parts

/-!
Likeness: code that is the same, or the same but for its types.

Two runs may yield code that is equal, or code in which all but the types is equal.
One parameter tells which of the two is meant, so that what is built from like parts
is shown to be alike once for both.
-/

namespace TypedPseudocode

open Code

/-! ## What is seen of code -/

/-- All of a type, or nothing of it. -/
def Ty.seen (typed : Bool) (ty : Ty) : Option Ty := if typed then some ty else none

namespace Code

variable (typed : Bool)

def Expression.seen (e : TypedExpression) : Expression VarId ProcId (Option Ty) :=
  e.map id id (Ty.seen typed)

def Statement.seen (s : TypedStatement) : Statement VarId VarId ProcId (Option Ty) :=
  s.map id id id (Ty.seen typed)

namespace Expression

variable (v : VarId) (p : ProcId) (name : String) (ty : Ty) (e f : TypedExpression)
  (es : List TypedExpression)

@[simp] theorem seen_read : seen typed (read v ty) = read v (ty.seen typed) := rfl

@[simp] theorem seen_call :
    seen typed (call p es ty) = call p (es.map (seen typed)) (ty.seen typed) :=
  congrArg (call p · _) (mapAll_eq_map id id _ es)

@[simp] theorem seen_callBuiltin :
    seen typed (callBuiltin name es ty) =
      callBuiltin name (es.map (seen typed)) (ty.seen typed) :=
  congrArg (callBuiltin name · _) (mapAll_eq_map id id _ es)

@[simp] theorem seen_arrayLength :
    seen typed (arrayLength e) = arrayLength (e.seen typed) := rfl

@[simp] theorem seen_arrayElement :
    seen typed (arrayElement e f ty) =
      arrayElement (e.seen typed) (f.seen typed) (ty.seen typed) := rfl

@[simp] theorem seen_aggregate :
    seen typed (aggregate es ty) = aggregate (es.map (seen typed)) (ty.seen typed) :=
  congrArg (aggregate · _) (mapAll_eq_map id id _ es)

@[simp] theorem seen_binary (op : BinOp) :
    seen typed (binary op e f ty) =
      binary op (e.seen typed) (f.seen typed) (ty.seen typed) := rfl

@[simp] theorem seen_unary (op : UnOp) :
    seen typed (unary op e ty) = unary op (e.seen typed) (ty.seen typed) := rfl

end Expression

namespace Statement

variable (v : VarId) (p : ProcId) (name : String) (e : TypedExpression)
  (es : List TypedExpression) (ss rs : List TypedStatement)

@[simp] theorem seen_call :
    seen typed (call p es) = call p (es.map (Expression.seen typed)) :=
  congrArg (call p) (Expression.mapAll_eq_map id id _ es)

@[simp] theorem seen_callBuiltin :
    seen typed (callBuiltin name es) = callBuiltin name (es.map (Expression.seen typed)) :=
  congrArg (callBuiltin name) (Expression.mapAll_eq_map id id _ es)

@[simp] theorem seen_ret (value : Option TypedExpression) :
    seen typed (ret value) = ret (value.map (Expression.seen typed)) := rfl

@[simp] theorem seen_assign : seen typed (assign v e) = assign v (e.seen typed) := rfl

@[simp] theorem seen_assignElement :
    seen typed (assignElement v es e) =
      assignElement v (es.map (Expression.seen typed)) (e.seen typed) :=
  congrArg (assignElement v · _) (Expression.mapAll_eq_map id id _ es)

@[simp] theorem seen_selection :
    seen typed (selection e ss rs) =
      selection (e.seen typed) (ss.map (seen typed)) (rs.map (seen typed)) := by
  simp only [seen, map, mapAll_eq_map]
  rfl

@[simp] theorem seen_loop :
    seen typed (loop e ss) = loop (e.seen typed) (ss.map (seen typed)) := by
  simp only [seen, map, mapAll_eq_map]
  rfl

end Statement

theorem Expression.seen_true_injective : (seen true).Injective := by
  refine Function.LeftInverse.injective (g := map id id fun ty => ty.getD .unknown) fun e => ?_
  rw [seen, map_map]
  exact e.map_id

theorem Statement.seen_true_injective : (seen true).Injective := by
  refine Function.LeftInverse.injective (g := map id id id fun ty => ty.getD .unknown) fun s => ?_
  rw [seen, map_map]
  exact s.map_id

end Code

namespace Lowering

/-! ## Types and expressions -/

variable {typed : Bool}

def SameTy (typed : Bool) (ty ty' : Ty) : Prop := typed = true → ty = ty'

def SameExpr (typed : Bool) (e e' : TypedExpression) : Prop := e.seen typed = e'.seen typed

def SameExprs (typed : Bool) (es es' : List TypedExpression) : Prop :=
  es.map (Expression.seen typed) = es'.map (Expression.seen typed)

namespace SameTy

variable {ty ty' other other' : Ty}

theorem refl (ty : Ty) : SameTy typed ty ty := fun _ => rfl

theorem map (h : SameTy typed ty ty') (f : Ty → Ty) : SameTy typed (f ty) (f ty') :=
  fun htyped => congrArg f (h htyped)

theorem map₂ (h : SameTy typed ty ty') (h' : SameTy typed other other') (f : Ty → Ty → Ty) :
    SameTy typed (f ty other) (f ty' other') :=
  fun htyped => congrArg₂ f (h htyped) (h' htyped)

theorem seen_eq (h : SameTy typed ty ty') : ty.seen typed = ty'.seen typed := by
  cases typed with
  | false => rfl
  | true => rw [h rfl]

end SameTy

theorem SameExpr.ty {e e' : TypedExpression} (h : SameExpr typed e e') :
    SameTy typed e.ty e'.ty := by
  rintro rfl
  rw [Expression.seen_true_injective h]

namespace SameExprs

variable {es es' : List TypedExpression}

theorem cons {e e' : TypedExpression} (h : SameExpr typed e e') (hrest : SameExprs typed es es') :
    SameExprs typed (e :: es) (e' :: es') := by
  rw [SameExprs, List.map_cons, List.map_cons, h, hrest]

theorem eq_nil (h : SameExprs typed [] es') : es' = [] := List.map_eq_nil_iff.mp h.symm

theorem eq_cons {e : TypedExpression} (h : SameExprs typed (e :: es) es') :
    ∃ e' rest', es' = e' :: rest' ∧ SameExpr typed e e' ∧ SameExprs typed es rest' := by
  obtain ⟨e', rest', rfl, he, hrest⟩ := List.map_eq_cons_iff.mp h.symm
  exact ⟨e', rest', rfl, he.symm, hrest.symm⟩

theorem tys (h : SameExprs typed es es') (htyped : typed = true) :
    es.map (·.ty) = es'.map (·.ty) := by
  subst htyped
  rw [List.map_injective_iff.mpr Expression.seen_true_injective h]

theorem chain? (op : BinOp) (h : SameExprs typed es es') :
    (Expression.chain? op es).map (Expression.seen typed) =
      (Expression.chain? op es').map (Expression.seen typed) := by
  induction es generalizing es' with
  | nil => rw [h.eq_nil]
  | cons e es ih =>
      obtain ⟨e', es', rfl, he, hes⟩ := h.eq_cons
      have hrest := ih hes
      cases es with
      | nil =>
          rw [hes.eq_nil]
          exact congrArg some he
      | cons f es =>
          obtain ⟨f', es', rfl, -, -⟩ := hes.eq_cons
          have hcons (e f : TypedExpression) (es : List TypedExpression) :
              (Expression.chain? op (e :: f :: es)).map (Expression.seen typed) =
                ((Expression.chain? op (f :: es)).map (Expression.seen typed)).map fun rest =>
                  .binary op (e.seen typed) rest (Ty.boolean.seen typed) := by
            rw [Option.map_map]
            exact Option.map_map _ _ _
          rw [hcons, hcons, hrest, he]

theorem comparisons (ops : List BinOp) (h : SameExprs typed es es') :
    SameExprs typed (Expression.comparisons ops es) (Expression.comparisons ops es') := by
  induction ops generalizing es es' with
  | nil => rfl
  | cons op ops ih =>
      rcases es with _ | ⟨e, _ | ⟨f, es⟩⟩
      · rw [h.eq_nil]
        rfl
      · obtain ⟨e', es', rfl, -, hes⟩ := h.eq_cons
        rw [hes.eq_nil]
        rfl
      · obtain ⟨e', _, rfl, he, hrest⟩ := h.eq_cons
        obtain ⟨f', es', rfl, hf, -⟩ := hrest.eq_cons
        refine .cons ?_ (ih hrest)
        rw [SameExpr] at he hf ⊢
        simp [he, hf]

end SameExprs

theorem same_of_map_seen {found found' : Option TypedExpression}
    (h : found.map (Expression.seen typed) = found'.map (Expression.seen typed)) :
    (found = none ∧ found' = none) ∨
      ∃ e e', found = some e ∧ found' = some e' ∧ SameExpr typed e e' := by
  cases found with
  | none => exact .inl ⟨rfl, Option.map_eq_none_iff.mp h.symm⟩
  | some e =>
      obtain ⟨e', he', he⟩ := Option.map_eq_some_iff.mp h.symm
      exact .inr ⟨e, e', rfl, he', he.symm⟩

/-! ## Statements -/

def SameCode (typed : Bool) (code code' : List TypedStatement) : Prop :=
  code.map (Statement.seen typed) = code'.map (Statement.seen typed)

theorem SameCode.append {first first' rest rest' : List TypedStatement}
    (h : SameCode typed first first') (hrest : SameCode typed rest rest') :
    SameCode typed (first ++ rest) (first' ++ rest') := by
  rw [SameCode, List.map_append, List.map_append, h, hrest]

theorem SameCode.eq {code code' : List TypedStatement} (h : SameCode true code code') :
    code = code' :=
  List.map_injective_iff.mpr Statement.seen_true_injective h

theorem SameCode.isEmpty_eq {code code' : List TypedStatement} (h : SameCode typed code code') :
    code'.isEmpty = code.isEmpty := by
  have hseen := congrArg List.isEmpty h
  simpa using hseen.symm

structure SameBlock (typed : Bool) (block block' : Block) : Prop where
  statements : SameCode typed block.statements block'.statements
  returns : SameTy typed block.returns block'.returns

structure SamePass (typed : Bool) (pass pass' : FirstPass) : Prop
    extends SameBlock typed pass.toBlock pass'.toBlock where
  declared : pass.declared = pass'.declared

structure SameRange (typed : Bool) (range range' : Range) : Prop where
  start : SameExpr typed range.start range'.start
  stop : SameExpr typed range.stop range'.stop
  step : SameExpr typed range.step range'.step

end Lowering

end TypedPseudocode
