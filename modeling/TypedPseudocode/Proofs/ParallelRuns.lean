import TypedPseudocode.Lowering.Module
import TypedPseudocode.Proofs.Parallel

/-!
Parallel runs: statements and modules of two runs.

Of two trees that go together one may also lack statements that the other has, if these
leave nothing behind.  What relates the steps of two runs is carried from one statement
to the next and into the bodies of functions.
-/

namespace TypedPseudocode

open Code TypedPseudocode.Tree

/-! ## Trees that go together -/

namespace Tree.Stmt

def isSimple : Stmt → Bool
  | .functionDef .. | .forLoop .. | .whileLoop .. | .branch .. => false
  | _ => true

mutual

/-- The second statement is the first recast, without what is dropped inside it. -/
inductive Follows (M : Recasting) (Dropped : Stmt → Prop) : Stmt → Stmt → Prop
  | simple {s : Stmt} (h : s.isSimple = true) : Follows M Dropped s (s.recast M)
  | functionDef (line : Nat) (name : String) (ps : Parameters) {body body' : List Stmt}
      (decorators : List Expr) (hint : Option Expr) (hbody : FollowsAll M Dropped body body') :
      Follows M Dropped (.functionDef line name ps body decorators hint)
        (.functionDef (M.lines line) (M.names name) (ps.recast M) body'
          (Expr.recastAll M decorators) (Expr.recast? M hint))
  | branch (line : Nat) (test : Expr) {body body' orelse orelse' : List Stmt}
      (hbody : FollowsAll M Dropped body body') (horelse : FollowsAll M Dropped orelse orelse') :
      Follows M Dropped (.branch line test body orelse)
        (.branch (M.lines line) (test.recast M) body' orelse')
  | whileLoop (line : Nat) (test : Expr) {body body' orelse orelse' : List Stmt}
      (hbody : FollowsAll M Dropped body body') (horelse : orelse'.isEmpty = orelse.isEmpty) :
      Follows M Dropped (.whileLoop line test body orelse)
        (.whileLoop (M.lines line) (test.recast M) body' orelse')
  | forLoop (line : Nat) (target iter : Expr) {body body' orelse orelse' : List Stmt}
      (hbody : FollowsAll M Dropped body body') (horelse : orelse'.isEmpty = orelse.isEmpty) :
      Follows M Dropped (.forLoop line target iter body orelse)
        (.forLoop (M.lines line) (target.recast M) (iter.recast M) body' orelse')

inductive FollowsAll (M : Recasting) (Dropped : Stmt → Prop) : List Stmt → List Stmt → Prop
  | nil : FollowsAll M Dropped [] []
  | keep {s s' : Stmt} {rest rest' : List Stmt} (hs : Follows M Dropped s s')
      (hrest : FollowsAll M Dropped rest rest') : FollowsAll M Dropped (s :: rest) (s' :: rest')
  | drop {s : Stmt} {rest rest' : List Stmt} (hs : Dropped s) (hsimple : s.isSimple = true)
      (hrest : FollowsAll M Dropped rest rest') : FollowsAll M Dropped (s :: rest) rest'

end

mutual

theorem follows_recast (M : Recasting) (Dropped : Stmt → Prop) (s : Stmt) :
    Follows M Dropped s (s.recast M) := by
  cases s with
  | functionDef line name ps body decorators hint =>
      exact .functionDef line name ps decorators hint (followsAll_recast M Dropped body)
  | branch line test body orelse =>
      exact .branch line test (followsAll_recast M Dropped body)
        (followsAll_recast M Dropped orelse)
  | whileLoop line test body orelse =>
      exact .whileLoop line test (followsAll_recast M Dropped body)
        (isEmpty_recastAll M orelse)
  | forLoop line target iter body orelse =>
      exact .forLoop line target iter (followsAll_recast M Dropped body)
        (isEmpty_recastAll M orelse)
  | _ => exact .simple rfl

theorem followsAll_recast (M : Recasting) (Dropped : Stmt → Prop) (ss : List Stmt) :
    FollowsAll M Dropped ss (recastAll M ss) := by
  cases ss with
  | nil => exact .nil
  | cons s ss => exact .keep (follows_recast M Dropped s) (followsAll_recast M Dropped ss)

end

end Tree.Stmt

/-- What is known of a module once its entry is wrapped. -/
def Table.lowered {σ ι : Type} (t : Table σ ι) : Lowering.Lowered ι :=
  ⟨t.toDeclarations, t.called, t.captured⟩

namespace Lowering

/-! ## Nodes of other kinds -/

variable {σ ι : Type} [Inhabited ι]

theorem augment_of_kind (op : Operator) (value : Expr) {target : Expr}
    (hname : target.kind ≠ .name) (hsubscript : target.kind ≠ .subscript) :
    augment op value target = (do
      let _ ← lowerOperator op target.line
      fail (.unexpectedKind ["Name", "Subscript"] target.label) target.line :
        LoweringWith σ ι _) := by
  cases target with
  | name => exact absurd rfl hname
  | subscript => exact absurd rfl hsubscript
  | _ => rfl

theorem lowerStandAlone_of_isText (line : Nat) {e : Expr} (h : e.isText = true) :
    lowerStandAlone line e = (pure [] : LoweringWith σ ι _) := by
  unfold Expr.isText at h
  split at h
  · rfl
  · rfl
  · cases h

theorem lowerStandAlone_of_kind (line : Nat) {e : Expr} (htext : e.isText = false)
    (hcall : e.kind ≠ .call) :
    lowerStandAlone line e = (do standAlone line (← lowerValue e) : LoweringWith σ ι _) := by
  cases e with
  | call => exact absurd rfl hcall
  | str => cases htext
  | constant inner value =>
      cases value with
      | str => cases htext
      | _ => rfl
  | _ => rfl

variable [IdSource σ ι]

theorem assignTo_of_kind (value : TypedExpression) {target : Expr} (hname : target.kind ≠ .name)
    (hsubscript : target.kind ≠ .subscript) :
    (assignTo value target : LoweringWith σ ι _) =
      fail (.unexpectedKind ["Name", "Subscript"] target.label) target.line := by
  cases target with
  | name => exact absurd rfl hname
  | subscript => exact absurd rfl hsubscript
  | _ => rfl

theorem unpack_of_elements {target : Expr} (value : Expr) (h : target.elements? = none) :
    unpack target value = (do assignTo (← lowerValue value) target : LoweringWith σ ι _) := by
  cases target with
  | list | tuple => cases h
  | _ => simp only [unpack]

theorem assignHinted_of_kind {target : Expr} (hint : Expr) (value : Option Expr)
    (h : target.kind ≠ .name) :
    assignHinted target hint value = (do
      let _ ← ofExcept (Builtin.hintTy hint)
      refuse (.hintedTarget target.label) target.line : LoweringWith σ ι _) := by
  cases target with
  | name => exact absurd rfl h
  | _ => rfl

theorem lowerStmt_forLoop_of_kind (returns : Ty) (line : Nat) {target : Expr} (iter : Expr)
    (body : List Stmt) (h : target.kind ≠ .name) :
    (lowerStmt returns (.forLoop line target iter body []) : LoweringWith σ ι _) =
      fail (.unexpectedKind ["Name"] target.label) target.line := by
  cases target with
  | name => exact absurd rfl h
  | _ => simp only [lowerStmt, List.isEmpty_nil, if_true]

theorem lowerBodies_of_isSimple {s : Stmt} (h : s.isSimple = true) (rest : List Stmt)
    (declared : List ProcId) :
    lowerBodies (s :: rest) declared = (lowerBodies rest declared : LoweringWith σ ι _) := by
  cases s with
  | functionDef => cases h
  | _ => simp only [lowerBodies]

namespace Parallel

variable {M : Recasting} {typed : Bool} {allowed : String → Prop}
  {P : ∀ {α : Type}, (α → α → Prop) → Lowering α → LoweringWith σ ι α → Prop}
  (h : Parallel M typed allowed P)
include h

/-! ## Assignments -/

theorem joinReturns (line : Nat) {known known' ty ty' : Ty} (hknown : SameTy typed known known')
    (hty : SameTy typed ty ty') :
    P (SameTy typed) (joinReturns line known ty) (joinReturns (M.lines line) known' ty') := by
  have hjoin {σ ι : Type} (line : Nat) (known ty : Ty) :
      (Lowering.joinReturns line known ty : LoweringWith σ ι Ty) =
        Lowering.ofExcept ((((known.unify ty).elim (.error ⟨known, ty⟩) .ok :
          Except Ty.Conflict Ty)).mapError (Diagnostic.conflict .returns · line)) := by
    unfold Lowering.joinReturns
    cases known.unify ty <;> rfl
  rw [hjoin, hjoin]
  refine h.conflict (fun htyped => ?_) .returns line
  rw [hknown htyped, hty htyped]

theorem bindName (line : Nat) {name : String} (hname : allowed name) {ty ty' : Ty}
    (hty : SameTy typed ty ty') :
    P Eq (bindName line name ty) (bindName (M.lines line) (M.names name) ty') := by
  refine h.bindEq (h.lookupVariable name .innermost line) fun found => ?_
  cases found with
  | some v => exact h.bind (h.constrainVariable v hty line) fun _ _ _ => h.pure rfl
  | none =>
      have hstated : typed = true → some ty = some ty' := fun htyped => congrArg some (hty htyped)
      exact h.bindEq (h.declareVariable hname hstated none) fun _ => h.pure rfl

theorem assignTo {value value' : TypedExpression} (hvalue : SameExpr typed value value')
    (target : Expr) (hnames : ∀ name ∈ target.targetNames, allowed name) :
    P (SameCode typed) (assignTo value target) (assignTo value' (target.recast M)) := by
  have hseen : value.seen typed = value'.seen typed := hvalue
  by_cases hname : target.kind = .name
  · cases target with
    | name line id ctx =>
        have hallowed : allowed id := hnames id (by simp [Expr.targetNames])
        refine h.bindEq (h.bindName line hallowed hvalue.ty) fun bound => h.pure ?_
        simp [SameCode, hseen]
    | _ => cases hname
  · by_cases hsubscript : target.kind = .subscript
    · cases target with
      | subscript line base key ctx =>
          refine h.bindEq (h.resolveArray base) fun v => ?_
          refine h.bind (h.lowerIndex key) fun index index' hindex => ?_
          refine h.bind (h.constrainVariable v (hvalue.ty.map .array) line) fun _ _ _ => ?_
          rw [SameExpr] at hindex
          exact h.pure (by simp [SameCode, hseen, hindex])
      | _ => cases hsubscript
    · rw [assignTo_of_kind value hname hsubscript,
        assignTo_of_kind value' (Expr.kind_recast_ne M hname (by decide))
          (Expr.kind_recast_ne M hsubscript (by decide)), Expr.line_recast]
      exact h.fail (M.words_label (.unexpectedKind ["Name", "Subscript"]) target rfl) _

theorem elementsFor (line count : Nat) (value : Expr) :
    P (fun values values' => values' = Expr.recastAll M values) (elementsFor line count value)
      (elementsFor (M.lines line) count (value.recast M)) := by
  simp only [Lowering.elementsFor, Expr.elements?_recast]
  cases value.elements? with
  | none =>
      simp only [Option.map_none, Expr.line_recast]
      exact h.fail
        (M.words_label (fun label => .unsupported (.unpackingOf label)) value rfl) value.line
  | some values =>
      simp only [Option.map_some, Expr.length_recastAll]
      split
      · exact h.pure rfl
      · exact h.fail (.refl M _) line

mutual

theorem unpack (target value : Expr) (hnames : ∀ name ∈ target.targetNames, allowed name) :
    P (SameCode typed) (unpack target value) (unpack (target.recast M) (value.recast M)) := by
  cases target with
  | list line targets ctx | tuple line targets ctx =>
      simp only [Expr.targetNames] at hnames
      simp only [Expr.recast, Lowering.unpack, Expr.length_recastAll]
      refine h.bind (h.elementsFor line targets.length value) ?_
      rintro values _ rfl
      exact unpackEach targets values hnames
  | _ =>
      rw [unpack_of_elements value rfl, unpack_of_elements _ (by rw [Expr.elements?_recast]; rfl)]
      exact h.bind (h.lowerExpr value .operand) fun _ _ hx => h.assignTo hx _ hnames

theorem unpackEach (targets values : List Expr)
    (hnames : ∀ name ∈ Expr.targetNamesAll targets, allowed name) :
    P (SameCode typed) (unpackEach targets values)
      (unpackEach (Expr.recastAll M targets) (Expr.recastAll M values)) := by
  cases targets with
  | nil =>
      simp only [Expr.recastAll, Lowering.unpackEach]
      exact h.pure rfl
  | cons target targets =>
      cases values with
      | nil =>
          simp only [Expr.recastAll, Lowering.unpackEach]
          exact h.pure rfl
      | cons value values =>
          simp only [Expr.targetNamesAll, List.forall_mem_append] at hnames
          simp only [Expr.recastAll, Lowering.unpackEach]
          refine h.bind (unpack target value hnames.1) fun _ _ hfirst => ?_
          exact h.bind (unpackEach targets values hnames.2) fun _ _ hrest =>
            h.pure (hfirst.append hrest)

end

theorem assignAll (value : Expr) (targets : List Expr) {lowered lowered' : Option TypedExpression}
    (hlowered : lowered.map (Expression.seen typed) = lowered'.map (Expression.seen typed))
    (hnames : ∀ name ∈ Expr.targetNamesAll targets, allowed name) :
    P (SameCode typed) (assignAll value targets lowered)
      (assignAll (value.recast M) (Expr.recastAll M targets) lowered') := by
  induction targets generalizing lowered lowered' with
  | nil => exact h.pure rfl
  | cons target targets ih =>
      simp only [Expr.targetNamesAll, List.forall_mem_append] at hnames
      have hassign {e e' : TypedExpression} (he : SameExpr typed e e') : P (SameCode typed)
          (do
            let first ← Lowering.assignTo e target
            let rest ← Lowering.assignAll value targets (some e)
            return first ++ rest)
          (do
            let first ← Lowering.assignTo e' (target.recast M)
            let rest ← Lowering.assignAll (value.recast M) (Expr.recastAll M targets) (some e')
            return first ++ rest) := by
        refine h.bind (h.assignTo he target hnames.1) fun _ _ hfirst => ?_
        exact h.bind (ih (congrArg some he) hnames.2) fun _ _ hrest =>
          h.pure (hfirst.append hrest)
      simp only [Expr.recastAll, Lowering.assignAll, Expr.elements?_recast]
      cases target.elements? with
      | some _ =>
          refine h.bind (h.unpack target value hnames.1) fun _ _ hfirst => ?_
          exact h.bind (ih hlowered hnames.2) fun _ _ hrest => h.pure (hfirst.append hrest)
      | none =>
          obtain ⟨rfl, rfl⟩ | ⟨e, e', rfl, rfl, he⟩ := same_of_map_seen hlowered
          · exact h.bind (h.lowerExpr value .operand) fun _ _ => hassign
          · exact h.bind (h.pure he) fun _ _ => hassign

theorem augment (op : Operator) (value target : Expr) :
    P (SameCode typed) (augment op value target)
      (augment op (value.recast M) (target.recast M)) := by
  by_cases hname : target.kind = .name
  · cases target with
    | name line id ctx =>
        refine h.bindEq (h.lowerOperator op line) fun op => ?_
        refine h.bindEq (h.lookupVariable id .innermost line) fun found => ?_
        cases found with
        | none => exact h.fail (M.words_name .missingName id rfl) line
        | some v =>
            refine h.bind (h.readVariable v) fun current current' hcurrent => ?_
            refine h.bind (h.lowerExpr value .operand) fun x x' hx => ?_
            have hty := hcurrent.ty.map₂ hx.ty op.resultTy
            refine h.bind (h.constrainVariable v hty line) fun _ _ _ => h.pure ?_
            rw [SameExpr] at hcurrent hx
            simp [SameCode, hcurrent, hx, hty.seen_eq]
    | _ => cases hname
  · by_cases hsubscript : target.kind = .subscript
    · cases target with
      | subscript line base key ctx =>
          refine h.bindEq (h.lowerOperator op line) fun op => ?_
          refine h.bindEq (h.resolveArray base) fun v => ?_
          refine h.bind (h.lowerIndex key) fun index index' hindex => ?_
          refine h.bind (h.lowerExpr value .operand) fun x x' hx => ?_
          refine h.bind (h.readVariable v) fun array array' harray => ?_
          have helement := harray.ty.map Ty.element
          have hty := helement.map₂ hx.ty op.resultTy
          refine h.bind (h.constrainVariable v (hty.map .array) line) fun _ _ _ => h.pure ?_
          rw [SameExpr] at hindex hx harray
          simp [SameCode, hindex, hx, harray, helement.seen_eq, hty.seen_eq]
      | _ => cases hsubscript
    · rw [augment_of_kind op value hname hsubscript,
        augment_of_kind op _ (Expr.kind_recast_ne M hname (by decide))
          (Expr.kind_recast_ne M hsubscript (by decide)), Expr.line_recast]
      refine h.bindEq (h.lowerOperator op target.line) fun _ => ?_
      exact h.fail (M.words_label (.unexpectedKind ["Name", "Subscript"]) target rfl) _

theorem assignHinted (target hint : Expr) (value : Option Expr)
    (hnames : ∀ name ∈ target.identifier?, allowed name) :
    P (SameCode typed) (assignHinted target hint value)
      (assignHinted (target.recast M) (hint.recast M) (Expr.recast? M value)) := by
  have hhint := h.ofExcept (Builtin.tallies_hintTy (M := M) hint)
  by_cases hkind : target.kind = .name
  · cases target with
    | name line id ctx =>
        refine h.bindEq hhint fun ty => ?_
        refine h.bindEq (h.bindName line (hnames id rfl) (.refl ty)) fun bound => ?_
        obtain ⟨v, declaration⟩ := bound
        cases value with
        | none => exact h.pure rfl
        | some value =>
            refine h.bind (h.lowerExpr value .operand) fun e e' he => ?_
            simp only [Expr.line_recast]
            refine h.bind (h.constrainVariable v he.ty value.line) fun _ _ _ => h.pure ?_
            rw [SameExpr] at he
            simp [SameCode, he]
    | _ => cases hkind
  · rw [assignHinted_of_kind hint value hkind,
      assignHinted_of_kind _ _ (Expr.kind_recast_ne M hkind (by decide)), Expr.line_recast]
    refine h.bindEq hhint fun _ => ?_
    exact h.fail
      (M.words_label (fun label => .unsupported (.hintedTarget label)) target rfl) target.line

/-! ## Calls as statements -/

theorem standAlone (line : Nat) {e e' : TypedExpression} (he : SameExpr typed e e') :
    P (SameCode typed) (standAlone line e) (standAlone (M.lines line) e') := by
  rw [SameExpr] at he
  cases e with
  | call p arguments ty =>
      cases e' with
      | call p' arguments' ty' =>
          simp only [Expression.seen_call, Expression.call.injEq] at he
          exact h.pure (by simp [SameCode, he.1, he.2.1])
      | _ => simp [Expression.seen, Expression.map] at he
  | callBuiltin name arguments ty =>
      cases e' with
      | callBuiltin name' arguments' ty' =>
          simp only [Expression.seen_callBuiltin, Expression.callBuiltin.injEq] at he
          obtain ⟨rfl, harguments, -⟩ := he
          simp only [Lowering.standAlone]
          split
          · exact h.pure (by simp [SameCode, harguments])
          · exact h.refuse _ line
      | _ => simp [Expression.seen, Expression.map] at he
  | _ =>
      cases e' with
      | call | callBuiltin => simp [Expression.seen, Expression.map] at he
      | _ => exact h.refuse _ line

theorem lowerStandAlone (line : Nat) (e : Expr) :
    P (SameCode typed) (lowerStandAlone line e)
      (lowerStandAlone (M.lines line) (e.recast M)) := by
  have hvalue : P (SameCode typed) (do Lowering.standAlone line (← lowerValue e))
      (do Lowering.standAlone (M.lines line) (← lowerValue (e.recast M))) :=
    h.bind (h.lowerExpr e .operand) fun _ _ he => h.standAlone line he
  by_cases hcall : e.kind = .call
  · cases e with
    | call inner func args keywords =>
        refine h.bindEq (h.droppedName? func) fun dropped => ?_
        cases dropped with
        | some name => exact h.bind (h.tell _ _) fun _ _ _ => h.pure rfl
        | none => exact hvalue
    | _ => cases hcall
  · cases htext : e.isText with
    | true =>
        rw [lowerStandAlone_of_isText line htext,
          lowerStandAlone_of_isText _ ((e.isText_recast M).trans htext)]
        exact h.pure rfl
    | false =>
        rw [lowerStandAlone_of_kind line htext hcall,
          lowerStandAlone_of_kind _ ((e.isText_recast M).trans htext)
            (Expr.kind_recast_ne M hcall (by decide))]
        exact hvalue

/-! ## Functions -/

theorem checkParameters (line : Nat) (name : String) (ps : Parameters) :
    P Any (checkParameters line name ps)
      (checkParameters (M.lines line) (M.names name) (ps.recast M)) := by
  have hrefused (construct : String → Construct) :
      P Any (Lowering.refuse (construct name) line : Lowering Unit)
        (Lowering.refuse (construct (M.names name)) (M.lines line)) :=
    h.fail (M.words_name (fun name => .unsupported (construct name)) name rfl) line
  have hdefaults : (ps.recast M).defaults = [] ↔ ps.defaults = [] := by
    rw [Parameters.recast, Expr.recastAll_eq_map, List.map_eq_nil_iff]
  simp only [Lowering.checkParameters, ne_eq, hdefaults]
  simp only [Parameters.recast, Option.isSome_map, List.map_eq_nil_iff]
  split
  · exact hrefused .variadicParameters
  · split
    · exact hrefused .restrictedParameters
    · split
      · exact hrefused .defaultValues
      · exact h.pure trivial

theorem declareFunction (line : Nat) {name : String} (hname : allowed name) (ps : Parameters)
    (decorators : List Expr) (hint : Option Expr) :
    P Eq (declareFunction line name ps decorators hint)
      (declareFunction (M.lines line) (M.names name) (ps.recast M) (Expr.recastAll M decorators)
        (Expr.recast? M hint)) := by
  cases decorators with
  | cons decorator decorators =>
      simp only [Lowering.declareFunction, Expr.recastAll, Expr.line_recast]
      exact h.fail (M.words_name (fun name => .unsupported (.decorator name)) name rfl) _
  | nil =>
      refine h.bind (h.checkParameters line name ps) fun _ _ _ => ?_
      refine h.bindEq (h.ofExcept (Builtin.tallies_hintTy? hint)) fun stated => ?_
      refine h.declareProcedure (fun named hnamed => ?_) stated
      obtain rfl : name = named := Option.some.inj hnamed
      exact hname

theorem declareParameters (owner : String) (position : Nat) (ps : List Parameter)
    (hnames : ∀ p ∈ ps, allowed p.name) :
    P Eq (declareParameters owner position ps)
      (declareParameters (M.names owner) position (ps.map (·.recast M))) := by
  induction ps generalizing position with
  | nil => exact h.pure rfl
  | cons p ps ih =>
      obtain ⟨hfirst, hrest⟩ := List.forall_mem_cons.mp hnames
      refine h.bindEq (h.ofExcept (Builtin.tallies_hintTy? p.typeHint)) fun stated => ?_
      refine h.bindEq (h.declareVariable hfirst (fun _ => rfl) (some ⟨owner, position⟩)) ?_
      exact fun v => h.bindEq (ih (position + 1) hrest) fun _ => h.pure rfl

theorem lowerFunction (line : Nat) (name : String) (ps : Parameters) (p : ProcId)
    (hnames : ∀ name ∈ ps.names, allowed name) {body : Lowering Block}
    {body' : LoweringWith σ ι Block} (hbody : P (SameBlock typed) body body') :
    P Any (lowerFunction line name ps p body)
      (lowerFunction (M.lines line) (M.names name) (ps.recast M) p body') := by
  refine h.bind (h.tell _ _) fun _ _ _ => ?_
  have hparameters := h.declareParameters name 0 ps.positional fun q hq =>
    hnames q.name (ps.positional_subset_names (List.mem_map_of_mem hq))
  have hinside : P (fun made made' => made.1 = made'.1 ∧ SameBlock typed made.2 made'.2)
      (do
        let parameters ← Lowering.declareParameters name 0 ps.positional
        let block ← body
        return (parameters, block))
      (do
        let parameters ← Lowering.declareParameters (M.names name) 0
          (ps.positional.map (·.recast M))
        let block ← body'
        return (parameters, block)) :=
    h.bindEq hparameters fun parameters => h.bind hbody fun _ _ hblock => h.pure ⟨rfl, hblock⟩
  refine h.bind (h.inChildScope hinside) ?_
  rintro ⟨parameters, block⟩ ⟨_, block'⟩ ⟨rfl, hblock⟩
  refine h.bind (h.constrainProcedure p hblock.returns line) fun _ _ _ => ?_
  exact h.define p parameters hblock.statements

/-! ## Loops -/

theorem rangeOf (line iterLine : Nat) {e e' : TypedExpression} (he : SameExpr typed e e') :
    P (SameRange typed) (rangeOf line iterLine e)
      (rangeOf (M.lines line) (M.lines iterLine) e') := by
  rw [SameExpr] at he
  cases e with
  | callBuiltin name arguments ty =>
      cases e' with
      | callBuiltin name' arguments' ty' =>
          simp only [Expression.seen_callBuiltin, Expression.callBuiltin.injEq] at he
          obtain ⟨rfl, harguments, -⟩ := he
          have hlength : arguments.length = arguments'.length := by
            simpa using congrArg List.length harguments
          simp only [Lowering.rangeOf]
          split
          · rcases arguments with _ | ⟨a, _ | ⟨b, _ | ⟨c, _ | ⟨d, rest⟩⟩⟩⟩ <;>
              rcases arguments' with _ | ⟨a', _ | ⟨b', _ | ⟨c', _ | ⟨d', rest'⟩⟩⟩⟩ <;>
              simp at harguments hlength
            · exact h.refuse _ iterLine
            · exact h.pure ⟨rfl, harguments, rfl⟩
            · exact h.pure ⟨harguments.1, harguments.2, rfl⟩
            · exact h.pure ⟨harguments.1, harguments.2.1, harguments.2.2⟩
            · simp only [List.length_cons, hlength]
              exact h.refuse _ iterLine
          · exact h.refuse _ line
      | _ => simp [Expression.seen, Expression.map] at he
  | _ =>
      cases e' with
      | callBuiltin => simp [Expression.seen, Expression.map] at he
      | _ => exact h.refuse _ line

theorem countingLoop (line targetLine iterLine : Nat) {name : String} (hname : allowed name)
    {iter : Lowering TypedExpression} {iter' : LoweringWith σ ι TypedExpression}
    {body : Lowering Block} {body' : LoweringWith σ ι Block} {returns returns' : Ty}
    (hiter : P (SameExpr typed) iter iter') (hbody : P (SameBlock typed) body body')
    (hreturns : SameTy typed returns returns') :
    P (SameBlock typed) (countingLoop line targetLine iterLine name iter body returns)
      (countingLoop (M.lines line) (M.lines targetLine) (M.lines iterLine) (M.names name) iter'
        body' returns') := by
  refine h.bindEq (h.bindName targetLine hname (.refl .int)) fun bound => ?_
  obtain ⟨v, declaration⟩ := bound
  refine h.bind hiter fun e e' he => ?_
  refine h.bind (h.rangeOf line iterLine he) fun range range' hrange => ?_
  obtain ⟨hstart, hstop, hstep⟩ := hrange
  refine h.bind (h.constrainVariable v hstart.ty targetLine) fun _ _ _ => ?_
  refine h.bind (h.readVariable v) fun counter counter' hcounter => ?_
  refine h.bind hbody fun block block' hblock => ?_
  refine h.bind (h.variableTy v) fun known known' hknown => ?_
  have hty := hknown.map₂ hstep.ty BinOp.add.resultTy
  refine h.bind (h.constrainVariable v hty targetLine) fun _ _ _ => ?_
  refine h.bind (h.readVariable v) fun next next' hnext => ?_
  refine h.bind (h.joinReturns line hreturns hblock.returns) fun _ _ hjoined => ?_
  have hcode := hblock.statements
  rw [SameCode] at hcode
  rw [SameExpr] at hstart hstop hstep hcounter hnext
  refine h.pure ⟨?_, hjoined⟩
  simp [SameCode, hcode, hstart, hstop, hstep, hcounter, hnext, hty.seen_eq]

theorem lowerOther (line : Nat) (kind : OtherStmt) :
    P (SameCode typed) (lowerOther line kind) (lowerOther (M.lines line) kind) := by
  unfold Lowering.lowerOther
  split
  · exact h.pure rfl
  · exact h.pure rfl
  · split
    · exact h.bind (h.tell _ _) fun _ _ _ => h.pure rfl
    · exact h.refuse _ line

theorem twoPasses {first : Lowering FirstPass} {first' : LoweringWith σ ι FirstPass}
    {second : List ProcId → Lowering Unit} {second' : List ProcId → LoweringWith σ ι Unit}
    (hfirst : P (SamePass typed) first first')
    (hsecond : ∀ declared, P Any (second declared) (second' declared)) :
    P (SameBlock typed) (twoPasses first second) (twoPasses first' second') := by
  refine h.bind hfirst fun pass pass' hpass => ?_
  rw [hpass.declared]
  exact h.bind (hsecond _) fun _ _ _ => h.pure hpass.toSameBlock

section Blocks

variable {body body' orelse orelse' : List Stmt} {returns returns' : Ty}
  (hbody : P (SameBlock typed) (lowerBlock body) (lowerBlock body'))
  (hreturns : SameTy typed returns returns')
include hbody hreturns

theorem branch (line : Nat) (test : Expr)
    (horelse : P (SameBlock typed) (lowerBlock orelse) (lowerBlock orelse')) :
    P (SamePass typed) (lowerStmt returns (.branch line test body orelse))
      (lowerStmt returns' (.branch (M.lines line) (test.recast M) body' orelse')) := by
  simp only [Lowering.lowerStmt]
  refine h.bind (h.lowerExpr test .operand) fun guard guard' hguard => ?_
  refine h.bind hbody fun yes yes' hyes => ?_
  refine h.bind horelse fun no no' hno => ?_
  refine h.bind (h.joinReturns line hreturns hyes.returns) fun _ _ hjoined => ?_
  refine h.bind (h.joinReturns line hjoined hno.returns) fun _ _ hlast => ?_
  obtain ⟨hyes, -⟩ := hyes
  obtain ⟨hno, -⟩ := hno
  rw [SameCode] at hyes hno
  rw [SameExpr] at hguard
  exact h.pure ⟨⟨by simp [SameCode, hguard, hyes, hno], hlast⟩, rfl⟩

theorem whileLoop (line : Nat) (test : Expr) (horelse : orelse'.isEmpty = orelse.isEmpty) :
    P (SamePass typed) (lowerStmt returns (.whileLoop line test body orelse))
      (lowerStmt returns' (.whileLoop (M.lines line) (test.recast M) body' orelse')) := by
  simp only [Lowering.lowerStmt, horelse]
  split
  · refine h.bind (h.lowerExpr test .operand) fun guard guard' hguard => ?_
    refine h.bind hbody fun block block' hblock => ?_
    refine h.bind (h.joinReturns line hreturns hblock.returns) fun _ _ hjoined => ?_
    obtain ⟨hcode, -⟩ := hblock
    rw [SameCode] at hcode
    rw [SameExpr] at hguard
    exact h.pure ⟨⟨by simp [SameCode, hguard, hcode], hjoined⟩, rfl⟩
  · exact h.refuse _ line

theorem forLoop (line : Nat) {target : Expr} (iter : Expr)
    (hnames : ∀ name ∈ target.identifier?, allowed name)
    (horelse : orelse'.isEmpty = orelse.isEmpty) :
    P (SamePass typed) (lowerStmt returns (.forLoop line target iter body orelse))
      (lowerStmt returns'
        (.forLoop (M.lines line) (target.recast M) (iter.recast M) body' orelse')) := by
  cases orelse with
  | cons =>
      simp only [Lowering.lowerStmt, horelse, List.isEmpty_cons, Bool.false_eq_true, if_false]
      exact h.refuse _ line
  | nil =>
      obtain rfl : orelse' = [] := List.isEmpty_iff.mp horelse
      by_cases hkind : target.kind = .name
      · cases target with
        | name targetLine name ctx =>
            simp only [Expr.recast, Lowering.lowerStmt, List.isEmpty_nil, if_true,
              Expr.line_recast]
            exact h.bind (h.countingLoop line targetLine iter.line (hnames name rfl)
              (h.lowerExpr iter .operand) hbody hreturns) fun _ _ hsame => h.pure ⟨hsame, rfl⟩
        | _ => cases hkind
      · rw [lowerStmt_forLoop_of_kind returns line iter body hkind,
          lowerStmt_forLoop_of_kind _ _ _ _ (Expr.kind_recast_ne M hkind (by decide)),
          Expr.line_recast]
        exact h.fail (M.words_label (.unexpectedKind ["Name"]) target rfl) target.line

end Blocks

theorem ret (line : Nat) (value : Option Expr) {returns returns' : Ty}
    (hreturns : SameTy typed returns returns') :
    P (SamePass typed) (lowerStmt returns (.ret line value))
      (lowerStmt returns' ((Stmt.ret line value).recast M)) := by
  cases value with
  | none =>
      simp only [Stmt.recast, Expr.recast?, Lowering.lowerStmt]
      exact h.bind (h.joinReturns line hreturns (.refl .void)) fun _ _ hjoined =>
        h.pure ⟨⟨rfl, hjoined⟩, rfl⟩
  | some value =>
      simp only [Stmt.recast, Expr.recast?, Lowering.lowerStmt]
      refine h.bind (h.lowerExpr value .operand) fun e e' he => ?_
      refine h.bind (h.joinReturns line hreturns he.ty) fun _ _ hjoined => ?_
      rw [SameExpr] at he
      exact h.pure ⟨⟨by simp [SameCode, he], hjoined⟩, rfl⟩

theorem wrapEntry {code code' : List TypedStatement} (hcode : SameCode typed code code') :
    P Any (wrapEntry code) (wrapEntry code') := by
  unfold Lowering.wrapEntry
  rw [hcode.isEmpty_eq]
  split
  · exact h.pure trivial
  · refine h.bindEq (h.declareProcedure (fun _ hnone => by cases hnone) _) fun entry => ?_
    exact h.bind (h.define entry [] hcode) fun _ _ _ => h.tell _ _

end Parallel

/-! ## Statements -/

/-- Two runs of which the first may have statements that leave nothing behind. -/
structure ParallelRuns (M : Recasting) (typed : Bool) (allowed : String → Prop)
    (Dropped : Stmt → Prop)
    (P : ∀ {α : Type}, (α → α → Prop) → Lowering α → LoweringWith σ ι α → Prop) : Prop
    extends Parallel M typed allowed P where
  skip {s : Stmt} (hs : Dropped s) (returns : Ty) (event : Event) {α : Type} {R : α → α → Prop}
    {next : FirstPass → Lowering α} {step' : LoweringWith σ ι α} :
    P R (next ⟨⟨[], returns⟩, []⟩) step' →
      P R (Lowering.tell event >>= fun _ => lowerStmt returns s >>= next) step'

namespace ParallelRuns

variable {M : Recasting} {typed : Bool} {allowed : String → Prop} {Dropped : Stmt → Prop}
  {P : ∀ {α : Type}, (α → α → Prop) → Lowering α → LoweringWith σ ι α → Prop}
  (h : ParallelRuns M typed allowed Dropped P)
include h

theorem plain {step : Lowering (List TypedStatement)}
    {step' : LoweringWith σ ι (List TypedStatement)} (hstep : P (SameCode typed) step step')
    {returns returns' : Ty} (hreturns : SameTy typed returns returns') :
    P (SamePass typed) (do return ⟨⟨← step, returns⟩, []⟩)
      (do return ⟨⟨← step', returns'⟩, []⟩) :=
  h.bind hstep fun _ _ hcode => h.pure ⟨⟨hcode, hreturns⟩, rfl⟩

mutual

theorem lowerStmt (s : Stmt) {s' : Stmt} (hfollows : s.Follows M Dropped s')
    (hnames : ∀ name ∈ s.bindsDeep, allowed name) {returns returns' : Ty}
    (hreturns : SameTy typed returns returns') :
    P (SamePass typed) (lowerStmt returns s) (lowerStmt returns' s') := by
  cases s with
  | functionDef line name ps body decorators hint =>
      cases hfollows with
      | simple hsimple => cases hsimple
      | functionDef =>
          simp only [Stmt.bindsDeep, List.forall_mem_cons] at hnames
          simp only [Lowering.lowerStmt]
          exact h.bindEq (h.declareFunction line hnames.1 ps decorators hint) fun _ =>
            h.pure ⟨⟨rfl, hreturns⟩, rfl⟩
  | branch line test body orelse =>
      cases hfollows with
      | simple hsimple => cases hsimple
      | branch _ _ hbody horelse =>
          simp only [Stmt.bindsDeep, List.forall_mem_append] at hnames
          have hyes := h.twoPasses (lowerStmts body hbody hnames.1 (.refl .unknown))
            (lowerBodies body hbody hnames.1)
          have hno := h.twoPasses (lowerStmts orelse horelse hnames.2 (.refl .unknown))
            (lowerBodies orelse horelse hnames.2)
          exact h.branch hyes hreturns line test hno
  | whileLoop line test body orelse =>
      cases hfollows with
      | simple hsimple => cases hsimple
      | whileLoop _ _ hbody horelse =>
          simp only [Stmt.bindsDeep, List.forall_mem_append] at hnames
          have hblock := h.twoPasses (lowerStmts body hbody hnames.1 (.refl .unknown))
            (lowerBodies body hbody hnames.1)
          exact h.whileLoop hblock hreturns line test horelse
  | forLoop line target iter body orelse =>
      cases hfollows with
      | simple hsimple => cases hsimple
      | forLoop _ _ _ hbody horelse =>
          simp only [Stmt.bindsDeep, List.forall_mem_append] at hnames
          have hblock := h.twoPasses (lowerStmts body hbody hnames.2.1 (.refl .unknown))
            (lowerBodies body hbody hnames.2.1)
          have htarget (name : String) (hname : name ∈ target.identifier?) : allowed name :=
            hnames.1 name (Option.mem_toList.mpr hname)
          exact h.forLoop hblock hreturns line iter htarget horelse
  | ret line value =>
      cases hfollows
      exact h.ret line value hreturns
  | assign line targets value =>
      cases hfollows
      simp only [Stmt.recast, Lowering.lowerStmt]
      exact h.plain (h.assignAll value targets rfl hnames) hreturns
  | augAssign line target op value =>
      cases hfollows
      simp only [Stmt.recast, Lowering.lowerStmt]
      exact h.plain (h.augment op value target) hreturns
  | annAssign line target hint value =>
      cases hfollows
      simp only [Stmt.recast, Lowering.lowerStmt]
      refine h.plain (h.assignHinted target hint value fun name hname => ?_) hreturns
      exact hnames name (Option.mem_toList.mpr hname)
  | raise line exception =>
      cases hfollows
      cases exception with
      | none =>
          simp only [Stmt.recast, Expr.recast?, Lowering.lowerStmt]
          exact h.bind (h.tell _ _) fun _ _ _ => h.pure ⟨⟨rfl, hreturns⟩, rfl⟩
      | some exception =>
          simp only [Stmt.recast, Expr.recast?, Lowering.lowerStmt]
          exact h.refuse _ line
  | expression line value =>
      cases hfollows
      simp only [Stmt.recast, Lowering.lowerStmt]
      exact h.plain (h.lowerStandAlone line value) hreturns
  | other line kind =>
      cases hfollows
      simp only [Stmt.recast, Lowering.lowerStmt]
      exact h.plain (h.lowerOther line kind) hreturns

theorem lowerStmts (ss : List Stmt) {ss' : List Stmt} (hfollows : Stmt.FollowsAll M Dropped ss ss')
    (hnames : ∀ name ∈ Stmt.bindsDeepAll ss, allowed name) {returns returns' : Ty}
    (hreturns : SameTy typed returns returns') :
    P (SamePass typed) (lowerStmts returns ss) (lowerStmts returns' ss') := by
  cases ss with
  | nil =>
      cases hfollows
      simp only [Lowering.lowerStmts]
      exact h.pure ⟨⟨rfl, hreturns⟩, rfl⟩
  | cons s ss =>
      simp only [Stmt.bindsDeepAll, List.forall_mem_append] at hnames
      cases hfollows with
      | keep hs hrest =>
          simp only [Lowering.lowerStmts]
          refine h.bind (h.tell _ _) fun _ _ _ => ?_
          refine h.bind (lowerStmt s hs hnames.1 hreturns) fun here here' hhere => ?_
          refine h.bind (lowerStmts ss hrest hnames.2 hhere.returns) fun _ _ hthere => ?_
          refine h.pure ⟨⟨hhere.statements.append hthere.statements, hthere.returns⟩, ?_⟩
          exact congrArg₂ (· ++ ·) hhere.declared hthere.declared
      | drop hs _ hrest =>
          have hlater := lowerStmts ss hrest hnames.2 hreturns
          rw [Lowering.lowerStmts]
          refine h.skip hs returns _ ?_
          simpa using hlater

theorem lowerBodies (ss : List Stmt) {ss' : List Stmt}
    (hfollows : Stmt.FollowsAll M Dropped ss ss')
    (hnames : ∀ name ∈ Stmt.bindsDeepAll ss, allowed name) (declared : List ProcId) :
    P Any (lowerBodies ss declared) (lowerBodies ss' declared) := by
  cases ss with
  | nil =>
      cases hfollows
      simp only [Lowering.lowerBodies]
      exact h.pure trivial
  | cons s ss =>
      simp only [Stmt.bindsDeepAll, List.forall_mem_append] at hnames
      cases hfollows with
      | keep hs hrest =>
          have hlater := lowerBodies ss hrest hnames.2
          cases s with
          | functionDef line name ps body decorators hint =>
              cases hs with
              | simple hsimple => cases hsimple
              | functionDef _ _ _ _ _ hbody =>
                  simp only [Stmt.bindsDeep, List.forall_mem_cons, List.forall_mem_append]
                    at hnames
                  cases declared with
                  | nil =>
                      simp only [Lowering.lowerBodies]
                      exact hlater []
                  | cons p declared =>
                      simp only [Lowering.lowerBodies]
                      refine h.bind (h.lowerFunction line name ps p hnames.1.2.1
                        (h.twoPasses (lowerStmts body hbody hnames.1.2.2 (.refl .unknown))
                          (lowerBodies body hbody hnames.1.2.2))) fun _ _ _ => ?_
                      exact hlater declared
          | _ =>
              cases hs <;> (simp only [Stmt.recast, Lowering.lowerBodies]; exact hlater declared)
      | drop _ hsimple hrest =>
          rw [lowerBodies_of_isSimple hsimple]
          exact lowerBodies ss hrest hnames.2 declared

end

theorem lowerModule {body body' : List Stmt} (hfollows : Stmt.FollowsAll M Dropped body body')
    (hnames : ∀ name ∈ Stmt.bindsDeepAll body, allowed name) :
    P Any (lowerBlock body >>= fun block => wrapEntry block.statements)
      (lowerBlock body' >>= fun block => wrapEntry block.statements) :=
  h.bind (h.twoPasses (h.lowerStmts body hfollows hnames (.refl .unknown))
    (h.lowerBodies body hfollows hnames)) fun _ _ hblock => h.wrapEntry hblock.statements

end ParallelRuns

theorem runWith_module (source : σ) (signatures : SignatureTable) (body : List Stmt) :
    let o := (lowerBlock body >>= fun block => wrapEntry block.statements)
      (Table.start source signatures)
    (runWith source signatures (.module body)).result = o.result.map (fun _ => o.table.lowered) ∧
      (runWith source signatures (.module body)).table = o.table := by
  simp only [runWith, lowerRoot]
  rw [← bind_assoc]
  rcases hstep : (lowerBlock body >>= fun block => wrapEntry block.statements)
    (Table.start source signatures) with ⟨_ | _, t, events⟩
  · rw [bind_run_error hstep]
    exact ⟨rfl, rfl⟩
  · rw [bind_run_ok hstep]
    exact ⟨rfl, rfl⟩

end Lowering

end TypedPseudocode
