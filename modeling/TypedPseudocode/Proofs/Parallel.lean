import TypedPseudocode.Proofs.Bindings
import TypedPseudocode.Proofs.Correspondence
import TypedPseudocode.Proofs.Likeness

/-!
Parallel: two runs, step by step.

Two runs may be compared that start from different tables, draw ids from different
sources, or work on trees of which one is the other recast.  Whatever is said of their
steps, if it holds of the elementary ones and is kept by taking one after another, then
it holds of all that is lowered.  The two runs need not agree on types, for no step
looks at a type to decide what comes next.
-/

namespace TypedPseudocode

open Code TypedPseudocode.Tree

namespace Lowering

/-! ## Nodes of other kinds -/

variable {σ ι : Type}

theorem resolveArray_of_kind {base : Expr} (h : base.kind ≠ .name) :
    (resolveArray base : LoweringWith σ ι VarId) =
      fail (.unexpectedKind ["Name"] base.label) base.line := by
  cases base with
  | name => exact absurd rfl h
  | _ => rfl

theorem callBuiltin_of_free (line nameLine : Nat) {name : String}
    (h : Builtin.isProvided name = false) (arguments : List TypedExpression) :
    (callBuiltin line nameLine name arguments : LoweringWith σ ι TypedExpression) =
      fail (.missingName name) nameLine := by
  have hlen : name ≠ "len" := by
    rintro rfl
    cases h
  have hfunction : Builtin.isFunction name = false := by
    simp only [Builtin.isProvided, Bool.or_eq_false_iff] at h
    exact h.1.1
  simp [callBuiltin, hlen, hfunction]

variable [Inhabited ι]

theorem lowerExpr_call_keywords (place : Place) (line : Nat) (func : Expr) (args : List Expr)
    (keyword : Keyword) (keywords : List Keyword) :
    (lowerExpr place (.call line func args (keyword :: keywords)) : LoweringWith σ ι _) =
      refuse .keywordArguments line := by
  unfold lowerExpr
  rfl

theorem lowerExpr_call_attribute (place : Place) (line inner : Nat) (target : Expr)
    (attr : String) (ctx : Context) (args : List Expr) :
    (lowerExpr place (.call line (.attribute inner target attr ctx) args []) :
        LoweringWith σ ι _) =
      if attr = "append" then
        match args with
        | [value] => do
            let v ← resolveArray target
            let value ← lowerExpr .operand value
            appendTo line v value
        | _ => fail .notOneArgument line
      else refuse (.methodCall attr) line := by
  conv_lhs => unfold lowerExpr
  rfl

theorem lowerExpr_call_of_kind (place : Place) (line : Nat) {func : Expr} (args : List Expr)
    (hname : func.kind ≠ .name) (hattribute : func.kind ≠ .attribute) :
    (lowerExpr place (.call line func args []) : LoweringWith σ ι _) =
      refuse (.callOf func.label) line := by
  cases func with
  | name => exact absurd rfl hname
  | «attribute» => exact absurd rfl hattribute
  | _ => simp [lowerExpr]

theorem lowerExpr_subscript_of_kind (place : Place) (line : Nat) (base : Expr) {key : Expr}
    (ctx : Context) (h : key.kind ≠ .slice) :
    lowerExpr place (.subscript line base key ctx) = (do
      requireName base
      let target ← lowerExpr .operand base
      let index ← lowerExpr .index key
      return .arrayElement target index target.ty.element : LoweringWith σ ι _) := by
  rw [lowerExpr]
  cases key with
  | slice => exact absurd rfl h
  | _ => rfl

theorem lowerExpr_of_standsBare {e : Expr} (h : e.standsBare = true) :
    lowerExpr .index e = (lowerExpr .operand e : LoweringWith σ ι _) := by
  cases e with
  | slice | index => cases h
  | call =>
      unfold lowerExpr
      rfl
  | other line kind =>
      cases kind with
      | extSlice => cases h
      | _ => simp [lowerExpr]
  | _ => simp only [lowerExpr]

theorem lowerExpr_unwrap (M : Recasting) (e : Expr) :
    lowerExpr .index (M.unwrap e) = (lowerExpr .index e : LoweringWith σ ι _) := by
  cases e with
  | index line value =>
      simp only [Recasting.unwrap]
      split
      · rename_i h
        rw [lowerExpr_of_standsBare (Bool.and_eq_true_iff.mp h).2]
        simp only [lowerExpr]
      · rfl
  | _ => rfl

/-! ## Steps in parallel -/

variable [IdSource σ ι]

def Any {α : Type} (_ _ : α) : Prop := True

/--
What relates the steps of two runs, the second of which is on a tree that is recast.
Names that are declared are allowed ones.
-/
structure Parallel (M : Recasting) (typed : Bool) (allowed : String → Prop)
    (P : ∀ {α : Type}, (α → α → Prop) → Lowering α → LoweringWith σ ι α → Prop) : Prop where
  pure {α : Type} {R : α → α → Prop} {a a' : α} (h : R a a') : P R (Pure.pure a) (Pure.pure a')
  bind {α β : Type} {R : α → α → Prop} {S : β → β → Prop} {step : Lowering α}
    {step' : LoweringWith σ ι α} {next : α → Lowering β} {next' : α → LoweringWith σ ι β} :
    P R step step' → (∀ a a', R a a' → P S (next a) (next' a')) →
      P S (step >>= next) (step' >>= next')
  fail {α : Type} {R : α → α → Prop} {fault fault' : Fault} (h : M.Words fault fault')
    (line : Nat) : P R (fail fault line) (fail fault' (M.lines line))
  /-- Types that are not compared may be at odds in one of the runs only. -/
  conflict {result result' : Except Ty.Conflict Ty} (h : typed = true → result = result')
    (site : Site) (line : Nat) :
    P (SameTy typed) (ofExcept (result.mapError (Diagnostic.conflict site · line)))
      (ofExcept (result'.mapError (Diagnostic.conflict site · (M.lines line))))
  tell (event : Event) (event' : Event ι) : P Any (tell event) (tell event')
  variableTy (v : VarId) : P (SameTy typed) (gets (·.tyOf v)) (gets (·.tyOf v))
  resultTy (p : ProcId) :
    P (SameTy typed) (gets fun t => (t.procAt p).ty) (gets fun t => (t.procAt p).ty)
  droppedName? (func : Expr) :
    P Eq (gets (droppedName? func)) (gets (droppedName? (func.recast M)))
  lookupVariable (name : String) (reach : Reach) (line : Nat) :
    P Eq (lookupVariable name reach line) (lookupVariable (M.names name) reach (M.lines line))
  lookupCalled (name : String) (reach : Reach) {arguments arguments' : List Ty}
    (h : typed = true → arguments = arguments') (line : Nat) :
    P Eq (lookupCalled name reach arguments line)
      (lookupCalled (M.names name) reach arguments' (M.lines line))
  constrainVariable (v : VarId) {ty ty' : Ty} (h : SameTy typed ty ty') (line : Nat) :
    P (SameTy typed) (constrainVariable v ty line) (constrainVariable v ty' (M.lines line))
  constrainProcedure (p : ProcId) {ty ty' : Ty} (h : SameTy typed ty ty') (line : Nat) :
    P (SameTy typed) (constrainProcedure p ty line) (constrainProcedure p ty' (M.lines line))
  declareVariable {name : String} (hname : allowed name) {stated stated' : Option Ty}
    (h : typed = true → stated = stated') (slot : Option Slot) :
    P Eq (declareVariable name stated slot)
      (declareVariable (M.names name) stated' (slot.map (·.rename M.names)))
  declareProcedure {name : Option String} (hname : ∀ named ∈ name, allowed named)
    (stated : Option Ty) :
    P Eq (declareProcedure name stated) (declareProcedure (name.map M.names) stated)
  define (p : ProcId) (parameters : List VarId) {body body' : List TypedStatement}
    (h : SameCode typed body body') :
    P Any (modify (·.define p parameters body)) (modify (·.define p parameters body'))
  inChildScope {α : Type} {R : α → α → Prop} {step : Lowering α} {step' : LoweringWith σ ι α} :
    P R step step' → P R (inChildScope step) (inChildScope step')

namespace Parallel

variable {M : Recasting} {typed : Bool} {allowed : String → Prop}
  {P : ∀ {α : Type}, (α → α → Prop) → Lowering α → LoweringWith σ ι α → Prop}
  {α β : Type} {R : α → α → Prop} {S : β → β → Prop} (h : Parallel M typed allowed P)
include h

theorem bindEq {step : Lowering α} {step' : LoweringWith σ ι α} {next : α → Lowering β}
    {next' : α → LoweringWith σ ι β} (hstep : P Eq step step')
    (hnext : ∀ a, P S (next a) (next' a)) : P S (step >>= next) (step' >>= next') := by
  refine h.bind hstep ?_
  rintro a _ rfl
  exact hnext a

theorem refuse (construct : Construct) (line : Nat) :
    P R (refuse construct line) (refuse construct (M.lines line)) :=
  h.fail (.refl M _) line

theorem ofExcept {result result' : Except Diagnostic α} (htallies : M.Tallies R result result') :
    P R (ofExcept result) (ofExcept result') := by
  cases result with
  | error d =>
      cases result' with
      | error d' =>
          obtain ⟨fault, line⟩ := d
          obtain ⟨fault', line'⟩ := d'
          obtain rfl : line' = M.lines line := htallies.line
          exact h.fail htallies.words line
      | ok a' => cases htallies
  | ok a =>
      cases result' with
      | error d' => cases htallies
      | ok a' => exact h.pure htallies

theorem readVariable (v : VarId) : P (SameExpr typed) (readVariable v) (readVariable v) := by
  refine h.bind (h.variableTy v) fun ty ty' hty => h.pure ?_
  rw [SameExpr, Expression.seen_read, Expression.seen_read, hty.seen_eq]

/-! ## Names and calls -/

theorem lowerOperator (op : Operator) (line : Nat) :
    P Eq (lowerOperator op line) (lowerOperator op (M.lines line)) := by
  unfold Lowering.lowerOperator
  cases binOp? op with
  | some op => exact h.pure rfl
  | none => exact h.refuse _ line

theorem lowerComparisons (line : Nat) (ops : List Comparison) :
    P Eq (lowerComparisons line ops) (lowerComparisons (M.lines line) ops) := by
  induction ops with
  | nil => exact h.pure rfl
  | cons op ops ih =>
      unfold Lowering.lowerComparisons
      cases comparison? op with
      | some op => exact h.bindEq ih fun _ => h.pure rfl
      | none => exact h.refuse _ line

theorem lowerName (line : Nat) (id : String) (ctx : Context) :
    P (SameExpr typed) (lowerName line id ctx) (lowerName (M.lines line) (M.names id) ctx) := by
  refine h.bindEq (h.lookupVariable id (reachOf ctx) line) fun found => ?_
  cases found with
  | some v => exact h.readVariable v
  | none =>
      simp only [M.names.variableTy?_eq]
      cases hty : Builtin.variableTy? id with
      | some ty =>
          have hfixed : M.names id = id :=
            M.names.provided id (by simp [Builtin.isProvided, hty])
          rw [hfixed]
          exact h.pure rfl
      | none => exact h.fail (M.words_name .missingName id rfl) line

theorem resolveArray (base : Expr) : P Eq (resolveArray base) (resolveArray (base.recast M)) := by
  by_cases hkind : base.kind = .name
  · cases base with
    | name line id ctx =>
        refine h.bindEq (h.lookupVariable id .enclosing line) fun found => ?_
        cases found with
        | some v => exact h.pure rfl
        | none =>
            simp only [M.names.variableTy?_eq]
            split
            · exact h.fail
                (M.words_name (fun id => .unsupported (.assignmentToBuiltin id)) id rfl) line
            · exact h.fail (M.words_name .missingName id rfl) line
    | _ => cases hkind
  · rw [resolveArray_of_kind hkind,
      resolveArray_of_kind (Expr.kind_recast_ne M hkind (by decide)), Expr.line_recast]
    exact h.fail (M.words_label (.unexpectedKind ["Name"]) base rfl) base.line

theorem requireName (e : Expr) : P Any (requireName e) (requireName (e.recast M)) := by
  refine h.ofExcept ?_
  simp only [Diagnostic.requireKind, List.mem_singleton, Expr.label_recast_eq_name_iff,
    Expr.line_recast]
  split
  · exact trivial
  · exact ⟨M.words_label (.unexpectedKind ["Name"]) e rfl, rfl⟩

theorem callBuiltin (line nameLine : Nat) (name : String)
    {arguments arguments' : List TypedExpression} (hargs : SameExprs typed arguments arguments') :
    P (SameExpr typed) (callBuiltin line nameLine name arguments)
      (callBuiltin (M.lines line) (M.lines nameLine) (M.names name) arguments') := by
  rcases M.names.fixed_or_free name with hfixed | ⟨hfree, hfree'⟩
  · rw [hfixed]
    unfold Lowering.callBuiltin
    by_cases hlen : name = "len"
    · simp only [hlen, if_true]
      rcases arguments with _ | ⟨e, _ | ⟨f, es⟩⟩
      · rw [hargs.eq_nil]
        exact h.fail (.refl M _) line
      · obtain ⟨e', es', rfl, he, hes⟩ := hargs.eq_cons
        rw [hes.eq_nil]
        exact h.pure (congrArg Expression.arrayLength he)
      · obtain ⟨e', _, rfl, -, hrest⟩ := hargs.eq_cons
        obtain ⟨f', es', rfl, -, -⟩ := hrest.eq_cons
        exact h.fail (.refl M _) line
    · simp only [hlen, if_false]
      split
      · refine h.bind (h.conflict (fun htyped => ?_) _ line) fun ty ty' hty => h.pure ?_
        · rw [hargs.tys htyped]
        · rw [SameExpr, Expression.seen_callBuiltin, Expression.seen_callBuiltin, hargs,
            hty.seen_eq]
      · exact h.fail (.refl M _) nameLine
  · rw [callBuiltin_of_free line nameLine hfree, callBuiltin_of_free _ _ hfree']
    exact h.fail (M.words_name .missingName name rfl) nameLine

theorem callName (line nameLine : Nat) (name : String)
    {arguments arguments' : List TypedExpression} (hargs : SameExprs typed arguments arguments') :
    P (SameExpr typed) (callName line nameLine name arguments)
      (callName (M.lines line) (M.lines nameLine) (M.names name) arguments') := by
  refine h.bindEq (h.lookupCalled name .enclosing hargs.tys nameLine) fun found => ?_
  cases found with
  | some p =>
      refine h.bind (h.resultTy p) fun ty ty' hty => h.pure ?_
      rw [SameExpr, Expression.seen_call, Expression.seen_call, hargs, hty.seen_eq]
  | none => exact h.callBuiltin line nameLine name hargs

theorem appendTo (line : Nat) (v : VarId) {value value' : TypedExpression}
    (hvalue : SameExpr typed value value') :
    P (SameExpr typed) (appendTo line v value) (appendTo (M.lines line) v value') := by
  refine h.bind (h.constrainVariable v (hvalue.ty.map .array) line) fun _ _ _ => ?_
  refine h.bind (h.readVariable v) fun target target' htarget => h.pure ?_
  rw [SameExpr] at hvalue htarget ⊢
  simp [hvalue, htarget]

/-! ## Expressions -/

theorem aggregate (line : Nat) {elements elements' : List TypedExpression}
    (helements : SameExprs typed elements elements') :
    P (SameExpr typed) (aggregate line elements) (aggregate (M.lines line) elements') := by
  refine h.bind (h.conflict (fun htyped => ?_) _ line) fun ty ty' hty => h.pure ?_
  · rw [helements.tys htyped]
  · rw [SameExpr, Expression.seen_aggregate, Expression.seen_aggregate, helements,
      (hty.map .array).seen_eq]

theorem connect (line : Nat) (op : BinOp) {operands operands' : List TypedExpression}
    (hoperands : SameExprs typed operands operands') :
    P (SameExpr typed) (connect line op operands) (connect (M.lines line) op operands') := by
  unfold Lowering.connect
  obtain ⟨hnone, hnone'⟩ | ⟨e, e', hsome, hsome', he⟩ := same_of_map_seen (hoperands.chain? op)
  · simp only [hnone, hnone']
    exact h.fail (.refl M _) line
  · simp only [hsome, hsome']
    exact h.pure he

theorem compareAll (line : Nat) (ops : List BinOp) {operands operands' : List TypedExpression}
    (hoperands : SameExprs typed operands operands') :
    P (SameExpr typed) (compareAll line ops operands)
      (compareAll (M.lines line) ops operands') := by
  unfold Lowering.compareAll
  obtain ⟨hnone, hnone'⟩ | ⟨e, e', hsome, hsome', he⟩ :=
    same_of_map_seen ((hoperands.comparisons ops).chain? .and)
  · simp only [hnone, hnone']
    exact h.fail (.refl M _) line
  · simp only [hsome, hsome']
    exact h.pure he

theorem slice (place : Place) (line inner : Nat) {base : Expr} (lower upper step : Option Expr)
    (ctx : Context)
    (hbase : P (SameExpr typed) (Lowering.lowerExpr .operand base)
      (Lowering.lowerExpr .operand (base.recast M))) :
    P (SameExpr typed)
      (Lowering.lowerExpr place (.subscript line base (.slice inner lower upper step) ctx))
      (Lowering.lowerExpr place
        ((Expr.subscript line base (.slice inner lower upper step) ctx).recast M)) := by
  simp only [Expr.recast, Recasting.unwrap, Lowering.lowerExpr]
  refine h.bind (h.requireName base) fun _ _ _ => ?_
  refine h.bind hbase fun target target' htarget => ?_
  cases lower with
  | some _ => exact h.refuse _ inner
  | none =>
      cases upper with
      | some _ => exact h.refuse _ inner
      | none =>
          cases step with
          | some _ => exact h.refuse _ inner
          | none => exact h.pure htarget

theorem subscript (place : Place) (line : Nat) {base key : Expr} (ctx : Context)
    (hbase : P (SameExpr typed) (Lowering.lowerExpr .operand base)
      (Lowering.lowerExpr .operand (base.recast M)))
    (hkey : P (SameExpr typed) (Lowering.lowerExpr .index key)
      (Lowering.lowerExpr .index (key.recast M))) :
    P (SameExpr typed) (Lowering.lowerExpr place (.subscript line base key ctx))
      (Lowering.lowerExpr place ((Expr.subscript line base key ctx).recast M)) := by
  by_cases hkind : key.kind = .slice
  · cases key with
    | slice inner lower upper step => exact h.slice place line inner lower upper step ctx hbase
    | _ => cases hkind
  · rw [Expr.recast, lowerExpr_subscript_of_kind place line base ctx hkind,
      lowerExpr_subscript_of_kind place _ _ ctx (Expr.kind_unwrap_ne_slice M
        (Expr.kind_recast_ne M hkind (by decide)))]
    refine h.bind (h.requireName base) fun _ _ _ => ?_
    refine h.bind hbase fun target target' htarget => ?_
    rw [lowerExpr_unwrap]
    refine h.bind hkey fun index index' hindex => h.pure ?_
    have hty := (htarget.ty.map Ty.element).seen_eq
    rw [SameExpr] at htarget hindex ⊢
    simp [htarget, hindex, hty]

mutual

theorem lowerExpr (e : Expr) (place : Place) :
    P (SameExpr typed) (lowerExpr place e) (lowerExpr place (e.recast M)) := by
  cases e with
  | name line id ctx =>
      simp only [Expr.recast, Lowering.lowerExpr]
      exact h.lowerName line id ctx
  | constant line value =>
      simp only [Expr.recast, Lowering.lowerExpr]
      exact h.pure rfl
  | num line value | nameConstant line value | str line value =>
      simp only [Expr.recast, Recasting.literal]
      split <;> (simp only [Lowering.lowerExpr]; exact h.pure rfl)
  | list line elements ctx | tuple line elements ctx =>
      simp only [Expr.recast, Lowering.lowerExpr]
      exact h.bind (lowerExprs elements) fun _ _ helements => h.aggregate line helements
  | binOp line left op right =>
      simp only [Expr.recast, Lowering.lowerExpr]
      refine h.bindEq (h.lowerOperator op line) fun op => ?_
      refine h.bind (lowerExpr left .operand) fun l l' hl => ?_
      refine h.bind (lowerExpr right .operand) fun r r' hr => h.pure ?_
      have hty := (hl.ty.map₂ hr.ty op.resultTy).seen_eq
      rw [SameExpr] at hl hr ⊢
      simp [hl, hr, hty]
  | boolOp line op values =>
      simp only [Expr.recast, Lowering.lowerExpr]
      exact h.bind (lowerExprs values) fun _ _ hvalues => h.connect line _ hvalues
  | compare line left ops comparators =>
      have hleft := lowerExpr left .operand
      have hcomparators := lowerExprs comparators
      simp only [Expr.recast, Lowering.lowerExpr, Expr.length_recastAll]
      split
      · exact h.fail (.refl M _) line
      · refine h.bindEq (h.lowerComparisons line ops) fun ops => ?_
        refine h.bind hleft fun first first' hfirst => ?_
        exact h.bind hcomparators fun _ _ hrest => h.compareAll line ops (.cons hfirst hrest)
  | unaryOp line op operand =>
      simp only [Expr.recast, Lowering.lowerExpr]
      refine h.bind (lowerExpr operand .operand) fun x x' hx => ?_
      have hunary (op : UnOp) : SameExpr typed (.unary op x x.ty) (.unary op x' x'.ty) :=
        congrArg₂ (Expression.unary op) hx hx.ty.seen_eq
      cases op with
      | plus => exact h.pure hx
      | not => exact h.pure (hunary .not)
      | minus => exact h.pure (hunary .neg)
      | invert => exact h.refuse _ line
  | call line func args keywords =>
      have hargs := lowerExprs args
      rw [Expr.recast]
      cases keywords with
      | cons keyword keywords =>
          rw [lowerExpr_call_keywords, lowerExpr_call_keywords]
          exact h.refuse _ line
      | nil =>
          by_cases hname : func.kind = .name
          · cases func with
            | name nameLine id ctx =>
                simp only [Expr.recast, Lowering.lowerExpr]
                exact h.bind hargs fun _ _ hsame => h.callName line nameLine id hsame
            | _ => cases hname
          · by_cases hattribute : func.kind = .attribute
            · cases func with
              | «attribute» inner target attr ctx =>
                  rw [Expr.recast, lowerExpr_call_attribute, lowerExpr_call_attribute]
                  split
                  · match args with
                    | [value] =>
                        refine h.bindEq (h.resolveArray target) fun v => ?_
                        refine h.bind (lowerExpr value .operand) fun _ _ hvalue => ?_
                        exact h.appendTo line v hvalue
                    | [] | _ :: _ :: _ => exact h.fail (.refl M _) line
                  · exact h.refuse _ line
              | _ => cases hattribute
            · rw [lowerExpr_call_of_kind place line args hname hattribute,
                lowerExpr_call_of_kind place _ _ (Expr.kind_recast_ne M hname (by decide))
                  (Expr.kind_recast_ne M hattribute (by decide))]
              exact h.fail
                (M.words_label (fun label => .unsupported (.callOf label)) func rfl) line
  | subscript line base key ctx =>
      exact h.subscript place line ctx (lowerExpr base .operand) (lowerExpr key .index)
  | «attribute» line value attr ctx =>
      simp only [Expr.recast, Lowering.lowerExpr]
      exact h.refuse _ line
  | index line value =>
      simp only [Expr.recast, Lowering.lowerExpr]
      cases place with
      | index => exact lowerExpr value .operand
      | operand => exact h.refuse _ line
  | slice line lower upper step =>
      simp only [Expr.recast, Lowering.lowerExpr]
      cases place <;> exact h.refuse _ line
  | other line kind =>
      simp only [Expr.recast, Lowering.lowerExpr]
      split <;> exact h.refuse _ line

theorem lowerExprs (es : List Expr) :
    P (SameExprs typed) (lowerExprs es) (lowerExprs (Expr.recastAll M es)) := by
  cases es with
  | nil =>
      simp only [Expr.recastAll, Lowering.lowerExprs]
      exact h.pure rfl
  | cons e es =>
      simp only [Expr.recastAll, Lowering.lowerExprs]
      refine h.bind (lowerExpr e .operand) fun first first' hfirst => ?_
      exact h.bind (lowerExprs es) fun rest rest' hrest => h.pure (.cons hfirst hrest)

end

theorem lowerIndex (key : Expr) :
    P (SameExpr typed) (lowerIndex key) (lowerIndex (M.unwrap (key.recast M))) := by
  unfold Lowering.lowerIndex
  rw [lowerExpr_unwrap]
  exact h.lowerExpr key .index

end Parallel

end Lowering

end TypedPseudocode
