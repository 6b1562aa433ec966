import TypedPseudocode.Proofs.Mentions
import TypedPseudocode.Proofs.Runs

/-!
Blame: which of the names in the source a missing name is blamed on.

Only looking up a name can show that it is missing.  So a missing name is always
one that the source needs, on the line that is reported, and if it was looked
for in all enclosing scopes then none of the scopes that are left binds it.
-/

namespace TypedPseudocode

open Code TypedPseudocode.Tree

namespace Lowering

def reachOfUse : Use → Reach
  | .value ctx => reachOf ctx
  | .callee | .array => .enclosing
  | .augmented => .innermost

/-! ## Blame -/

variable {α β : Type} {mentions mentions' : List Mention} {t t' : Table}

/--
If a step fails for want of a name, one of the mentions is to blame.  Where the
name was looked for in all enclosing scopes, it still is in none of them.
-/
def Blames (mentions : List Mention) (step : Lowering α) (t : Table) : Prop :=
  ∀ name line, (step t).result = .error ⟨.missingName name, line⟩ →
    ∃ m ∈ mentions, m.name = name ∧ m.line = line ∧
      (reachOfUse m.use = .enclosing → (step t).table.lookup name .enclosing = none)

theorem Blames.mono {step : Lowering α} (h : Blames mentions step t)
    (hsubset : mentions ⊆ mentions') : Blames mentions' step t := by
  intro name line hfails
  obtain ⟨m, hm, hrest⟩ := h name line hfails
  exact ⟨m, hsubset hm, hrest⟩

theorem Blames.bind {step : Lowering α} {next : α → Lowering β} (h : Blames mentions step t)
    (h' : ∀ a t', Yields step t a t' → Blames mentions (next a) t') :
    Blames mentions (step >>= next) t := by
  rcases hstep : step t with ⟨result, t', events⟩
  intro name line hfails
  cases result with
  | error d =>
      rw [bind_run_error hstep] at hfails ⊢
      have hblame := h name line
      rw [hstep] at hblame
      exact hblame (congrArg Except.error (Except.error.inj hfails))
  | ok a =>
      rw [bind_run_ok hstep] at hfails ⊢
      exact h' a t' ⟨by rw [hstep], by rw [hstep]⟩ name line hfails

theorem Blames.andThen {step : Lowering α} {next : α → Lowering β} (h : Blames mentions step t)
    (h' : ∀ a t', Blames mentions' (next a) t') :
    Blames (mentions ++ mentions') (step >>= next) t :=
  (h.mono (List.subset_append_left _ _)).bind fun a t' _ =>
    (h' a t').mono (List.subset_append_right _ _)

/-- A step that never misses a name. -/
def Blameless (step : Lowering α) : Prop :=
  ∀ t name line, (step t).result ≠ .error ⟨.missingName name, line⟩

theorem Blameless.blames {step : Lowering α} (h : Blameless step) : Blames mentions step t :=
  fun name line hfails => absurd hfails (h t name line)

theorem Blameless.bind {step : Lowering α} {next : α → Lowering β} (h : Blameless step)
    (h' : ∀ a, Blameless (next a)) : Blameless (step >>= next) := by
  intro t name line hfails
  rcases hstep : step t with ⟨result, t', events⟩
  cases result with
  | error d =>
      rw [bind_run_error hstep] at hfails
      have hblame := h t name line
      rw [hstep] at hblame
      exact hblame (congrArg Except.error (Except.error.inj hfails))
  | ok a =>
      rw [bind_run_ok hstep] at hfails
      exact h' a t' name line hfails

theorem Blameless.andThen {step : Lowering α} {next : α → Lowering β} (h : Blameless step)
    (h' : ∀ a t', Blames mentions (next a) t') : Blames mentions (step >>= next) t :=
  h.blames.bind fun a t' _ => h' a t'

theorem Blames.finish {step : Lowering α} {next : α → Lowering β} (h : Blames mentions step t)
    (h' : ∀ a, Blameless (next a)) : Blames mentions (step >>= next) t :=
  h.bind fun a _ _ => (h' a).blames

section Elementary

theorem blameless_of_ok {step : Lowering α} (h : ∀ t, ∃ a, (step t).result = .ok a) :
    Blameless step := by
  intro t name line hfails
  obtain ⟨a, ha⟩ := h t
  rw [ha] at hfails
  cases hfails

theorem blameless_pure (a : α) : Blameless (Pure.pure a : Lowering α) :=
  blameless_of_ok fun _ => ⟨_, rfl⟩

theorem blameless_fail {fault : Fault} (h : fault.kind ≠ .missingName) (line : Nat) :
    Blameless (fail fault line : Lowering α) := by
  intro t name line' hfails
  have hfault : fault = .missingName name :=
    congrArg Diagnostic.fault (Except.error.inj hfails)
  rw [hfault] at h
  exact h rfl

theorem blameless_refuse (construct : Construct) (line : Nat) :
    Blameless (refuse construct line : Lowering α) :=
  blameless_fail (by simp [Fault.kind]) line

theorem blameless_gets (f : Table → α) : Blameless (gets f) :=
  blameless_of_ok fun _ => ⟨_, rfl⟩

theorem blameless_tell (event : Event) : Blameless (tell event) :=
  blameless_of_ok fun _ => ⟨_, rfl⟩

theorem blameless_modify (f : Table → Table) : Blameless (modify f) :=
  blameless_of_ok fun _ => ⟨_, rfl⟩

theorem blameless_readVariable (v : VarId) : Blameless (readVariable v) :=
  blameless_of_ok fun _ => ⟨_, rfl⟩

theorem blameless_declareVariable (name : String) (stated : Option Ty) (slot : Option Slot) :
    Blameless (declareVariable name stated slot) :=
  blameless_of_ok fun _ => ⟨_, rfl⟩

theorem blameless_declareProcedure (name : Option String) (stated : Option Ty) :
    Blameless (declareProcedure name stated) :=
  blameless_of_ok fun _ => ⟨_, rfl⟩

theorem blameless_ofExcept {result : Except Diagnostic α}
    (h : ∀ d, result = .error d → d.kind ≠ .missingName) : Blameless (ofExcept result) :=
  fun _ _ _ hfails => h _ hfails rfl

theorem blameless_lookupVariable (name : String) (reach : Reach) (line : Nat) :
    Blameless (lookupVariable name reach line) := by
  intro t
  simp only [lookupVariable, Table.lookupVariable]
  rcases t.lookup name reach with _ | p | v <;> simp

theorem blameless_lookupCalled (name : String) (reach : Reach) (arguments : List Ty)
    (line : Nat) : Blameless (lookupCalled name reach arguments line) := by
  intro t
  simp only [lookupCalled, Table.lookupCalled]
  rcases t.lookup name reach with _ | p | v <;> simp

theorem blameless_constrainVariable (v : VarId) (ty : Ty) (line : Nat) :
    Blameless (constrainVariable v ty line) := by
  intro t
  simp only [constrainVariable, ofTable, Table.constrainVariable_eq]
  cases (t.tyOf v).unify ty <;> simp [Diagnostic.conflict]

theorem blameless_constrainProcedure (p : ProcId) (ty : Ty) (line : Nat) :
    Blameless (constrainProcedure p ty line) := by
  intro t
  simp only [constrainProcedure, ofTable, Table.constrainProcedure]
  cases (t.procAt p).ty.unify ty <;> simp [Diagnostic.conflict]

theorem lookup_leave_eq_none {name : String} (h : t.lookup name .enclosing = none) :
    t.leave.lookup name .enclosing = none := by
  unfold Table.leave
  split
  · exact h
  · rename_i scope outer houter
    simp only [Table.lookup, houter, List.findSome?_cons] at h ⊢
    split at h
    · cases h
    · exact h

theorem blames_inChildScope {step : Lowering α} (h : Blames mentions step t.enter) :
    Blames mentions (inChildScope step) t := by
  intro name line hfails
  obtain ⟨m, hm, hname, hline, hnone⟩ := h name line hfails
  exact ⟨m, hm, hname, hline, fun hreach => lookup_leave_eq_none (hnone hreach)⟩

end Elementary

/-! ## Types -/

theorem kind_of_mapError {ε : Type} {result : Except ε α} {f : ε → Diagnostic} {d : Diagnostic}
    (hf : ∀ e, (f e).kind ≠ .missingName) (h : result.mapError f = .error d) :
    d.kind ≠ .missingName := by
  cases result with
  | ok a => cases h
  | error e =>
      cases h
      exact hf e

theorem kind_of_map {result : Except Diagnostic α} {f : α → β} {d : Diagnostic}
    (hresult : ∀ {d}, result = .error d → d.kind ≠ .missingName)
    (h : result.map f = .error d) : d.kind ≠ .missingName := by
  cases result with
  | ok a => cases h
  | error e =>
      cases h
      exact hresult rfl

theorem kind_of_hintTy {e : Expr} {d : Diagnostic} (h : Builtin.hintTy e = .error d) :
    d.kind ≠ .missingName := by
  fun_induction Builtin.hintTy e generalizing d with
  | case1 => cases h
  | case2 =>
      cases h
      exact Fault.Kind.noConfusion
  | case3 => cases h
  | case4 => cases h
  | case5 _ _ _ _ _ _ _ ih => exact kind_of_map ih h
  | case6 _ _ _ _ _ _ hplain ih =>
      split at h
      · exact (hplain _ _ rfl rfl HEq.rfl).elim
      · exact kind_of_map ih h
  | case7 =>
      cases h
      exact Fault.Kind.noConfusion
  | case8 =>
      cases h
      exact Fault.Kind.noConfusion

theorem kind_of_hintTy? {hint : Option Expr} {d : Diagnostic}
    (h : Builtin.hintTy? hint = .error d) : d.kind ≠ .missingName := by
  cases hint with
  | none => cases h
  | some e => exact kind_of_map kind_of_hintTy h

/-! ## Expressions -/

theorem blameless_lowerOperator (op : Operator) (line : Nat) :
    Blameless (lowerOperator op line) := by
  unfold lowerOperator
  split
  · exact blameless_pure _
  · exact blameless_refuse _ _

theorem blameless_lowerComparisons (line : Nat) (ops : List Comparison) :
    Blameless (lowerComparisons line ops) := by
  induction ops with
  | nil => exact blameless_pure _
  | cons op ops ih =>
      simp only [lowerComparisons]
      split
      · exact ih.bind fun _ => blameless_pure _
      · exact blameless_refuse _ _

theorem blames_lowerName (line : Nat) (id : String) (ctx : Context) :
    Blames [⟨id, line, .value ctx⟩] (lowerName line id ctx) t := by
  refine (blameless_lookupVariable id (reachOf ctx) line).blames.bind fun found t' hfound => ?_
  obtain ⟨hlookup, rfl⟩ := yields_lookupVariable.mp hfound
  cases found with
  | some v => exact (blameless_readVariable v).blames
  | none =>
      simp only
      split
      · exact (blameless_pure _).blames
      · rintro name line' hfails
        cases hfails
        refine ⟨_, List.mem_singleton_self _, rfl, rfl, fun hreach => ?_⟩
        replace hreach : reachOf ctx = .enclosing := hreach
        rwa [hreach] at hlookup

theorem blames_resolveArray (base : Expr) :
    Blames base.arrayMentions (resolveArray base) t := by
  cases base with
  | name line id ctx =>
      refine (blameless_lookupVariable id .enclosing line).blames.bind fun found t' hfound => ?_
      obtain ⟨hlookup, rfl⟩ := yields_lookupVariable.mp hfound
      cases found with
      | some v => exact (blameless_pure v).blames
      | none =>
          simp only
          split
          · exact (blameless_refuse _ _).blames
          · rintro name line' hfails
            cases hfails
            exact ⟨_, List.mem_singleton_self _, rfl, rfl, fun _ => hlookup⟩
  | _ => exact (blameless_fail (by simp [Fault.kind]) _).blames

theorem blames_callName (line nameLine : Nat) (name : String)
    (arguments : List TypedExpression) :
    Blames [⟨name, nameLine, .callee⟩] (callName line nameLine name arguments) t := by
  refine (blameless_lookupCalled _ _ _ _).blames.bind fun found t' hfound => ?_
  obtain ⟨hlookup, rfl⟩ := yields_lookupCalled.mp hfound
  cases found with
  | some p => exact ((blameless_gets _).bind fun _ => blameless_pure _).blames
  | none =>
      simp only [callBuiltin]
      split
      · split
        · exact (blameless_pure _).blames
        · exact (blameless_fail (by simp [Fault.kind]) _).blames
      · split
        · refine Blameless.blames (.bind (blameless_ofExcept fun d => ?_)
            fun _ => blameless_pure _)
          exact kind_of_mapError fun _ => Fault.Kind.noConfusion
        · rintro name' line' hfails
          cases hfails
          exact ⟨_, List.mem_singleton_self _, rfl, rfl, fun _ => hlookup⟩

theorem blameless_appendTo (line : Nat) (v : VarId) (value : TypedExpression) :
    Blameless (appendTo line v value) :=
  (blameless_constrainVariable v _ line).bind fun _ =>
    (blameless_readVariable v).bind fun _ => blameless_pure _

theorem blameless_aggregate (line : Nat) (elements : List TypedExpression) :
    Blameless (aggregate line elements) := by
  refine .bind (blameless_ofExcept fun d => ?_) fun _ => blameless_pure _
  exact kind_of_mapError fun _ => Fault.Kind.noConfusion

theorem blameless_connect (line : Nat) (op : BinOp) (operands : List TypedExpression) :
    Blameless (connect line op operands) := by
  unfold connect
  split
  · exact blameless_pure _
  · exact blameless_fail (by simp [Fault.kind]) _

theorem blameless_compareAll (line : Nat) (ops : List BinOp) (operands : List TypedExpression) :
    Blameless (compareAll line ops operands) := by
  unfold compareAll
  split
  · exact blameless_pure _
  · exact blameless_fail (by simp [Fault.kind]) _

theorem blameless_requireName (e : Expr) : Blameless (requireName e) := by
  refine blameless_ofExcept fun d h => ?_
  unfold Diagnostic.requireKind at h
  split at h
  · cases h
  · cases h
    exact Fault.Kind.noConfusion

mutual

theorem blames_lowerExpr (e : Expr) (place : Place) {t : Table} :
    Blames e.mentions (lowerExpr place e) t := by
  cases e with
  | name line id ctx =>
      rw [lowerExpr]
      exact blames_lowerName line id ctx
  | constant line value =>
      rw [lowerExpr]
      exact (blameless_pure _).blames
  | num line value =>
      rw [lowerExpr]
      exact (blameless_pure _).blames
  | nameConstant line value =>
      rw [lowerExpr]
      exact (blameless_pure _).blames
  | str line text =>
      rw [lowerExpr]
      exact (blameless_pure _).blames
  | list line elements ctx =>
      rw [lowerExpr]
      exact (blames_lowerExprs elements).finish fun _ => blameless_aggregate _ _
  | tuple line elements ctx =>
      rw [lowerExpr]
      exact (blames_lowerExprs elements).finish fun _ => blameless_aggregate _ _
  | binOp line left op right =>
      rw [lowerExpr]
      refine (blameless_lowerOperator op line).andThen fun op t' => ?_
      refine (blames_lowerExpr left .operand).andThen fun left t' => ?_
      exact (blames_lowerExpr right .operand).finish fun right => blameless_pure _
  | boolOp line op values =>
      rw [lowerExpr]
      exact (blames_lowerExprs values).finish fun _ => blameless_connect _ _ _
  | compare line left ops comparators =>
      rw [lowerExpr]
      split
      · exact (blameless_fail (by simp [Fault.kind]) _).blames
      · refine (blameless_lowerComparisons line ops).andThen fun ops t' => ?_
        refine (blames_lowerExpr left .operand).andThen fun first t' => ?_
        exact (blames_lowerExprs comparators).finish fun _ => blameless_compareAll _ _ _
  | unaryOp line op operand =>
      rw [lowerExpr]
      refine (blames_lowerExpr operand .operand).finish fun operand => ?_
      cases op with
      | invert => exact blameless_refuse _ _
      | _ => exact blameless_pure _
  | call line func args keywords =>
      unfold lowerExpr
      split
      · split
        · exact (blames_lowerExprs args).andThen fun _ _ => blames_callName _ _ _ _
        · split
          · rename_i happend
            match args with
            | [value] =>
                simp only [Expr.mentions, Expr.methodMentions, if_pos happend, Expr.mentionsAll,
                  List.append_nil]
                refine (blames_resolveArray _).andThen fun v t' => ?_
                exact (blames_lowerExpr value .operand).finish fun _ => blameless_appendTo _ _ _
            | [] | _ :: _ :: _ => exact (blameless_fail (by simp [Fault.kind]) _).blames
          · exact (blameless_refuse _ _).blames
        · exact (blameless_refuse _ _).blames
      · exact (blameless_refuse _ _).blames
  | subscript line base slice ctx =>
      rw [lowerExpr]
      refine (blameless_requireName base).andThen fun _ t' => ?_
      refine (blames_lowerExpr base .operand).andThen fun target t' => ?_
      split
      · exact (blameless_pure _).blames
      · exact (blameless_refuse _ _).blames
      · exact (blames_lowerExpr slice .index).finish fun _ => blameless_pure _
  | «attribute» line value attr ctx =>
      rw [lowerExpr]
      exact (blameless_refuse _ _).blames
  | index line value =>
      simp only [lowerExpr]
      cases place with
      | index => exact blames_lowerExpr value .operand
      | operand => exact (blameless_refuse _ _).blames
  | slice line lower upper step =>
      simp only [lowerExpr]
      cases place <;> exact (blameless_refuse _ _).blames
  | other line kind =>
      rw [lowerExpr]
      split <;> exact (blameless_refuse _ _).blames

theorem blames_lowerExprs (es : List Expr) {t : Table} :
    Blames (Expr.mentionsAll es) (lowerExprs es) t := by
  cases es with
  | nil =>
      rw [lowerExprs]
      exact (blameless_pure _).blames
  | cons e es =>
      rw [lowerExprs]
      refine (blames_lowerExpr e .operand).andThen fun first t' => ?_
      exact (blames_lowerExprs es).finish fun rest => blameless_pure _

end

/-! ## Assignments -/

theorem blameless_bindName (line : Nat) (name : String) (ty : Ty) :
    Blameless (bindName line name ty) := by
  refine (blameless_lookupVariable name .innermost line).bind fun found => ?_
  cases found with
  | some v => exact (blameless_constrainVariable v ty line).bind fun _ => blameless_pure _
  | none => exact (blameless_declareVariable _ _ _).bind fun _ => blameless_pure _

theorem blames_assignTo (value : TypedExpression) (target : Expr) :
    Blames target.targetMentions (assignTo value target) t := by
  cases target with
  | name line id ctx =>
      exact ((blameless_bindName line id value.ty).bind fun _ => blameless_pure _).blames
  | subscript line base slice ctx =>
      refine (blames_resolveArray base).andThen fun v t' => ?_
      refine (blames_lowerExpr slice .index).finish fun index => ?_
      exact (blameless_constrainVariable v _ line).bind fun _ => blameless_pure _
  | _ => exact (blameless_fail (by simp [Fault.kind]) _).blames

theorem blameless_elementsFor (line count : Nat) (value : Expr) :
    Blameless (elementsFor line count value) := by
  unfold elementsFor
  split
  · exact blameless_refuse _ _
  · split
    · exact blameless_pure _
    · exact blameless_fail (by simp [Fault.kind]) _

theorem mentions_of_elements {value : Expr} {values : List Expr}
    (h : value.elements? = some values) : Expr.mentionsAll values = value.mentions := by
  cases value with
  | list line elements ctx =>
      obtain rfl := Option.some.inj h
      simp only [Expr.mentions]
  | tuple line elements ctx =>
      obtain rfl := Option.some.inj h
      simp only [Expr.mentions]
  | _ => cases h

theorem blames_pattern {line : Nat} {targets : List Expr} {value : Expr}
    (h : ∀ values t, Blames (Expr.targetMentionsAll targets ++ Expr.mentionsAll values)
      (unpackEach targets values) t) :
    Blames (Expr.targetMentionsAll targets ++ value.mentions)
      (elementsFor line targets.length value >>= unpackEach targets) t := by
  refine (blameless_elementsFor line targets.length value).blames.bind fun values t' hvalues => ?_
  rw [← mentions_of_elements (elementsFor_yields hvalues).2.1]
  exact h values t'

mutual

theorem blames_unpack (target value : Expr) {t : Table} :
    Blames (target.targetMentions ++ value.mentions) (unpack target value) t := by
  cases target with
  | list line targets ctx =>
      simp only [unpack, Expr.targetMentions]
      exact blames_pattern fun values t => blames_unpackEach targets values
  | tuple line targets ctx =>
      simp only [unpack, Expr.targetMentions]
      exact blames_pattern fun values t => blames_unpackEach targets values
  | _ =>
      simp only [unpack]
      refine ((blames_lowerExpr value .operand).mono (List.subset_append_right _ _)).bind
        fun x t' _ => ?_
      exact (blames_assignTo x _).mono (List.subset_append_left _ _)

theorem blames_unpackEach (targets values : List Expr) {t : Table} :
    Blames (Expr.targetMentionsAll targets ++ Expr.mentionsAll values)
      (unpackEach targets values) t := by
  cases targets with
  | nil =>
      simp only [unpackEach]
      exact (blameless_pure _).blames
  | cons target targets =>
      cases values with
      | nil =>
          simp only [unpackEach]
          exact (blameless_pure _).blames
      | cons value values =>
          simp only [unpackEach, Expr.targetMentionsAll, Expr.mentionsAll]
          refine ((blames_unpack target value).mono ?_).bind fun first t' _ => ?_
          · intro m hm
            grind
          · refine ((blames_unpackEach targets values).mono ?_).finish fun _ => blameless_pure _
            intro m hm
            grind

end

theorem blames_assignAll (value : Expr) (targets : List Expr)
    (lowered : Option TypedExpression) :
    Blames (Expr.targetMentionsAll targets ++ value.mentions)
      (assignAll value targets lowered) t := by
  induction targets generalizing lowered t with
  | nil => exact (blameless_pure _).blames
  | cons target targets ih =>
      have hfirst : target.targetMentions ++ value.mentions ⊆
          Expr.targetMentionsAll (target :: targets) ++ value.mentions := by
        intro m hm
        grind [Expr.targetMentionsAll]
      have hrest : Expr.targetMentionsAll targets ++ value.mentions ⊆
          Expr.targetMentionsAll (target :: targets) ++ value.mentions := by
        intro m hm
        grind [Expr.targetMentionsAll]
      simp only [assignAll]
      split
      · refine ((blames_unpack target value).mono hfirst).bind fun first t' _ => ?_
        exact ((ih lowered).mono hrest).finish fun _ => blameless_pure _
      · have hassign (e : TypedExpression) (t : Table) :
            Blames (Expr.targetMentionsAll (target :: targets) ++ value.mentions) (do
              let first ← assignTo e target
              let rest ← assignAll value targets (some e)
              return first ++ rest) t := by
          refine ((blames_assignTo e target).mono ?_).bind fun first t' _ => ?_
          · exact List.Subset.trans (List.subset_append_left _ _) hfirst
          · exact ((ih (some e)).mono hrest).finish fun _ => blameless_pure _
        cases lowered with
        | some e => exact (blameless_pure e).andThen hassign
        | none =>
            refine ((blames_lowerExpr value .operand).mono ?_).bind fun e t' _ => hassign e t'
            exact List.subset_append_right _ _

theorem blames_augment (op : Operator) (value target : Expr) :
    Blames (target.augmentedMentions ++ value.mentions) (augment op value target) t := by
  refine (blameless_lowerOperator op target.line).andThen fun op t => ?_
  cases target with
  | name line id ctx =>
      refine (blameless_lookupVariable id .innermost line).andThen fun found t' => ?_
      cases found with
      | none =>
          rintro name line' hfails
          cases hfails
          exact ⟨⟨id, line, .augmented⟩, by simp [Expr.augmentedMentions], rfl, rfl,
            Reach.noConfusion⟩
      | some v =>
          refine (blameless_readVariable v).andThen fun current t' => ?_
          refine ((blames_lowerExpr value .operand).mono (List.subset_append_right _ _)).finish
            fun x => ?_
          exact (blameless_constrainVariable v _ line).bind fun _ => blameless_pure _
  | subscript line base slice ctx =>
      simp only [Expr.augmentedMentions, Expr.targetMentions, List.append_assoc]
      refine (blames_resolveArray base).andThen fun v t' => ?_
      refine (blames_lowerExpr slice .index).andThen fun index t' => ?_
      refine (blames_lowerExpr value .operand).finish fun x => ?_
      refine (blameless_readVariable v).bind fun array => ?_
      exact (blameless_constrainVariable v _ line).bind fun _ => blameless_pure _
  | _ => exact (blameless_fail (by simp [Fault.kind]) _).blames

theorem blames_assignHinted (target typeHint : Expr) (value : Option Expr) :
    Blames ((value.map Expr.mentions).getD []) (assignHinted target typeHint value) t := by
  refine (blameless_ofExcept fun d => kind_of_hintTy).andThen fun ty t' => ?_
  cases target with
  | name line id ctx =>
      refine (blameless_bindName line id ty).andThen fun (v, declaration) t' => ?_
      cases value with
      | none => exact (blameless_pure _).blames
      | some value =>
          refine (blames_lowerExpr value .operand).finish fun e => ?_
          exact (blameless_constrainVariable v _ _).bind fun _ => blameless_pure _
  | _ => exact (blameless_refuse _ _).blames

/-! ## Other statements -/

theorem blameless_standAlone (line : Nat) (e : TypedExpression) :
    Blameless (standAlone line e) := by
  unfold standAlone
  split
  · exact blameless_pure _
  · split
    · exact blameless_pure _
    · exact blameless_refuse _ _
  · exact blameless_refuse _ _

theorem blames_lowerStandAlone (line : Nat) (e : Expr) :
    Blames e.mentions (lowerStandAlone line e) t := by
  unfold lowerStandAlone
  split
  · exact (blameless_pure _).blames
  · exact (blameless_pure _).blames
  · refine (blameless_gets _).andThen fun dropped t' => ?_
    cases dropped with
    | some name => exact ((blameless_tell _).bind fun _ => blameless_pure _).blames
    | none => exact (blames_lowerExpr _ .operand).finish fun _ => blameless_standAlone _ _
  · exact (blames_lowerExpr _ .operand).finish fun _ => blameless_standAlone _ _

theorem blameless_lowerOther (line : Nat) (kind : OtherStmt) :
    Blameless (lowerOther line kind) := by
  unfold lowerOther
  split
  · exact blameless_pure _
  · exact blameless_pure _
  · split
    · exact (blameless_tell _).bind fun _ => blameless_pure _
    · exact blameless_refuse _ _

theorem blameless_joinReturns (line : Nat) (known ty : Ty) :
    Blameless (joinReturns line known ty) := by
  unfold joinReturns
  split
  · exact blameless_pure _
  · refine blameless_ofExcept fun d h => ?_
    cases h
    exact Fault.Kind.noConfusion

theorem blameless_rangeOf (line iterLine : Nat) (e : TypedExpression) :
    Blameless (rangeOf line iterLine e) := by
  unfold rangeOf
  split
  · split
    · split
      · exact blameless_pure _
      · exact blameless_pure _
      · exact blameless_pure _
      · exact blameless_refuse _ _
    · exact blameless_refuse _ _
  · exact blameless_refuse _ _

theorem blames_countingLoop (line targetLine iterLine : Nat) (name : String)
    {iter : Lowering TypedExpression} {body : Lowering Block} (returns : Ty)
    (hiter : ∀ t, Blames mentions iter t) (hbody : ∀ t, Blames mentions' body t) :
    Blames (mentions ++ mentions')
      (countingLoop line targetLine iterLine name iter body returns) t := by
  refine (blameless_bindName targetLine name .int).andThen fun (v, declaration) t' => ?_
  refine (hiter t').andThen fun x t' => ?_
  refine (blameless_rangeOf line iterLine x).andThen fun range t' => ?_
  refine (blameless_constrainVariable v _ targetLine).andThen fun _ t' => ?_
  refine (blameless_readVariable v).andThen fun current t' => ?_
  refine (hbody t').finish fun block => (blameless_gets _).bind fun ty => ?_
  refine (blameless_constrainVariable v _ targetLine).bind fun _ => ?_
  refine (blameless_readVariable v).bind fun later => ?_
  exact (blameless_joinReturns _ _ _).bind fun _ => blameless_pure _

theorem blameless_declareFunction (line : Nat) (name : String) (ps : Parameters)
    (decorators : List Expr) (returns : Option Expr) :
    Blameless (declareFunction line name ps decorators returns) := by
  unfold declareFunction
  split
  · exact blameless_refuse _ _
  · have hcheck : Blameless (checkParameters line name ps) := by
      unfold checkParameters
      split
      · exact blameless_refuse _ _
      · split
        · exact blameless_refuse _ _
        · split
          · exact blameless_refuse _ _
          · exact blameless_pure _
    refine hcheck.bind fun _ => (blameless_ofExcept fun d => kind_of_hintTy?).bind fun stated => ?_
    exact blameless_declareProcedure _ _

theorem blameless_declareParameters (owner : String) (position : Nat) (ps : List Parameter) :
    Blameless (declareParameters owner position ps) := by
  induction ps generalizing position with
  | nil => exact blameless_pure _
  | cons p ps ih =>
      refine (blameless_ofExcept fun d => kind_of_hintTy?).bind fun stated => ?_
      refine (blameless_declareVariable _ stated _).bind fun v => ?_
      exact (ih (position + 1)).bind fun vs => blameless_pure _

theorem blames_lowerFunction (line : Nat) (name : String) (ps : Parameters) (p : ProcId)
    {body : Lowering Block} (hbody : ∀ t, Blames mentions body t) :
    Blames mentions (lowerFunction line name ps p body) t := by
  refine (blameless_tell _).andThen fun _ t' => ?_
  refine (blames_inChildScope ?_).finish fun (parameters, block) => ?_
  · refine (blameless_declareParameters name 0 ps.positional).andThen fun vs t' => ?_
    exact (hbody t').finish fun _ => blameless_pure _
  · exact (blameless_constrainProcedure p _ line).bind fun _ => blameless_modify _

/-! ## Both passes -/

theorem blames_twoPasses {first : Lowering FirstPass} {second : List ProcId → Lowering Unit}
    (hfirst : Blames mentions first t)
    (hsecond : ∀ declared t, Blames mentions' (second declared) t) :
    Blames (mentions ++ mentions') (twoPasses first second) t :=
  hfirst.andThen fun pass t' => (hsecond pass.declared t').finish fun _ => blameless_pure _

mutual

theorem blames_stmt (s : Stmt) (returns : Ty) {t : Table} :
    Blames s.mentions (lowerStmt returns s) t := by
  cases s with
  | functionDef line name ps body decorators hint =>
      simp only [lowerStmt]
      exact ((blameless_declareFunction line name ps decorators hint).bind fun _ =>
        blameless_pure _).blames
  | ret line value =>
      cases value with
      | none =>
          simp only [lowerStmt]
          exact ((blameless_joinReturns _ _ _).bind fun _ => blameless_pure _).blames
      | some value =>
          simp only [lowerStmt]
          refine (blames_lowerExpr value .operand).finish fun e => ?_
          exact (blameless_joinReturns _ _ _).bind fun _ => blameless_pure _
  | assign line targets value =>
      simp only [lowerStmt]
      exact (blames_assignAll value targets none).finish fun _ => blameless_pure _
  | augAssign line target op value =>
      simp only [lowerStmt]
      exact (blames_augment op value target).finish fun _ => blameless_pure _
  | annAssign line target hint value =>
      simp only [lowerStmt]
      exact (blames_assignHinted target hint value).finish fun _ => blameless_pure _
  | branch line test body orelse =>
      simp only [lowerStmt, Stmt.mentions, List.append_assoc]
      refine (blames_lowerExpr test .operand).andThen fun guard t' => ?_
      rw [← List.append_assoc]
      refine (blames_twoPasses (blames_stmts body .unknown)
        fun declared t => blames_bodies body declared).andThen fun yes t' => ?_
      refine (blames_twoPasses (blames_stmts orelse .unknown)
        fun declared t => blames_bodies orelse declared).finish fun no => ?_
      refine (blameless_joinReturns _ _ _).bind fun _ => ?_
      exact (blameless_joinReturns _ _ _).bind fun _ => blameless_pure _
  | whileLoop line test body orelse =>
      simp only [lowerStmt]
      split
      · refine (blames_lowerExpr test .operand).andThen fun guard t' => ?_
        refine (blames_twoPasses (blames_stmts body .unknown)
          fun declared t => blames_bodies body declared).finish fun block => ?_
        exact (blameless_joinReturns _ _ _).bind fun _ => blameless_pure _
      · exact (blameless_refuse _ _).blames
  | forLoop line target iter body orelse =>
      simp only [lowerStmt]
      split
      · split
        · refine (blames_countingLoop _ _ _ _ returns (fun t => blames_lowerExpr iter .operand)
            fun t => ?_).finish fun _ => blameless_pure _
          exact blames_twoPasses (blames_stmts body .unknown)
            fun declared t => blames_bodies body declared
        · exact (blameless_fail (by simp [Fault.kind]) _).blames
      · exact (blameless_refuse _ _).blames
  | raise line cause =>
      cases cause with
      | none =>
          simp only [lowerStmt]
          exact ((blameless_tell _).bind fun _ => blameless_pure _).blames
      | some cause =>
          simp only [lowerStmt]
          exact (blameless_refuse _ _).blames
  | expression line value =>
      simp only [lowerStmt]
      exact (blames_lowerStandAlone line value).finish fun _ => blameless_pure _
  | other line kind =>
      simp only [lowerStmt]
      exact ((blameless_lowerOther line kind).bind fun _ => blameless_pure _).blames

theorem blames_stmts (ss : List Stmt) (returns : Ty) {t : Table} :
    Blames (Stmt.mentionsAll ss) (lowerStmts returns ss) t := by
  cases ss with
  | nil =>
      simp only [lowerStmts]
      exact (blameless_pure _).blames
  | cons s ss =>
      simp only [lowerStmts, Stmt.mentionsAll]
      refine (blameless_tell _).andThen fun _ t' => ?_
      refine (blames_stmt s returns).andThen fun here t' => ?_
      exact (blames_stmts ss here.returns).finish fun _ => blameless_pure _

theorem blames_bodies (ss : List Stmt) (declared : List ProcId) {t : Table} :
    Blames (Stmt.mentionsInside ss) (lowerBodies ss declared) t := by
  cases ss with
  | nil =>
      simp only [lowerBodies]
      exact (blameless_pure _).blames
  | cons s ss =>
      cases s with
      | functionDef line name ps body decorators hint =>
          simp only [Stmt.mentionsInside]
          cases declared with
          | nil =>
              simp only [lowerBodies]
              exact (blames_bodies ss []).mono (List.subset_append_right _ _)
          | cons p declared =>
              simp only [lowerBodies]
              refine (blames_lowerFunction line name ps p fun t => ?_).andThen fun _ t' =>
                blames_bodies ss declared
              exact blames_twoPasses (blames_stmts body .unknown)
                fun declared t => blames_bodies body declared
      | _ =>
          simp only [lowerBodies, Stmt.mentionsInside]
          exact blames_bodies ss declared

end

theorem blames_lowerBlock (body : List Stmt) :
    Blames (Stmt.mentionsAll body ++ Stmt.mentionsInside body) (lowerBlock body) t :=
  blames_twoPasses (blames_stmts body .unknown) fun declared _ => blames_bodies body declared

end Lowering

end TypedPseudocode
