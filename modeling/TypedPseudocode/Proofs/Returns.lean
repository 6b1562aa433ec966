import TypedPseudocode.Proofs.Passes
import TypedPseudocode.Proofs.TypeOrder

/-!
What a block returns.

A block keeps the least type above all that its statements return, at any depth
but not inside of functions.  Types that do not fit together are the only reason
for which a block is refused because of what it returns: lowered without regard
to returned types it gives the same statements, and it is accepted exactly if
these return types that have an upper bound.
-/

namespace TypedPseudocode

open Code TypedPseudocode.Tree

/-! ## Return statements -/

namespace Code

variable {D V P : Type}

/-- The type that a statement returns; a return without a value is `void`. -/
def Statement.returned? : Statement D V P Ty → Option Ty
  | .ret none => some .void
  | .ret (some value) => some value.ty
  | _ => none

def returned (code : List (Statement D V P Ty)) : List Ty :=
  (Statement.partsAll code).filterMap Statement.returned?

@[simp] theorem returned_nil : returned ([] : List (Statement D V P Ty)) = [] := rfl

@[simp] theorem returned_append (ss rs : List (Statement D V P Ty)) :
    returned (ss ++ rs) = returned ss ++ returned rs := by
  simp [returned]

theorem returned_cons (s : Statement D V P Ty) (ss : List (Statement D V P Ty)) :
    returned (s :: ss) = s.returned?.toList ++ returned s.inner ++ returned ss := by
  simp only [returned, Statement.partsAll_cons, List.filterMap_cons, List.filterMap_append]
  cases s.returned? <;> simp

section Statements

variable (v : V) (p : P) (name : String) (guard value index : Expression V P Ty)
  (arguments : List (Expression V P Ty)) (body alternative rest : List (Statement D V P Ty))

@[simp] theorem returned_declare (d : D) :
    returned (.declare d :: rest : List (Statement D V P Ty)) = returned rest := by
  simp [returned_cons, Statement.returned?, Statement.inner]

@[simp] theorem returned_assign : returned (.assign v value :: rest) = returned rest := by
  simp [returned_cons, Statement.returned?, Statement.inner]

@[simp] theorem returned_assignElement :
    returned (.assignElement v arguments value :: rest) = returned rest := by
  simp [returned_cons, Statement.returned?, Statement.inner]

@[simp] theorem returned_call : returned (.call p arguments :: rest) = returned rest := by
  simp [returned_cons, Statement.returned?, Statement.inner]

@[simp] theorem returned_callBuiltin :
    returned (.callBuiltin name arguments :: rest) = returned rest := by
  simp [returned_cons, Statement.returned?, Statement.inner]

@[simp] theorem returned_ret : returned (.ret none :: rest) = .void :: returned rest := by
  simp [returned_cons, Statement.returned?, Statement.inner]

@[simp] theorem returned_retValue :
    returned (.ret (some value) :: rest) = value.ty :: returned rest := by
  simp [returned_cons, Statement.returned?, Statement.inner]

@[simp] theorem returned_breakLoop : returned (.breakLoop :: rest) = returned rest := by
  simp [returned_cons, Statement.returned?, Statement.inner]

@[simp] theorem returned_continueLoop : returned (.continueLoop :: rest) = returned rest := by
  simp [returned_cons, Statement.returned?, Statement.inner]

@[simp] theorem returned_selection : returned (.selection guard body alternative :: rest) =
    returned body ++ returned alternative ++ returned rest := by
  simp [returned_cons, Statement.returned?, Statement.inner]

@[simp] theorem returned_loop :
    returned (.loop guard body :: rest) = returned body ++ returned rest := by
  simp [returned_cons, Statement.returned?, Statement.inner]

end Statements

end Code

namespace Lowering

variable {t t' : Table}

/-! ## Statements that return nothing -/

def Silent (step : Lowering (List TypedStatement)) : Prop :=
  ∀ {t t' : Table} {code : List TypedStatement}, Yields step t code t' → returned code = []

theorem Binds.returned_eq {name : String} {ty : Ty} {v : VarId}
    {declaration : List TypedStatement} (h : Binds t name ty v declaration t') :
    returned declaration = [] := by
  cases h <;> simp

theorem silent_assignTo (value : TypedExpression) (target : Expr) :
    Silent (assignTo value target) := by
  intro t t' code h
  cases target with
  | name line id ctx =>
      simp only [assignTo, yields_bind, yields_return] at h
      obtain ⟨⟨v, declaration⟩, t₁, hbind, rfl, rfl⟩ := h
      simp [(binds_bindName hbind).returned_eq]
  | subscript line base slice ctx =>
      simp only [assignTo, yields_bind, yields_return] at h
      obtain ⟨v, t₁, hv, index, t₂, hindex, unified, t₃, hty, rfl, rfl⟩ := h
      simp
  | _ => exact absurd h yields_fail

mutual

theorem silent_unpack (target value : Expr) : Silent (unpack target value) := by
  intro t t' code h
  cases target with
  | list line targets ctx =>
      simp only [unpack, yields_bind] at h
      obtain ⟨values, t₁, -, h⟩ := h
      exact silent_unpackEach targets values h
  | tuple line targets ctx =>
      simp only [unpack, yields_bind] at h
      obtain ⟨values, t₁, -, h⟩ := h
      exact silent_unpackEach targets values h
  | _ =>
      simp only [unpack, yields_bind] at h
      obtain ⟨x, t₁, -, h⟩ := h
      exact silent_assignTo x _ h

theorem silent_unpackEach (targets values : List Expr) : Silent (unpackEach targets values) := by
  intro t t' code h
  cases targets with
  | nil =>
      obtain ⟨rfl, -⟩ := yields_pure.mp (by simpa only [unpackEach] using h)
      rfl
  | cons target targets =>
      cases values with
      | nil =>
          obtain ⟨rfl, -⟩ := yields_pure.mp (by simpa only [unpackEach] using h)
          rfl
      | cons value values =>
          simp only [unpackEach, yields_bind, yields_return] at h
          obtain ⟨first, t₁, hfirst, rest, t₂, hrest, rfl, rfl⟩ := h
          simp [silent_unpack target value hfirst, silent_unpackEach targets values hrest]

end

theorem silent_assignAll (value : Expr) (targets : List Expr)
    (lowered : Option TypedExpression) : Silent (assignAll value targets lowered) := by
  induction targets generalizing lowered with
  | nil =>
      intro t t' code h
      obtain ⟨rfl, -⟩ := yields_pure.mp h
      rfl
  | cons target targets ih =>
      intro t t' code h
      simp only [assignAll] at h
      split at h
      · simp only [yields_bind, yields_return] at h
        obtain ⟨first, t₁, hfirst, rest, t₂, hrest, rfl, rfl⟩ := h
        simp [silent_unpack target value hfirst, ih lowered hrest]
      · obtain ⟨e, t₁, h⟩ : ∃ e t₁, Yields (do
            let first ← assignTo e target
            let rest ← assignAll value targets (some e)
            return first ++ rest) t₁ code t' := by
          cases lowered with
          | some e =>
              obtain ⟨x, t₁, -, h⟩ := yields_bind.mp h
              exact ⟨x, t₁, h⟩
          | none =>
              obtain ⟨x, t₁, -, h⟩ := yields_bind.mp h
              exact ⟨x, t₁, h⟩
        simp only [yields_bind, yields_return] at h
        obtain ⟨first, t₂, hfirst, rest, t₃, hrest, rfl, rfl⟩ := h
        simp [silent_assignTo e target hfirst, ih (some e) hrest]

theorem silent_augment (op : Operator) (value target : Expr) :
    Silent (augment op value target) := by
  intro t t' code h
  simp only [augment, yields_bind] at h
  obtain ⟨op', t₀, -, h⟩ := h
  cases target with
  | name line id ctx =>
      simp only [yields_bind] at h
      obtain ⟨found, t₁, -, h⟩ := h
      cases found with
      | none => exact absurd h yields_fail
      | some v =>
          simp only [yields_bind, yields_return] at h
          obtain ⟨current, t₂, -, x, t₃, -, unified, t₄, -, rfl, rfl⟩ := h
          simp
  | subscript line base slice ctx =>
      simp only [yields_bind, yields_return] at h
      obtain ⟨v, t₁, -, index, t₂, -, x, t₃, -, array, t₄, -, unified, t₅, -, rfl, rfl⟩ := h
      simp
  | _ => exact absurd h yields_fail

theorem silent_assignHinted (target typeHint : Expr) (value : Option Expr) :
    Silent (assignHinted target typeHint value) := by
  intro t t' code h
  simp only [assignHinted, yields_bind] at h
  obtain ⟨ty, t₁, -, h⟩ := h
  cases target with
  | name line id ctx =>
      rw [yields_bind] at h
      obtain ⟨⟨v, declaration⟩, t₂, hbind, h⟩ := h
      have hdeclaration := (binds_bindName hbind).returned_eq
      cases value with
      | none =>
          obtain ⟨rfl, -⟩ := yields_return.mp h
          exact hdeclaration
      | some value =>
          simp only [yields_bind, yields_return] at h
          obtain ⟨x, t₃, -, unified, t₄, -, rfl, rfl⟩ := h
          simp [hdeclaration]
  | _ => exact absurd h yields_refuse

theorem silent_standAlone (line : Nat) (e : TypedExpression) : Silent (standAlone line e) := by
  intro t t' code h
  unfold standAlone at h
  split at h
  · obtain ⟨rfl, -⟩ := yields_pure.mp h
    simp
  · split at h
    · obtain ⟨rfl, -⟩ := yields_pure.mp h
      simp
    · exact absurd h yields_refuse
  · exact absurd h yields_refuse

theorem silent_lowerStandAlone (line : Nat) (e : Expr) : Silent (lowerStandAlone line e) := by
  intro t t' code h
  unfold lowerStandAlone at h
  split at h
  · obtain ⟨rfl, -⟩ := yields_pure.mp h
    rfl
  · obtain ⟨rfl, -⟩ := yields_pure.mp h
    rfl
  · obtain ⟨dropped, t₁, -, h⟩ := yields_bind.mp h
    cases dropped with
    | some name =>
        simp only [yields_bind, yields_return] at h
        obtain ⟨_, t₂, -, rfl, -⟩ := h
        rfl
    | none =>
        obtain ⟨x, t₂, -, h⟩ := yields_bind.mp h
        exact silent_standAlone line x h
  · obtain ⟨x, t₁, -, h⟩ := yields_bind.mp h
    exact silent_standAlone line x h

theorem silent_lowerOther (line : Nat) (kind : OtherStmt) : Silent (lowerOther line kind) := by
  intro t t' code h
  unfold lowerOther at h
  split at h
  · obtain ⟨rfl, -⟩ := yields_pure.mp h
    simp
  · obtain ⟨rfl, -⟩ := yields_pure.mp h
    simp
  · split at h
    · simp only [yields_bind, yields_return] at h
      obtain ⟨_, t₁, -, rfl, -⟩ := h
      rfl
    · exact absurd h yields_refuse

/-! ## Lowering without regard to returned types -/

mutual

def looseStmt : Stmt → Lowering FirstPass
  | .ret _ none => return ⟨⟨[.ret none], .unknown⟩, []⟩
  | .ret _ (some value) => do
      let e ← lowerValue value
      return ⟨⟨[.ret (some e)], .unknown⟩, []⟩
  | .branch _ test body orelse => do
      let guard ← lowerValue test
      let yes ← twoPasses (looseStmts body) (lowerBodies body)
      let no ← twoPasses (looseStmts orelse) (lowerBodies orelse)
      return ⟨⟨[.selection guard yes.statements no.statements], .unknown⟩, []⟩
  | .whileLoop line test body orelse => do
      if orelse.isEmpty then
        let guard ← lowerValue test
        let block ← twoPasses (looseStmts body) (lowerBodies body)
        return ⟨⟨[.loop guard block.statements], .unknown⟩, []⟩
      else refuse (.elseBlock (Labelled.label StmtKind.whileLoop)) line
  | .forLoop line target iter body orelse => do
      if orelse.isEmpty then
        match target with
        | .name targetLine name _ =>
            let block ← countingLoop line targetLine iter.line name (lowerValue iter)
              (twoPasses (looseStmts body) (lowerBodies body)) .unknown
            return ⟨block, []⟩
        | _ => fail (.unexpectedKind ["Name"] target.label) target.line
      else refuse (.elseBlock (Labelled.label StmtKind.forLoop)) line
  | s => lowerStmt .unknown s

def looseStmts : List Stmt → Lowering FirstPass
  | [] => return ⟨⟨[], .unknown⟩, []⟩
  | s :: rest => do
      let here ← looseStmt s
      let there ← looseStmts rest
      return ⟨⟨here.statements ++ there.statements, .unknown⟩, here.declared ++ there.declared⟩

end

/--
Lower a block without regard to the types that it returns.  Functions in it are
still lowered as usual, for what they return is not returned by the block.
-/
def looseBlock (body : List Stmt) : Lowering Block :=
  twoPasses (looseStmts body) (lowerBodies body)

/--
The statements of `block` are those of `loose`, and it knows the least type above
`returns` and above all that they return.
-/
structure Settles (returns : Ty) (loose block : Block) : Prop where
  statements : loose.statements = block.statements
  returns : Ty.Least returns (returned loose.statements) block.returns

def Agrees (step loose : Lowering FirstPass) (returns : Ty) : Prop :=
  ∀ {t t' : Table} {pass : FirstPass}, Yields step t pass t' ↔
    ∃ free, Yields loose t free t' ∧ Settles returns free.toBlock pass.toBlock ∧
      free.declared = pass.declared

def AgreesOnBlocks (step loose : Lowering Block) (returns : Ty) : Prop :=
  ∀ {t t' : Table} {block : Block}, Yields step t block t' ↔
    ∃ free, Yields loose t free t' ∧ Settles returns free block

theorem Settles.exists_pass {returns : Ty} {code : List TypedStatement} {declared : List ProcId}
    {pass : FirstPass} (h : Settles returns ⟨code, .unknown⟩ pass.toBlock)
    (hdeclared : declared = pass.declared) :
    ∃ ty, Ty.Least returns (returned code) ty ∧ ⟨⟨code, ty⟩, declared⟩ = pass := by
  obtain ⟨rfl, hleast⟩ := h
  subst hdeclared
  exact ⟨pass.returns, hleast, rfl⟩

theorem exists_block_of_bound {step loose : Lowering Block}
    (h : AgreesOnBlocks step loose .unknown) {free : Block} (hfree : Yields loose t free t')
    {u : Ty} (hbound : ∀ x ∈ returned free.statements, x ≤ u) :
    ∃ ty, Ty.Least .unknown (returned free.statements) ty ∧
      Yields step t ⟨free.statements, ty⟩ t' := by
  obtain ⟨ty, hty⟩ := Ty.Least.exists_of_le (Ty.unknown_le u) hbound
  exact ⟨ty, hty, h.mpr ⟨free, hfree, rfl, hty⟩⟩

theorem agrees_of_silent {α : Type} {step : Lowering α} (code : α → List TypedStatement)
    (declared : α → List ProcId)
    (h : ∀ {t t' : Table} {a : α}, Yields step t a t' → returned (code a) = []) (returns : Ty) :
    Agrees
      (do
        let a ← step
        return ⟨⟨code a, returns⟩, declared a⟩)
      (do
        let a ← step
        return ⟨⟨code a, .unknown⟩, declared a⟩) returns := by
  intro t t' pass
  simp only [yields_bind, yields_return]
  constructor
  · rintro ⟨a, t₁, ha, rfl, rfl⟩
    refine ⟨_, ⟨a, t₁, ha, rfl, rfl⟩, ⟨rfl, ?_⟩, rfl⟩
    rw [h ha]
    exact .nil returns
  · rintro ⟨_, ⟨a, t₁, ha, rfl, rfl⟩, hsettles, hdeclared⟩
    obtain ⟨ty, hleast, rfl⟩ := hsettles.exists_pass hdeclared
    rw [h ha] at hleast
    obtain rfl := (Ty.Least.nil returns).unique hleast
    exact ⟨a, t₁, ha, rfl, rfl⟩

/-! ## Nested blocks -/

theorem agrees_twoPasses {first loose : Lowering FirstPass} {second : List ProcId → Lowering Unit}
    {returns : Ty} (h : Agrees first loose returns) :
    AgreesOnBlocks (twoPasses first second) (twoPasses loose second) returns := by
  intro t t' block
  simp only [twoPasses, yields_bind, yields_return]
  constructor
  · rintro ⟨pass, t₁, hpass, _, t₂, hsecond, rfl, rfl⟩
    obtain ⟨free, hfree, hsettles, hdeclared⟩ := h.mp hpass
    rw [← hdeclared] at hsecond
    exact ⟨_, ⟨free, t₁, hfree, _, t₂, hsecond, rfl, rfl⟩, hsettles⟩
  · rintro ⟨_, ⟨free, t₁, hfree, u, t₂, hsecond, rfl, rfl⟩, hsettles⟩
    have hpass := h.mpr ⟨free, hfree, (show Settles returns free.toBlock
      (FirstPass.mk block free.declared).toBlock from hsettles), rfl⟩
    exact ⟨_, t₁, hpass, u, t₂, hsecond, rfl, rfl⟩

theorem agrees_ofBlock {step loose : Lowering Block} {returns : Ty}
    (h : AgreesOnBlocks step loose returns) :
    Agrees
      (do
        let block ← step
        return ⟨block, []⟩)
      (do
        let block ← loose
        return ⟨block, []⟩) returns := by
  intro t t' pass
  simp only [yields_bind, yields_return]
  constructor
  · rintro ⟨block, t₁, hblock, rfl, rfl⟩
    obtain ⟨free, hfree, hsettles⟩ := h.mp hblock
    exact ⟨_, ⟨free, t₁, hfree, rfl, rfl⟩, hsettles, rfl⟩
  · rintro ⟨_, ⟨free, t₁, hfree, rfl, rfl⟩, hsettles, hdeclared⟩
    refine ⟨pass.toBlock, t₁, h.mpr ⟨free, hfree, hsettles⟩, ?_, rfl⟩
    simp only at hdeclared
    rw [hdeclared]

theorem agrees_whileLoop {line : Nat} {test : Expr} {body loose : Lowering Block}
    (h : AgreesOnBlocks body loose .unknown) (returns : Ty) :
    Agrees
      (do
        let guard ← lowerValue test
        let block ← body
        let returns ← joinReturns line returns block.returns
        return ⟨⟨[.loop guard block.statements], returns⟩, []⟩)
      (do
        let guard ← lowerValue test
        let block ← loose
        return ⟨⟨[.loop guard block.statements], .unknown⟩, []⟩) returns := by
  intro t t' pass
  simp only [yields_bind, yields_return, yields_joinReturns]
  constructor
  · rintro ⟨guard, t₁, hguard, block, t₂, hblock, joined, t₃, ⟨hjoined, rfl⟩, rfl, rfl⟩
    obtain ⟨free, hfree, hstatements, hleast⟩ := h.mp hblock
    refine ⟨_, ⟨guard, t₁, hguard, free, t₂, hfree, rfl, rfl⟩, ⟨?_, ?_⟩, rfl⟩
    · rw [hstatements]
    · simpa using hleast.unify_iff.mp hjoined
  · rintro ⟨_, ⟨guard, t₁, hguard, free, t₂, hfree, rfl, rfl⟩, hsettles, hdeclared⟩
    obtain ⟨joined, hjoined, rfl⟩ := hsettles.exists_pass hdeclared
    replace hjoined : Ty.Least returns (returned free.statements) joined := by
      simpa using hjoined
    obtain ⟨ty, hty, hblock⟩ :=
      exists_block_of_bound h hfree ((hjoined joined).mp (le_refl joined)).2
    exact ⟨guard, t₁, hguard, _, t₂, hblock, joined, t₂, ⟨hty.unify_iff.mpr hjoined, rfl⟩, rfl,
      rfl⟩

theorem agrees_branch {line : Nat} {test : Expr} {body orelse loose loose' : Lowering Block}
    (h : AgreesOnBlocks body loose .unknown) (h' : AgreesOnBlocks orelse loose' .unknown)
    (returns : Ty) :
    Agrees
      (do
        let guard ← lowerValue test
        let yes ← body
        let no ← orelse
        let returns ← joinReturns line returns yes.returns
        let returns ← joinReturns line returns no.returns
        return ⟨⟨[.selection guard yes.statements no.statements], returns⟩, []⟩)
      (do
        let guard ← lowerValue test
        let yes ← loose
        let no ← loose'
        return ⟨⟨[.selection guard yes.statements no.statements], .unknown⟩, []⟩) returns := by
  intro t t' pass
  simp only [yields_bind, yields_return, yields_joinReturns]
  constructor
  · rintro ⟨guard, t₁, hguard, yes, t₂, hyes, no, t₃, hno, joined, t₄, ⟨hjoined, rfl⟩, both, t₅,
      ⟨hboth, rfl⟩, rfl, rfl⟩
    obtain ⟨free, hfree, hstatements, hleast⟩ := h.mp hyes
    obtain ⟨free', hfree', hstatements', hleast'⟩ := h'.mp hno
    refine ⟨_, ⟨guard, t₁, hguard, free, t₂, hfree, free', t₃, hfree', rfl, rfl⟩, ⟨?_, ?_⟩, rfl⟩
    · rw [hstatements, hstatements']
    · have hall := Ty.Least.append_iff.mpr
        ⟨joined, hleast.unify_iff.mp hjoined, hleast'.unify_iff.mp hboth⟩
      simpa using hall
  · rintro ⟨_, ⟨guard, t₁, hguard, free, t₂, hfree, free', t₃, hfree', rfl, rfl⟩, hsettles,
      hdeclared⟩
    obtain ⟨both, hall, rfl⟩ := hsettles.exists_pass hdeclared
    simp only [returned_selection, returned_nil, List.append_nil] at hall
    obtain ⟨joined, hjoined, hboth⟩ := Ty.Least.append_iff.mp hall
    obtain ⟨ty, hty, hyes⟩ :=
      exists_block_of_bound h hfree ((hjoined joined).mp (le_refl joined)).2
    obtain ⟨ty', hty', hno⟩ :=
      exists_block_of_bound h' hfree' ((hboth both).mp (le_refl both)).2
    exact ⟨guard, t₁, hguard, _, t₂, hyes, _, t₃, hno, joined, t₃,
      ⟨hty.unify_iff.mpr hjoined, rfl⟩, both, t₃, ⟨hty'.unify_iff.mpr hboth, rfl⟩, rfl, rfl⟩

theorem agrees_countingLoop {line targetLine iterLine : Nat} {name : String}
    {iter : Lowering TypedExpression} {body loose : Lowering Block}
    (h : AgreesOnBlocks body loose .unknown) (returns : Ty) :
    AgreesOnBlocks (countingLoop line targetLine iterLine name iter body returns)
      (countingLoop line targetLine iterLine name iter loose .unknown) returns := by
  intro t t' block
  simp only [yields_countingLoop, Ty.unify_unknown_left, Option.some.injEq]
  constructor
  · rintro ⟨v, declaration, t₁, x, t₂, range, t₃, known, inner, t₄, advanced, joined, hbind, hx,
      hrange, hstart, hinner, hstep, hjoined, rfl, htable⟩
    obtain ⟨free, hfree, hstatements, hleast⟩ := h.mp hinner
    refine ⟨_, ⟨v, declaration, t₁, x, t₂, range, t₃, known, free, t₄, advanced, _, hbind, hx,
      hrange, hstart, hfree, hstep, rfl, rfl, htable⟩, ⟨?_, ?_⟩⟩
    · rw [hstatements]
    · have hdeclaration := (binds_bindName hbind).returned_eq
      simpa [hdeclaration] using hleast.unify_iff.mp hjoined
  · rintro ⟨_, ⟨v, declaration, t₁, x, t₂, range, t₃, known, free, t₄, advanced, _, hbind, hx,
      hrange, hstart, hfree, hstep, rfl, rfl, htable⟩, hstatements, hall⟩
    have hdeclaration := (binds_bindName hbind).returned_eq
    replace hall : Ty.Least returns (returned free.statements) block.returns := by
      simpa [hdeclaration] using hall
    obtain ⟨least, hleast, hinner⟩ :=
      exists_block_of_bound h hfree ((hall block.returns).mp (le_refl _)).2
    refine ⟨v, declaration, t₁, x, t₂, range, t₃, known, _, t₄, advanced, block.returns, hbind,
      hx, hrange, hstart, hinner, hstep, hleast.unify_iff.mpr hall, ?_, htable⟩
    simp only at hstatements
    rw [hstatements]

/-! ## Whole lists -/

mutual

theorem agrees_lowerStmt (s : Stmt) (returns : Ty) :
    Agrees (lowerStmt returns s) (looseStmt s) returns := by
  cases s with
  | functionDef line name ps body decorators hint =>
      exact agrees_of_silent (fun _ => []) (fun p => [p]) (fun _ => rfl) returns
  | ret line value =>
      cases value with
      | none =>
          intro t t' pass
          simp only [lowerStmt, looseStmt, yields_bind, yields_return, yields_joinReturns]
          constructor
          · rintro ⟨joined, t₁, ⟨hjoined, rfl⟩, rfl, rfl⟩
            refine ⟨_, ⟨rfl, rfl⟩, ⟨rfl, ?_⟩, rfl⟩
            simpa using (Ty.Least.singleton .void).unify_iff.mp hjoined
          · rintro ⟨_, ⟨rfl, rfl⟩, hsettles, hdeclared⟩
            obtain ⟨joined, hleast, rfl⟩ := hsettles.exists_pass hdeclared
            exact ⟨joined, t, ⟨(Ty.Least.singleton .void).unify_iff.mpr hleast, rfl⟩, rfl, rfl⟩
      | some value =>
          intro t t' pass
          simp only [lowerStmt, looseStmt, yields_bind, yields_return, yields_joinReturns]
          constructor
          · rintro ⟨e, t₁, he, joined, t₂, ⟨hjoined, rfl⟩, rfl, rfl⟩
            refine ⟨_, ⟨e, t₁, he, rfl, rfl⟩, ⟨rfl, ?_⟩, rfl⟩
            simpa using (Ty.Least.singleton e.ty).unify_iff.mp hjoined
          · rintro ⟨_, ⟨e, t₁, he, rfl, rfl⟩, hsettles, hdeclared⟩
            obtain ⟨joined, hleast, rfl⟩ := hsettles.exists_pass hdeclared
            exact ⟨e, t₁, he, joined, t₁, ⟨(Ty.Least.singleton e.ty).unify_iff.mpr hleast, rfl⟩,
              rfl, rfl⟩
  | assign line targets value =>
      exact agrees_of_silent id (fun _ => []) (silent_assignAll value targets none) returns
  | augAssign line target op value =>
      exact agrees_of_silent id (fun _ => []) (silent_augment op value target) returns
  | annAssign line target hint value =>
      exact agrees_of_silent id (fun _ => []) (silent_assignHinted target hint value) returns
  | branch line test body orelse =>
      exact agrees_branch (agrees_twoPasses (agrees_lowerStmts body .unknown))
        (agrees_twoPasses (agrees_lowerStmts orelse .unknown)) returns
  | whileLoop line test body orelse =>
      intro t t' pass
      simp only [lowerStmt, looseStmt]
      split
      · exact agrees_whileLoop (agrees_twoPasses (agrees_lowerStmts body .unknown)) returns
      · simp
  | forLoop line target iter body orelse =>
      intro t t' pass
      simp only [lowerStmt, looseStmt]
      split
      · split
        · exact agrees_ofBlock (agrees_countingLoop
            (agrees_twoPasses (agrees_lowerStmts body .unknown)) returns)
        · simp
      · simp
  | raise line cause =>
      cases cause with
      | none => exact agrees_of_silent (fun _ => []) (fun _ => []) (fun _ => rfl) returns
      | some cause =>
          intro t t' pass
          simp [lowerStmt, looseStmt]
  | expression line value =>
      exact agrees_of_silent id (fun _ => []) (silent_lowerStandAlone line value) returns
  | other line kind =>
      exact agrees_of_silent id (fun _ => []) (silent_lowerOther line kind) returns

theorem agrees_lowerStmts (ss : List Stmt) (returns : Ty) :
    Agrees (lowerStmts returns ss) (looseStmts ss) returns := by
  intro t t' pass
  cases ss with
  | nil =>
      simp only [lowerStmts, looseStmts, yields_pure, yields_return]
      constructor
      · rintro ⟨rfl, rfl⟩
        exact ⟨_, ⟨rfl, rfl⟩, ⟨rfl, .nil returns⟩, rfl⟩
      · rintro ⟨_, ⟨rfl, rfl⟩, hsettles, hdeclared⟩
        obtain ⟨ty, hleast, rfl⟩ := hsettles.exists_pass hdeclared
        obtain rfl := (Ty.Least.nil returns).unique hleast
        exact ⟨rfl, rfl⟩
  | cons s ss =>
      simp only [lowerStmts, looseStmts, yields_bind, yields_tell, yields_return]
      constructor
      · rintro ⟨_, _, rfl, here, t₁, hhere, there, t₂, hthere, rfl, rfl⟩
        obtain ⟨free, hfree, ⟨hstatements, hleast⟩, hdeclared⟩ :=
          (agrees_lowerStmt s returns).mp hhere
        obtain ⟨free', hfree', ⟨hstatements', hleast'⟩, hdeclared'⟩ :=
          (agrees_lowerStmts ss here.returns).mp hthere
        refine ⟨_, ⟨free, t₁, hfree, free', t₂, hfree', rfl, rfl⟩, ⟨?_, ?_⟩, ?_⟩
        · rw [hstatements, hstatements']
        · have hall := Ty.Least.append_iff.mpr ⟨_, hleast, hleast'⟩
          rwa [← returned_append] at hall
        · rw [hdeclared, hdeclared']
      · rintro ⟨_, ⟨free, t₁, hfree, free', t₂, hfree', rfl, rfl⟩, hsettles, hdeclared⟩
        obtain ⟨ty, hall, rfl⟩ := hsettles.exists_pass hdeclared
        rw [returned_append] at hall
        obtain ⟨joined, hjoined, hrest⟩ := Ty.Least.append_iff.mp hall
        have hhere := (agrees_lowerStmt s returns).mpr ⟨free, hfree,
          (⟨rfl, hjoined⟩ : Settles returns free.toBlock
            (FirstPass.mk ⟨free.statements, joined⟩ free.declared).toBlock), rfl⟩
        have hthere := (agrees_lowerStmts ss joined).mpr ⟨free', hfree',
          (⟨rfl, hrest⟩ : Settles joined free'.toBlock
            (FirstPass.mk ⟨free'.statements, ty⟩ free'.declared).toBlock), rfl⟩
        exact ⟨(), t, rfl, _, t₁, hhere, _, t₂, hthere, rfl, rfl⟩

end

theorem agrees_lowerBlock (body : List Stmt) :
    AgreesOnBlocks (lowerBlock body) (looseBlock body) .unknown :=
  agrees_twoPasses (agrees_lowerStmts body .unknown)

end Lowering

end TypedPseudocode
