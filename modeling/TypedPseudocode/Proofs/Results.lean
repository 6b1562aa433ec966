import TypedPseudocode.Document
import TypedPseudocode.IdStream
import TypedPseudocode.Proofs.Outcomes
import TypedPseudocode.Proofs.Returns

/-!
Result types.

A function is declared with what its return hint says, or else with what the
supplied signature says, and its body comes later.  While bodies are lowered, a
ledger keeps every procedure beside the function that it was declared for: the
type of the procedure is always the least one above where it started and above
what its body returns by now.
-/

namespace TypedPseudocode

open Code TypedPseudocode.Tree

namespace Tree

structure Function where
  name : String
  returns : Option Expr

/--
The type that a result starts with: that of the return hint, else what the
supplied signature of the function says, else nothing.
-/
def Function.resultSeed (signatures : SignatureTable) (fn : Function) : Ty :=
  match fn.returns with
  | some hint => (Builtin.hintTy hint).toOption.getD .unknown
  | none => ((signatures.get? fn.name).map (·.returns)).getD .unknown

mutual

def Stmt.functions : Stmt → List Function
  | .functionDef _ name _ _ _ returns => [⟨name, returns⟩]
  | .branch _ _ body orelse =>
      (Stmt.functionsAll body ++ Stmt.functionsInside body) ++
        (Stmt.functionsAll orelse ++ Stmt.functionsInside orelse)
  | .whileLoop _ _ body _ | .forLoop _ _ _ body _ =>
      Stmt.functionsAll body ++ Stmt.functionsInside body
  | _ => []

def Stmt.functionsAll : List Stmt → List Function
  | [] => []
  | s :: rest => s.functions ++ Stmt.functionsAll rest

def Stmt.functionsInside : List Stmt → List Function
  | .functionDef _ _ _ body _ _ :: rest =>
      (Stmt.functionsAll body ++ Stmt.functionsInside body) ++ Stmt.functionsInside rest
  | _ :: rest => Stmt.functionsInside rest
  | [] => []

end

def functions (body : List Stmt) : List Function :=
  Stmt.functionsAll body ++ Stmt.functionsInside body

end Tree

namespace Lowering

variable {t t' : Table}

/-! ## Procedures along a run -/

theorem Step.functions_le {s s' : State} (h : Step s s') :
    s.finished.length ≤ s'.finished.length ∧ s.functions ≤ s'.functions := by
  cases h with
  | openFunction h =>
      simp [State.functions, h]
      omega
  | declareFunction => simp [State.functions]
  | closeFunction hplace houter _ _ _ =>
      simp [State.functions, houter]
      omega
  | _ => exact ⟨le_refl _, le_refl _⟩

theorem procedures_map_of_runs {s s' : State} (h : Runs s s')
    (hfinished : s'.finished.length = s.finished.length)
    (hfunctions : s'.functions = s.functions) {α : Type} (f : Procedure → α)
    (hf : ∀ p : Procedure, f { p with called := true } = f p) :
    s'.table.procedures.map f = s.table.procedures.map f := by
  have hmono {s s' : State} (h : Runs s s') :
      s.finished.length ≤ s'.finished.length ∧ s.functions ≤ s'.functions := by
    induction h with
    | refl => exact ⟨le_refl _, le_refl _⟩
    | tail _ step ih =>
        have hstep := step.functions_le
        exact ⟨ih.1.trans hstep.1, ih.2.trans hstep.2⟩
  induction h with
  | refl => rfl
  | @tail s₁ s₂ hrun step ih =>
      have hbefore := hmono hrun
      have hstep := step.functions_le
      rw [← ih (by omega) (by omega)]
      cases step.moves with
      | inside h => exact h.changes.map_procedures f hf
      | declareFunction =>
          simp [State.functions] at hfunctions hbefore
          omega
      | openFunction h => rfl
      | closeFunction hplace houter haround hoperands =>
          simp at hfinished
          omega

/-! ## The ledger -/

/-- The procedure has the name of the function and the least type for its body. -/
structure Settled (signatures : SignatureTable) (fn : Function) (procedure : Procedure) :
    Prop where
  name : procedure.name = some fn.name
  result : Ty.Least (fn.resultSeed signatures) (returned procedure.body) procedure.ty

/-- Procedures beside the functions that they were declared for. -/
structure Ledger (signatures : SignatureTable) (fns : List Function) (waiting : List ProcId)
    (t : Table) : Prop where
  supplied : t.signatures = signatures
  length : fns.length = t.procedures.length
  settled : ∀ i fn, fns[i]? = some fn → Settled signatures fn (t.procAt ⟨i⟩)
  nodup : waiting.Nodup
  bodiless : ∀ p ∈ waiting, p.index < t.procedures.length ∧ (t.procAt p).body = []

namespace Ledger

variable {signatures : SignatureTable} {fns : List Function} {waiting : List ProcId}

theorem perm {waiting' : List ProcId} (h : Ledger signatures fns waiting t)
    (hperm : waiting.Perm waiting') : Ledger signatures fns waiting' t :=
  ⟨h.supplied, h.length, h.settled, hperm.nodup_iff.mp h.nodup,
    fun p hp => h.bodiless p (hperm.mem_iff.mpr hp)⟩

theorem congr (h : Ledger signatures fns waiting t) (hsignatures : t'.signatures = t.signatures)
    (hprocedures : t'.procedures.map (fun p => (p.name, p.ty, p.body)) =
      t.procedures.map fun p => (p.name, p.ty, p.body)) :
    Ledger signatures fns waiting t' := by
  have hlength : t'.procedures.length = t.procedures.length := by
    simpa using congrArg List.length hprocedures
  have hparts (p : ProcId) : (t'.procAt p).name = (t.procAt p).name ∧
      (t'.procAt p).ty = (t.procAt p).ty ∧ (t'.procAt p).body = (t.procAt p).body := by
    simpa using procAt_congr _ hprocedures p
  refine ⟨hsignatures.trans h.supplied, h.length.trans hlength.symm, fun i fn hi => ?_,
    h.nodup, fun p hp => ?_⟩
  · obtain ⟨hname, hty, hbody⟩ := hparts ⟨i⟩
    obtain ⟨hname', hresult⟩ := h.settled i fn hi
    refine ⟨hname.trans hname', ?_⟩
    rwa [hty, hbody]
  · obtain ⟨-, -, hbody⟩ := hparts p
    rw [hlength, hbody]
    exact h.bodiless p hp

theorem of_runs {s s' : State} (h : Ledger signatures fns waiting s.table) (hrun : Runs s s')
    (hfinished : s'.finished.length = s.finished.length)
    (hfunctions : s'.functions = s.functions) : Ledger signatures fns waiting s'.table :=
  h.congr (signatures_of_runs hrun)
    (procedures_map_of_runs hrun hfinished hfunctions _ fun _ => rfl)

theorem declare (h : Ledger signatures fns waiting t) {name : String} {returns : Option Expr}
    {stated : Option Ty} (hstated : Builtin.hintTy? returns = .ok stated) :
    Ledger signatures (fns ++ [⟨name, returns⟩]) (waiting ++ [⟨t.procedures.length⟩])
      (t.withProcedure name stated) := by
  have hnew : (t.withProcedure name stated).procAt ⟨t.procedures.length⟩ =
      ⟨t.source, some name, t.resultSeed (some name) stated, [], [], false⟩ := by
    rw [Table.procAt_withProcedure, if_pos rfl]
  have hseed : t.resultSeed (some name) stated =
      Function.resultSeed signatures ⟨name, returns⟩ := by
    rw [← h.supplied]
    cases returns with
    | none =>
        cases hstated
        rfl
    | some hint =>
        cases hty : Builtin.hintTy hint with
        | error d => simp [Builtin.hintTy?, hty, Except.map] at hstated
        | ok ty =>
            simp only [Builtin.hintTy?, hty, Except.map, Except.ok.injEq] at hstated
            subst hstated
            simp [Table.resultSeed, Function.resultSeed, hty, Except.toOption]
  refine ⟨h.supplied, by simp [h.length], fun i fn hi => ?_, ?_, fun p hp => ?_⟩
  · rcases Nat.lt_or_ge i fns.length with hlt | hge
    · rw [List.getElem?_append_left hlt] at hi
      rw [Table.procAt_withProcedure_of_lt _ _ _ (h.length ▸ hlt)]
      exact h.settled i fn hi
    · obtain ⟨rfl, rfl⟩ : i = fns.length ∧ ⟨name, returns⟩ = fn := by
        rw [List.getElem?_append_right hge] at hi
        obtain ⟨hlt, hget⟩ := List.getElem?_eq_some_iff.mp hi
        simp at hlt hget
        exact ⟨by omega, hget⟩
      rw [h.length, hnew, hseed]
      exact ⟨rfl, .nil _⟩
  · refine h.nodup.append (List.nodup_singleton _) ?_
    rw [List.disjoint_singleton]
    intro hmem
    exact absurd (h.bodiless _ hmem).1 (Nat.lt_irrefl _)
  · rcases List.mem_append.mp hp with hp | hp
    · obtain ⟨hlt, hbody⟩ := h.bodiless p hp
      rw [Table.procAt_withProcedure_of_lt _ _ _ hlt]
      exact ⟨by simpa using Nat.lt_succ_of_lt hlt, hbody⟩
    · obtain rfl := List.mem_singleton.mp hp
      rw [hnew]
      simp

theorem complete {p : ProcId} (h : Ledger signatures fns (p :: waiting) t) {block : Block}
    (hblock : Ty.Least .unknown (returned block.statements) block.returns) {unified : Ty}
    (hty : (t.procAt p).ty.unify block.returns = some unified) (parameters : List VarId) :
    Ledger signatures fns waiting
      (t.complete p unified parameters block.statements) := by
  obtain ⟨hlt, hbody⟩ := h.bodiless p List.mem_cons_self
  obtain ⟨hmem, hnodup⟩ := List.nodup_cons.mp h.nodup
  refine ⟨h.supplied, by simp [h.length], fun i fn hi => ?_, hnodup, fun q hq => ?_⟩
  · obtain ⟨hname, hresult⟩ := h.settled i fn hi
    by_cases hp : (⟨i⟩ : ProcId) = p
    · subst hp
      rw [Table.procAt_complete_self _ _ _ hlt]
      refine ⟨hname, ?_⟩
      -- Nothing was returned before, so the type is still the one it started with.
      rw [hbody, returned_nil] at hresult
      rw [← (Ty.Least.nil _).unique hresult] at hty
      exact hblock.unify_iff.mp hty
    · rw [Table.procAt_complete_of_ne _ _ _ hp]
      exact ⟨hname, hresult⟩
  · obtain ⟨hlt', hbody'⟩ := h.bodiless q (List.mem_cons_of_mem p hq)
    have hne : q ≠ p := fun heq => hmem (heq ▸ hq)
    rw [Table.procAt_complete_of_ne _ _ _ hne]
    exact ⟨by simpa using hlt', hbody'⟩

end Ledger

/-! ## Both passes -/

section Passes

variable {signatures : SignatureTable} {fns : List Function} {waiting : List ProcId}

theorem ledger_lowerValue {e : Expr} {x : TypedExpression} (h : Yields (lowerValue e) t x t')
    (hledger : Ledger signatures fns waiting t) : Ledger signatures fns waiting t' :=
  hledger.of_runs (runs_lowerValue h (.initial signatures)) rfl rfl

theorem ledger_bindName {line : Nat} {name : String} {ty : Ty} {v : VarId}
    {declaration : List TypedStatement} (h : Yields (bindName line name ty) t (v, declaration) t')
    (hledger : Ledger signatures fns waiting t) : Ledger signatures fns waiting t' := by
  have hstep : Step ((State.initial signatures).on t) _ := .hint (binds_bindName h)
  exact hledger.of_runs (.single hstep) rfl rfl

def Extends (body : Lowering Block) (inside : List Function) : Prop :=
  ∀ ⦃signatures : SignatureTable⦄ ⦃fns : List Function⦄ ⦃waiting : List ProcId⦄ ⦃t t' : Table⦄
    ⦃block : Block⦄, Yields body t block t' → Ledger signatures fns waiting t →
      Ledger signatures (fns ++ inside) waiting t'

theorem ledger_countingLoop {line targetLine iterLine : Nat} {name : String} {iter : Expr}
    {body : Lowering Block} {inside : List Function} {returns : Ty} {block : Block}
    (hbody : Extends body inside)
    (h : Yields (countingLoop line targetLine iterLine name (lowerValue iter) body returns) t
      block t')
    (hledger : Ledger signatures fns waiting t) :
    Ledger signatures (fns ++ inside) waiting t' := by
  obtain ⟨v, declaration, t₁, x, t₂, range, t₃, known, inner, t₄, advanced, joined, hbind, hx,
    hrange, -, hinner, -, -, -, rfl⟩ := yields_countingLoop.mp h
  obtain ⟨rfl, -⟩ := rangeOf_yields hrange
  have hbefore := ledger_lowerValue hx (ledger_bindName hbind hledger)
  exact (hbody hinner (hbefore.congr rfl rfl)).congr rfl rfl

theorem ledger_lowerFunction {line : Nat} {name : String} {ps : Parameters} {p : ProcId}
    {body : List Stmt} {inside : List Function} {u : Unit}
    (hbody : Extends (lowerBlock body) inside)
    (h : Yields (lowerFunction line name ps p (lowerBlock body)) t u t')
    (hledger : Ledger signatures fns (p :: waiting) t) :
    Ledger signatures (fns ++ inside) waiting t' := by
  simp only [lowerFunction, yields_bind, yields_tell, yields_inChildScope, yields_return,
    yields_constrainProcedure, yields_modify] at h
  obtain ⟨_, _, rfl, _, _, ⟨t₁, ⟨vs, t₂, hvs, block, t₃, hblock, rfl, rfl⟩, rfl⟩,
    unified, _, ⟨hty, rfl⟩, rfl⟩ := h
  obtain ⟨parameters, hrun, -⟩ :=
    runs_declareParameters hvs (.initial signatures) rfl rfl rfl
  have hentered : Ledger signatures fns (p :: waiting) t.enter := hledger.congr rfl rfl
  have hinside := hbody hblock (hentered.of_runs hrun rfl rfl)
  have hleft : Ledger signatures (fns ++ inside) (p :: waiting) t₃.leave :=
    hinside.congr (by simp) (by simp)
  obtain ⟨free, -, hstatements, hleast⟩ := (agrees_lowerBlock body).mp hblock
  rw [hstatements] at hleast
  exact hleft.complete hleast hty vs

theorem extends_twoPasses {body : List Stmt}
    (hfirst : ∀ {signatures : SignatureTable} {fns : List Function} {waiting : List ProcId}
      {t t' : Table} {pass : FirstPass}, Yields (lowerStmts .unknown body) t pass t' →
      Ledger signatures fns waiting t →
      Ledger signatures (fns ++ Stmt.functionsAll body) (waiting ++ pass.declared) t')
    (hsecond : ∀ {signatures : SignatureTable} {fns : List Function} {waiting : List ProcId}
      {t t' : Table} {declared : List ProcId} {u : Unit},
      declared.length = (body.filterMap Stmt.functionName?).length →
      Yields (lowerBodies body declared) t u t' →
      Ledger signatures fns (declared ++ waiting) t →
      Ledger signatures (fns ++ Stmt.functionsInside body) waiting t') :
    Extends (lowerBlock body) (functions body) := by
  intro signatures fns waiting t t' block h hledger
  simp only [lowerBlock, twoPasses, yields_bind, yields_return] at h
  obtain ⟨pass, t₁, hpass, _, t₂, hbodies, rfl, rfl⟩ := h
  have hlength : pass.declared.length = (body.filterMap Stmt.functionName?).length := by
    let s : State := (State.initial signatures).on t
    obtain ⟨-, -, -, -, -, hplaces, -⟩ := lowers_lowerStmts (s := s) body hpass
    rw [hplaces, ← Stmt.names_outlineAll s.frame.lineage t.procedures.length body]
    simp [s, State.on]
  have hdeclared := (hfirst hpass hledger).perm List.perm_append_comm
  have hall := hsecond hlength hbodies hdeclared
  rwa [List.append_assoc] at hall

end Passes

mutual

theorem ledger_lowerStmt (s : Stmt) {signatures : SignatureTable} {fns : List Function}
    {waiting : List ProcId} {returns : Ty} {t t' : Table} {pass : FirstPass}
    (h : Yields (lowerStmt returns s) t pass t') (hledger : Ledger signatures fns waiting t) :
    Ledger signatures (fns ++ s.functions) (waiting ++ pass.declared) t' := by
  have hplain {fns' : List Function} (hfns : fns' = [])
      (hsame : Ledger signatures fns waiting t') :
      Ledger signatures (fns ++ fns') (waiting ++ []) t' := by
    rwa [hfns, List.append_nil, List.append_nil]
  cases s with
  | functionDef line name ps body decorators hint =>
      simp only [lowerStmt, yields_bind, yields_return] at h
      obtain ⟨p, t₁, hp, rfl, rfl⟩ := h
      obtain ⟨rfl, stated, hstated, rfl⟩ := declareFunction_yields hp
      exact hledger.declare hstated
  | ret line value =>
      cases value with
      | none =>
          simp only [lowerStmt, yields_bind, yields_return, yields_joinReturns] at h
          obtain ⟨joined, t₁, ⟨-, rfl⟩, rfl, rfl⟩ := h
          exact hplain rfl hledger
      | some value =>
          simp only [lowerStmt, yields_bind, yields_return, yields_joinReturns] at h
          obtain ⟨x, t₁, hx, joined, t₂, ⟨-, rfl⟩, rfl, rfl⟩ := h
          exact hplain rfl (ledger_lowerValue hx hledger)
  | assign line targets value =>
      simp only [lowerStmt, yields_bind, yields_return] at h
      obtain ⟨code, t₁, hcode, rfl, rfl⟩ := h
      have hrun := runs_assignAll hcode (.initial signatures) (by simp)
      exact hplain rfl (hledger.of_runs hrun rfl rfl)
  | augAssign line target op value =>
      simp only [lowerStmt, yields_bind, yields_return] at h
      obtain ⟨code, t₁, hcode, rfl, rfl⟩ := h
      exact hplain rfl (hledger.of_runs (runs_augment hcode (.initial signatures)) rfl rfl)
  | annAssign line target hint value =>
      simp only [lowerStmt, yields_bind, yields_return] at h
      obtain ⟨code, t₁, hcode, rfl, rfl⟩ := h
      obtain ⟨hints, hrun, -⟩ := runs_assignHinted hcode line (.initial signatures)
      exact hplain rfl (hledger.of_runs hrun rfl rfl)
  | branch line test body orelse =>
      simp only [lowerStmt, yields_bind, yields_return, yields_joinReturns] at h
      obtain ⟨guard, t₁, hguard, yes, t₂, hyes, no, t₃, hno, joined, t₄, ⟨-, rfl⟩, both, t₅,
        ⟨-, rfl⟩, rfl, rfl⟩ := h
      have hbody := extends_twoPasses (ledger_lowerStmts body) (ledger_lowerBodies body)
      have horelse := extends_twoPasses (ledger_lowerStmts orelse) (ledger_lowerBodies orelse)
      have hall := horelse hno (hbody hyes (ledger_lowerValue hguard hledger))
      rw [List.append_assoc] at hall
      rw [List.append_nil]
      exact hall
  | whileLoop line test body orelse =>
      simp only [lowerStmt] at h
      split at h
      · simp only [yields_bind, yields_return, yields_joinReturns] at h
        obtain ⟨guard, t₁, hguard, block, t₂, hblock, joined, t₃, ⟨-, rfl⟩, rfl, rfl⟩ := h
        have hbody := extends_twoPasses (ledger_lowerStmts body) (ledger_lowerBodies body)
        rw [List.append_nil]
        exact hbody hblock (ledger_lowerValue hguard hledger)
      · exact absurd h yields_refuse
  | forLoop line target iter body orelse =>
      simp only [lowerStmt] at h
      split at h
      · split at h
        · simp only [yields_bind, yields_return] at h
          obtain ⟨block, t₁, hblock, rfl, rfl⟩ := h
          have hbody := extends_twoPasses (ledger_lowerStmts body) (ledger_lowerBodies body)
          rw [List.append_nil]
          exact ledger_countingLoop hbody hblock hledger
        · exact absurd h yields_fail
      · exact absurd h yields_refuse
  | raise line cause =>
      cases cause with
      | none =>
          simp only [lowerStmt, yields_bind, yields_tell, yields_return] at h
          obtain ⟨_, t₁, rfl, rfl, rfl⟩ := h
          exact hplain rfl hledger
      | some cause => exact absurd h yields_refuse
  | expression line value =>
      simp only [lowerStmt, yields_bind, yields_return] at h
      obtain ⟨code, t₁, hcode, rfl, rfl⟩ := h
      have hrun := runs_lowerStandAlone hcode (.initial signatures)
      exact hplain rfl (hledger.of_runs hrun rfl rfl)
  | other line kind =>
      simp only [lowerStmt, yields_bind, yields_return] at h
      obtain ⟨code, t₁, hcode, rfl, rfl⟩ := h
      exact hplain rfl (hledger.of_runs (runs_lowerOther hcode (.initial signatures)) rfl rfl)

theorem ledger_lowerStmts (ss : List Stmt) {signatures : SignatureTable} {fns : List Function}
    {waiting : List ProcId} {returns : Ty} {t t' : Table} {pass : FirstPass}
    (h : Yields (lowerStmts returns ss) t pass t') (hledger : Ledger signatures fns waiting t) :
    Ledger signatures (fns ++ Stmt.functionsAll ss) (waiting ++ pass.declared) t' := by
  cases ss with
  | nil =>
      simp only [lowerStmts, yields_pure] at h
      obtain ⟨rfl, rfl⟩ := h
      simpa [Stmt.functionsAll] using hledger
  | cons s ss =>
      simp only [lowerStmts, yields_bind, yields_tell, yields_return] at h
      obtain ⟨_, _, rfl, here, t₁, hhere, there, t₂, hthere, rfl, rfl⟩ := h
      have hfirst := ledger_lowerStmt s hhere hledger
      have hall := ledger_lowerStmts ss hthere hfirst
      rwa [List.append_assoc, List.append_assoc] at hall

theorem ledger_lowerBodies (ss : List Stmt) {signatures : SignatureTable} {fns : List Function}
    {waiting : List ProcId} {t t' : Table} {declared : List ProcId} {u : Unit}
    (hlength : declared.length = (ss.filterMap Stmt.functionName?).length)
    (h : Yields (lowerBodies ss declared) t u t')
    (hledger : Ledger signatures fns (declared ++ waiting) t) :
    Ledger signatures (fns ++ Stmt.functionsInside ss) waiting t' := by
  cases ss with
  | nil =>
      simp only [lowerBodies, yields_pure] at h
      obtain ⟨-, rfl⟩ := h
      obtain rfl := List.length_eq_zero_iff.mp hlength
      simpa [Stmt.functionsInside] using hledger
  | cons s ss =>
      cases s with
      | functionDef line name ps body decorators hint =>
          cases declared with
          | nil => cases hlength
          | cons p declared =>
              simp only [lowerBodies, yields_bind] at h
              obtain ⟨_, t₁, hfunction, hrest⟩ := h
              have hbody := extends_twoPasses (ledger_lowerStmts body) (ledger_lowerBodies body)
              have hfirst := ledger_lowerFunction hbody hfunction hledger
              have hothers : declared.length = (ss.filterMap Stmt.functionName?).length := by
                simpa [Stmt.functionName?] using hlength
              have hall := ledger_lowerBodies ss hothers hrest hfirst
              rwa [List.append_assoc] at hall
      | _ => exact ledger_lowerBodies ss hlength h hledger

end

/-! ## Whole modules -/

theorem settled_of_run {signatures : SignatureTable} {body : List Stmt} {lowered : Lowered}
    (h : (run signatures (.module body)).result = .ok lowered) {i : Nat} {procedure : Procedure}
    (hprocedure : lowered.declarations.procedures[i]? = some procedure)
    (hname : procedure.name ≠ none) :
    ∃ fn, (functions body)[i]? = some fn ∧ Settled signatures fn procedure := by
  obtain ⟨block, t₁, t₂, hblock, hentry, rfl⟩ := run_yields h
  have hempty : Ledger signatures [] [] (Table.empty signatures) :=
    ⟨rfl, rfl, nofun, .nil, nofun⟩
  have hledger :=
    extends_twoPasses (ledger_lowerStmts body) (ledger_lowerBodies body) hblock hempty
  obtain ⟨hprocedures, -⟩ := wrapEntry_yields hentry
  replace hprocedure : t₂.procedures[i]? = some procedure := hprocedure
  rw [hprocedures] at hprocedure
  rcases Nat.lt_or_ge i t₁.procedures.length with hlt | hge
  · rw [List.getElem?_append_left hlt] at hprocedure
    have hfn : i < (functions body).length := by
      have hlength := hledger.length
      rw [List.nil_append] at hlength
      omega
    refine ⟨(functions body)[i], List.getElem?_eq_getElem hfn, ?_⟩
    have hsettled := hledger.settled i _ (List.getElem?_eq_getElem hfn)
    rwa [Declarations.procAt, hprocedure] at hsettled
  · -- Only the entry comes after the functions, and it has no name.
    rw [List.getElem?_append_right hge] at hprocedure
    have hmem := List.mem_of_getElem? hprocedure
    unfold entryOf at hmem
    split at hmem
    · cases hmem
    · obtain rfl := List.mem_singleton.mp hmem
      exact absurd rfl hname

/-! ## Blocks -/

theorem lowerBlock_ok_iff {body : List Stmt} {block : Block} :
    (lowerBlock body t).result = .ok block ↔ ∃ loose, (looseBlock body t).result = .ok loose ∧
      loose.statements = block.statements ∧
      IsLUB {ty | ty ∈ returned loose.statements} block.returns := by
  have hleast {loose : Block} : Ty.Least .unknown (returned loose.statements) block.returns ↔
      IsLUB {ty | ty ∈ returned loose.statements} block.returns := by
    simp [Ty.Least, isLUB_iff_le_iff, upperBounds]
  constructor
  · intro h
    obtain ⟨loose, hloose, hstatements, hreturns⟩ := (agrees_lowerBlock body).mp ⟨h, rfl⟩
    exact ⟨loose, hloose.1, hstatements, hleast.mp hreturns⟩
  · rintro ⟨loose, hloose, hstatements, hreturns⟩
    exact ((agrees_lowerBlock body).mpr
      ⟨loose, ⟨hloose, rfl⟩, hstatements, hleast.mpr hreturns⟩).1

theorem lowerBlock_error_iff {body : List Stmt} {loose : Block}
    (hloose : (looseBlock body t).result = .ok loose) :
    (∃ d, (lowerBlock body t).result = .error d) ↔
      ¬ BddAbove {ty | ty ∈ returned loose.statements} := by
  constructor
  · rintro ⟨d, hd⟩ ⟨u, hu⟩
    obtain ⟨ty, hty⟩ := Ty.Least.exists_of_le (Ty.unknown_le u) fun x hx => hu hx
    have hlub : IsLUB {ty | ty ∈ returned loose.statements} ty := by
      simpa [Ty.Least, isLUB_iff_le_iff, upperBounds] using hty
    have hok : (lowerBlock body t).result = .ok ⟨loose.statements, ty⟩ :=
      lowerBlock_ok_iff.mpr ⟨loose, hloose, rfl, hlub⟩
    rw [hd] at hok
    cases hok
  · intro hunbounded
    cases hresult : (lowerBlock body t).result with
    | error d => exact ⟨d, rfl⟩
    | ok block =>
        obtain ⟨loose', hloose', -, hlub⟩ := lowerBlock_ok_iff.mp hresult
        rw [hloose] at hloose'
        obtain rfl := Except.ok.inj hloose'
        exact absurd hlub.bddAbove hunbounded

/--
Every named procedure is published with the least type above the one that it
starts with and above all that its body returns.  A block by itself has the least
type above all that it returns.  Lowered without regard to these types it has the
same statements, and it is refused exactly if their types have no upper bound.
-/
theorem published_result_isLUB {signatures : SignatureTable} {body : List Stmt}
    {lowered : Lowered} (ids : IdStream)
    (h : (run signatures (.module body)).result = .ok lowered) :
    let ds := lowered.declarations
    (∀ (i : Nat) p, (ds.publish.map ids).procedures[i]? = some p → p.name ≠ none →
      ∃ fn procedure, (functions body)[i]? = some fn ∧
        ds.procedures[i]? = some procedure ∧ p = (ds.publishProcedure procedure).map ids ∧
        p.name = some fn.name ∧
        IsLUB (insert (fn.resultSeed signatures) {ty | ty ∈ returned procedure.body})
          procedure.ty) ∧
      ∀ (t : Table) (inner : List Stmt),
        (∀ block, (lowerBlock inner t).result = .ok block →
          (∃ loose, (looseBlock inner t).result = .ok loose ∧
            loose.statements = block.statements) ∧
          IsLUB {ty | ty ∈ returned block.statements} block.returns) ∧
        ∀ loose, (looseBlock inner t).result = .ok loose →
          ((∃ d, (lowerBlock inner t).result = .error d) ↔
            ¬ BddAbove {ty | ty ∈ returned loose.statements}) := by
  intro ds
  refine ⟨fun i p hp hname => ?_,
    fun t inner => ⟨fun block hblock => ?_, fun loose hloose => ?_⟩⟩
  · simp only [Document.map, Declarations.publish, List.map_map, List.getElem?_map,
      Option.map_eq_some_iff] at hp
    obtain ⟨procedure, hprocedure, rfl⟩ := hp
    obtain ⟨fn, hfn, hsettled⟩ := settled_of_run h hprocedure hname
    exact ⟨fn, procedure, hfn, hprocedure, rfl, hsettled.name, hsettled.result.isLUB⟩
  · obtain ⟨loose, hloose, hstatements, hlub⟩ := lowerBlock_ok_iff.mp hblock
    exact ⟨⟨loose, hloose, hstatements⟩, hstatements ▸ hlub⟩
  · exact lowerBlock_error_iff hloose

theorem published_result_isLUB_nestedModule : (∃ lowered procedure,
    (run outerSignature (.module nestedModule)).result = .ok lowered ∧
      lowered.declarations.procedures[0]? = some procedure ∧
      returned procedure.body = [.unknown] ∧
      IsLUB (insert .int {ty | ty ∈ returned procedure.body}) procedure.ty) ∧
    ∃ d, (lowerBlock [.ret 1 (some (.constant 1 (.int 3))), .ret 2 none]
      (.empty OrderedMap.empty)).result = .error d := by
  obtain ⟨lowered, h⟩ : ∃ lowered,
    (run outerSignature (.module nestedModule)).result = .ok lowered := ⟨_, rfl⟩
  obtain ⟨hprocedures, hblocks⟩ :=
    published_result_isLUB (IdStream.sequential IdStream.defaultStem) h
  constructor
  · have hfirst : (run outerSignature (.module nestedModule)).result.toOption.map
        (fun lowered => lowered.declarations.procedures[0]?.map fun p =>
          (p.name, returned p.body)) = some (some (some "outer", [.unknown])) := rfl
    rw [h] at hfirst
    obtain ⟨procedure, hprocedure, hparts⟩ := Option.map_eq_some_iff.mp (Option.some.inj hfirst)
    have hpublished : (lowered.declarations.publish.map
        (IdStream.sequential IdStream.defaultStem)).procedures[0]? = some
          ((lowered.declarations.publishProcedure procedure).map
            (IdStream.sequential IdStream.defaultStem)) := by
      simp [Document.map, Declarations.publish, hprocedure]
    have hname : procedure.name = some "outer" := congrArg Prod.fst hparts
    obtain ⟨fn, procedure', hfn, hprocedure', -, -, hlub⟩ := hprocedures 0 _ hpublished
      (by simp [Document.Procedure.map, Declarations.publishProcedure, hname])
    rw [hprocedure] at hprocedure'
    obtain rfl := Option.some.inj hprocedure'
    obtain rfl := Option.some.inj hfn
    exact ⟨lowered, procedure, h, hprocedure, congrArg Prod.snd hparts, hlub⟩
  · refine ((hblocks _ _).2 _ rfl).mpr ?_
    rintro ⟨u, hu⟩
    have hint : Ty.Below .int u := hu (by decide)
    have hvoid : Ty.Below .void u := hu (by decide)
    cases hint with
    | refl => cases hvoid

end Lowering

end TypedPseudocode
