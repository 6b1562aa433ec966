import Mathlib.Tactic.Linarith
import Mathlib.Tactic.Ring
import TypedPseudocode.Document
import TypedPseudocode.Lowering.Module
import TypedPseudocode.Proofs.Execution
import TypedPseudocode.Proofs.Parts
import TypedPseudocode.Proofs.Passes
import TypedPseudocode.Proofs.Renderings

/-!
Loops that count.

A loop over a range is emitted as a loop that tests its counter before each pass
and advances it at the end of each pass.  A pass that goes back to the guard early
does not reach that end, so the counter tells the passes that were finished, not
the passes that were begun: the loop makes the passes of the source exactly when
none of them is cut short.
-/

namespace TypedPseudocode.Code

variable {D V P T D' V' P' T' : Type}

/-! ## Integer literals -/

inductive Literal : Int → Expression V P T → Prop
  | int (n : Int) (ty : T) : Literal n (.literal (.int n) ty)
  | neg {n : Int} {e : Expression V P T} (ty : T) :
      Literal n e → Literal (-n) (.unary .neg e ty)

theorem Literal.eval {M : Machine D V P T} {n : Int} {e : Expression V P T} (h : Literal n e)
    (σ : M.State) : M.eval e σ = some (M.int n, σ) := by
  induction h with
  | int n ty => exact M.eval_int n ty σ
  | neg ty _ ih => exact M.eval_neg ty ih

theorem Literal.map {n : Int} {e : Expression V P T} (h : Literal n e) (f : V → V') (g : P → P')
    (i : T → T') : Literal n (e.map f g i) := by
  induction h with
  | int n ty => exact .int n (i ty)
  | neg ty _ ih => exact .neg (i ty) ih

/-! ## The code of a counting loop -/

structure CountingLoop (D V P T : Type) where
  declared : List D
  counter : V
  start : Expression V P T
  stop : Expression V P T
  step : Expression V P T
  body : List (Statement D V P T)
  tested : T
  advanced : T
  flag : T
  next : T

namespace CountingLoop

def opening (L : CountingLoop D V P T) : List (Statement D V P T) :=
  L.declared.map .declare ++ [.assign L.counter L.start]

def guard (L : CountingLoop D V P T) : Expression V P T :=
  .binary .different (.read L.counter L.tested) L.stop L.flag

def advance (L : CountingLoop D V P T) : Statement D V P T :=
  .assign L.counter (.binary .add (.read L.counter L.advanced) L.step L.next)

def round (L : CountingLoop D V P T) : List (Statement D V P T) := L.body ++ [L.advance]

def code (L : CountingLoop D V P T) : List (Statement D V P T) :=
  L.opening ++ [.loop L.guard L.round]

def map (d : D → D') (f : V → V') (g : P → P') (i : T → T') (L : CountingLoop D V P T) :
    CountingLoop D' V' P' T' where
  declared := L.declared.map d
  counter := f L.counter
  start := L.start.map f g i
  stop := L.stop.map f g i
  step := L.step.map f g i
  body := Statement.mapAll d f g i L.body
  tested := i L.tested
  advanced := i L.advanced
  flag := i L.flag
  next := i L.next

theorem code_injective : Function.Injective (code : CountingLoop D V P T → _) := by
  rintro ⟨ds, v, start, stop, step, body, tested, advanced, flag, next⟩
    ⟨ds', v', start', stop', step', body', tested', advanced', flag', next'⟩ h
  obtain ⟨hopening, hloop⟩ := List.append_inj' h rfl
  obtain ⟨hdeclared, hstart⟩ := List.append_inj' hopening rfl
  obtain ⟨hguard, hround⟩ := Statement.loop.inj (List.singleton_inj.mp hloop)
  obtain ⟨hbody, hadvance⟩ := List.append_inj' hround rfl
  obtain rfl := List.map_injective_iff.mpr (fun _ _ => Statement.declare.inj) hdeclared
  cases hbody
  cases hstart
  cases hguard
  cases hadvance
  rfl

theorem code_map (d : D → D') (f : V → V') (g : P → P') (i : T → T')
    (L : CountingLoop D V P T) : (L.map d f g i).code = Statement.mapAll d f g i L.code := by
  simp [code, opening, round, guard, advance, map, Statement.mapAll_eq_map, Statement.map,
    Expression.map]

/-! ## What a counting loop does -/

section

variable (L : CountingLoop D V P T) (M : Machine D V P T)

/-- Another pass begins, after those that went back to the guard. -/
def Begins (σ : M.State) (ps : List (Pass M.State)) (τ : M.State) : Prop :=
  ∃ σ₀ τ₀, Exec M L.opening σ .normal σ₀ ∧ Passes M L.guard L.round σ₀ ps τ₀ ∧
    M.eval L.guard τ₀ = some (M.bool true, τ)

/--
The body never leaves the loop and never changes the counter: every pass that is begun
finishes, normally or by going back to the guard early.
-/
def Orderly (σ : M.State) : Prop :=
  ∀ ps τ, L.Begins M σ ps τ → ∃ exit τ', Exec M L.body τ exit τ' ∧ exit.past? = none ∧
    M.read τ' L.counter = M.read τ L.counter

/-- No pass goes back to the guard early. -/
def Uninterrupted (σ : M.State) : Prop :=
  ∀ ps τ, L.Begins M σ ps τ → ∃ τ', Exec M L.body τ .normal τ'

/-- The code ends after one pass for each of the values of the counter, in this order. -/
def Counts (σ : M.State) (values : List Int) (last : Int) : Prop :=
  ∃ σ₀ ps τ σ', Exec M L.opening σ .normal σ₀ ∧ Passes M L.guard L.round σ₀ ps τ ∧
    M.eval L.guard τ = some (M.bool false, σ') ∧ Exec M L.code σ .normal σ' ∧
    ps.map (M.read ·.start L.counter) = values.map M.int ∧
    M.read σ' L.counter = M.int last

end

structure Spans (L : CountingLoop D V P T) (a b c : Int) : Prop where
  start : Literal a L.start
  stop : Literal b L.stop
  step : Literal c L.step

def finished {State : Type} (ps : List (Pass State)) : Nat := ps.countP (·.exit = .normal)

section Counter

variable {L : CountingLoop D V P T} {M : Machine D V P T} {a b c m : Int} {σ σ₀ τ τ' : M.State}
  {ps : List (Pass M.State)} {exit : Exit}

theorem Spans.map (h : L.Spans a b c) (d : D → D') (f : V → V') (g : P → P') (i : T → T') :
    (L.map d f g i).Spans a b c :=
  ⟨h.start.map f g i, h.stop.map f g i, h.step.map f g i⟩

theorem exec_declarations (ds : List D) (σ : M.State) :
    ∃ σ', Exec M (ds.map .declare) σ .normal σ' := by
  induction ds generalizing σ with
  | nil => exact ⟨σ, .nil σ⟩
  | cons d ds ih =>
      obtain ⟨σ', h⟩ := ih (M.declare σ d)
      exact ⟨σ', .cons (.declare d σ) h⟩

theorem Spans.exec_opening (h : L.Spans a b c) (σ : M.State) :
    ∃ σ₀, Exec M L.opening σ .normal σ₀ ∧ M.read σ₀ L.counter = M.int a := by
  obtain ⟨τ, hdeclared⟩ := exec_declarations (P := P) (T := T) L.declared σ
  exact ⟨_, hdeclared.append (.single (.assign (h.start.eval τ))), M.read_write ..⟩

theorem Spans.eval_guard (h : L.Spans a b c) (hm : M.read τ L.counter = M.int m) :
    M.eval L.guard τ = some (M.bool (m ≠ b), τ) :=
  M.eval_different _ (hm ▸ M.eval_read ..) (h.stop.eval τ)

theorem Spans.performs_advance (h : L.Spans a b c) (hm : M.read τ L.counter = M.int m) :
    Performs M L.advance τ .normal (M.write τ L.counter (M.int (m + c))) :=
  .assign (M.eval_add _ (hm ▸ M.eval_read ..) (h.step.eval τ))

theorem Spans.exec_round (h : L.Spans a b c) (hm : M.read τ L.counter = M.int m)
    (hbody : Exec M L.body τ exit τ') (hback : exit.past? = none)
    (hkeeps : M.read τ' L.counter = M.read τ L.counter) :
    ∃ υ, Exec M L.round τ exit υ ∧
      M.read υ L.counter = M.int (if exit = .normal then m + c else m) := by
  by_cases hexit : exit = .normal
  · subst hexit
    exact ⟨_, hbody.append (.single (h.performs_advance (hkeeps.trans hm))), M.read_write ..⟩
  · exact ⟨τ', hbody.append_abrupt hexit, by rw [hkeeps, hm, if_neg hexit]⟩

theorem finished_snoc {State : Type} (ps : List (Pass State)) (p : Pass State) :
    a + finished (ps ++ [p]) * c =
      if p.exit = .normal then a + finished ps * c + c else a + finished ps * c := by
  by_cases h : p.exit = .normal
  · simp [finished, h]
    ring
  · simp [finished, h]

/-- The counter has advanced once for each pass that was finished, if it had so far. -/
theorem Spans.read_further (h : L.Spans a b c) (hL : L.Orderly M σ)
    (hopening : Exec M L.opening σ .normal σ₀) {pre : List (Pass M.State)} {τ₀ : M.State}
    (hpre : Passes M L.guard L.round σ₀ pre τ₀)
    (hτ₀ : M.read τ₀ L.counter = M.int (a + finished pre * c))
    (hps : Passes M L.guard L.round τ₀ ps τ) :
    M.read τ L.counter = M.int (a + finished (pre ++ ps) * c) := by
  -- Over the passes still to come; `pre` are those made, which `Orderly` asks for.
  induction hps generalizing pre with
  | nil => simpa using hτ₀
  | cons hguard hround hback _ ih =>
      obtain ⟨-, rfl⟩ := guard_deterministic hguard (h.eval_guard hτ₀)
      obtain ⟨exit, τ', hbody, hback', hkeeps⟩ := hL pre _ ⟨σ₀, _, hopening, hpre, hguard⟩
      obtain ⟨υ, hround', hread⟩ := h.exec_round hτ₀ hbody hback' hkeeps
      obtain ⟨rfl, rfl⟩ := hround.deterministic hround'
      rw [← finished_snoc pre ⟨_, _⟩] at hread
      simpa using ih (hpre.snoc hguard hround hback) hread

theorem Spans.read_counter (h : L.Spans a b c) (hL : L.Orderly M σ)
    (hopening : Exec M L.opening σ .normal σ₀) (hσ₀ : M.read σ₀ L.counter = M.int a)
    (hps : Passes M L.guard L.round σ₀ ps τ) :
    M.read τ L.counter = M.int (a + finished ps * c) :=
  h.read_further hL hopening (.nil σ₀) (by simpa [finished] using hσ₀) hps

def values (a c : Int) (n : Nat) : List Int := (List.range n).map fun i => a + i * c

theorem values_succ (a c : Int) (n : Nat) : values a c (n + 1) = values a c n ++ [a + n * c] := by
  simp [values, List.range_succ]

theorem Spans.rounds {k : Nat} (h : L.Spans a (a + k * c) c) (hc : c ≠ 0) (hL : L.Orderly M σ)
    (hfull : L.Uninterrupted M σ) (hopening : Exec M L.opening σ .normal σ₀)
    (hσ₀ : M.read σ₀ L.counter = M.int a) (n : Nat) (hn : n ≤ k) :
    ∃ ps τ, Passes M L.guard L.round σ₀ ps τ ∧ M.read τ L.counter = M.int (a + n * c) ∧
      ps.map (M.read ·.start L.counter) = (values a c n).map M.int := by
  induction n with
  | zero => exact ⟨[], σ₀, .nil σ₀, by simpa using hσ₀, rfl⟩
  | succ n ih =>
      obtain ⟨ps, τ, hps, hτ, hvalues⟩ := ih (by omega)
      have hguard : M.eval L.guard τ = some (M.bool true, τ) := by
        have hne : a + n * c ≠ a + k * c := by
          intro heq
          have := mul_right_cancel₀ hc (add_left_cancel heq)
          omega
        simpa [hne] using h.eval_guard hτ
      have hbegins : L.Begins M σ ps τ := ⟨σ₀, τ, hopening, hps, hguard⟩
      obtain ⟨exit, τ', hbody, hback, hkeeps⟩ := hL ps τ hbegins
      obtain ⟨τ'', hnormal⟩ := hfull ps τ hbegins
      obtain ⟨rfl, rfl⟩ := hbody.deterministic hnormal
      obtain ⟨υ, hround, hυ⟩ := h.exec_round hτ hbody hback hkeeps
      refine ⟨_, υ, hps.snoc hguard hround rfl, ?_, ?_⟩
      · rw [hυ, if_pos rfl]
        congr 1
        push_cast
        ring
      · simp [values_succ, hvalues, hτ]

theorem Spans.all_finished {k : Nat} {σ' : M.State} (h : L.Spans a b c) (hc : c ≠ 0)
    (hL : L.Orderly M σ) (hopening : Exec M L.opening σ .normal σ₀)
    (hσ₀ : M.read σ₀ L.counter = M.int a) (hps : Passes M L.guard L.round σ₀ ps τ)
    (hguard : M.eval L.guard τ = some (M.bool false, σ'))
    (hlast : M.read σ' L.counter = M.int (a + k * c)) (hlength : ps.length = k) :
    ∀ p ∈ ps, p.exit = .normal := by
  have hτ := h.read_counter hL hopening hσ₀ hps
  obtain ⟨-, rfl⟩ := guard_deterministic hguard (h.eval_guard hτ)
  have hfinished : (finished ps : Int) = k :=
    mul_right_cancel₀ hc (add_left_cancel (M.int_injective (hτ.symm.trans hlast)))
  have hall : finished ps = ps.length := by omega
  simpa using List.countP_eq_length.mp hall

theorem Spans.counts_iff {k : Nat} (h : L.Spans a (a + k * c) c) (hc : c ≠ 0)
    (hL : L.Orderly M σ) :
    L.Counts M σ (values a c k) (a + k * c) ↔ L.Uninterrupted M σ := by
  obtain ⟨σ₀, hopening, hσ₀⟩ := h.exec_opening σ
  constructor
  · rintro ⟨σ₁, ps, τ, σ', hopening', hps, hguard, -, hvalues, hlast⟩ qs ρ
      ⟨σ₂, ρ₀, hopening'', hqs, hguard'⟩
    obtain ⟨-, rfl⟩ := hopening'.deterministic hopening
    obtain ⟨-, rfl⟩ := hopening''.deterministic hopening
    obtain ⟨exit, ρ', hbody, hback, hkeeps⟩ := hL qs ρ ⟨_, ρ₀, hopening, hqs, hguard'⟩
    by_cases hexit : exit = .normal
    · exact ⟨ρ', hexit ▸ hbody⟩
    -- A pass that is cut short would be one of those made, and all of these were finished.
    have hρ₀ := h.read_counter hL hopening hσ₀ hqs
    obtain ⟨-, rfl⟩ := guard_deterministic hguard' (h.eval_guard hρ₀)
    obtain ⟨υ, hround, -⟩ := h.exec_round hρ₀ hbody hback hkeeps
    have hmade : ⟨ρ, exit⟩ ∈ ps := by
      obtain ⟨rs, hrs, hmore⟩ | ⟨rs, rfl, -⟩ :=
        hps.compare (hqs.snoc hguard' hround hback)
      · rw [hmore.eq_nil hguard, List.append_nil] at hrs
        simp [← hrs]
      · simp
    exact absurd (h.all_finished hc hL hopening hσ₀ hps hguard hlast
      (by simpa [values] using congrArg List.length hvalues) _ hmade) hexit
  · intro hfull
    obtain ⟨ps, τ, hps, hτ, hvalues⟩ := h.rounds hc hL hfull hopening hσ₀ k le_rfl
    have hguard : M.eval L.guard τ = some (M.bool false, τ) := by simpa using h.eval_guard hτ
    exact ⟨σ₀, ps, τ, τ, hopening, hps, hguard,
      hopening.append (.single (hps.performs_loop hguard)), hvalues, hτ⟩

theorem Spans.never_ends (h : L.Spans a b c) (hab : a ≠ b)
    (hbody : ∀ τ, ∃ τ', Exec M L.body τ .continued τ' ∧
      M.read τ' L.counter = M.read τ L.counter) {σ' : M.State} :
    ¬ Exec M L.code σ exit σ' := by
  intro hcode
  have hround (τ : M.State) : ∃ τ', Exec M L.round τ .continued τ' := by
    obtain ⟨τ', hτ', -⟩ := hbody τ
    exact ⟨τ', hτ'.append_abrupt (by decide)⟩
  have hL : L.Orderly M σ := by
    intro ps τ _
    obtain ⟨τ', hτ', hkeeps⟩ := hbody τ
    exact ⟨.continued, τ', hτ', rfl, hkeeps⟩
  obtain ⟨σ₀, hopening, hσ₀⟩ := h.exec_opening σ
  obtain ⟨ps, τ, hps, hend⟩ := (hcode.after hopening).of_single.passes rfl
  have hnone : finished ps = 0 :=
    List.countP_eq_zero.mpr fun p hp => by simp [hps.exit_eq hround p hp]
  have hτ : M.read τ L.counter = M.int a := by
    simpa [hnone] using h.read_counter hL hopening hσ₀ hps
  have hguard := h.eval_guard hτ
  obtain hfails | ⟨υ, left, -, hleft, hpast⟩ := hend
  · have := (guard_deterministic hfails hguard).1
    simp [hab] at this
  · obtain ⟨υ', hυ'⟩ := hround υ
    obtain ⟨rfl, -⟩ := hleft.deterministic hυ'
    cases hpast

end Counter

end CountingLoop

end TypedPseudocode.Code

namespace TypedPseudocode

open Code TypedPseudocode.Tree

/-! ## Loops over ranges of literals -/

def Tree.Expr.intLiteral? : Expr → Option Int
  | .constant _ (.int n) | .num _ (.int n) | .nameConstant _ (.int n) => some n
  | .unaryOp _ .plus e => e.intLiteral?
  | .unaryOp _ .minus e => e.intLiteral?.map Neg.neg
  | _ => none

/-- Start, end and step of a call like `range(a, b, c)`, if its arguments write them out. -/
def Tree.Expr.literalBounds? : Expr → Option (Int × Int × Int)
  | .call _ _ args _ =>
      match args.mapM Expr.intLiteral? with
      | some [stop] => some (0, stop, 1)
      | some [start, stop] => some (start, stop, 1)
      | some [start, stop, step] => some (start, stop, step)
      | _ => none
  | _ => none

namespace Lowering

variable {m : Meaning}

theorem literal_of_renders (e : Expr) {n : Int} {x : TypedExpression}
    (hn : e.intLiteral? = some n) (h : Renders m e x) : Literal n x := by
  fun_induction Expr.intLiteral? e generalizing n x with
  | case1 | case2 | case3 =>
      cases hn
      cases h
      exact .int _ _
  | case4 _ e ih =>
      cases h with
      | plus h => exact ih hn h
  | case5 _ e ih =>
      obtain ⟨n, hn', rfl⟩ := Option.map_eq_some_iff.mp hn
      cases h with
      | minus h => exact .neg _ (ih hn' h)
  | case6 => cases hn

theorem literals_of_renders {es : List Expr} {ns : List Int} {xs : List TypedExpression}
    (hns : es.mapM Expr.intLiteral? = some ns) (h : RendersAll m es xs) :
    List.Forall₂ Literal ns xs := by
  induction es generalizing ns xs with
  | nil =>
      cases h
      cases hns
      exact .nil
  | cons e es ih =>
      cases h with
      | cons hx hxs =>
          simp only [List.mapM_cons, Option.bind_eq_bind, Option.bind_eq_some_iff,
            Option.pure_def, Option.some.injEq] at hns
          obtain ⟨n, hn, ns, hns, rfl⟩ := hns
          exact .cons (literal_of_renders e hn hx) (ih hns hxs)

theorem bounds_of_renders {iter : Expr} {arguments : List TypedExpression} {ty : Ty}
    {range : Range} {a b c : Int} (hiter : iter.literalBounds? = some (a, b, c))
    (h : Renders m iter (.callBuiltin "range" arguments ty)) (hbounds : Bounds arguments range) :
    Literal a range.start ∧ Literal b range.stop ∧ Literal c range.step := by
  cases iter with
  | call line func args keywords =>
      have hargs : RendersAll m args arguments := by
        generalize hname : "range" = name at h
        cases h with
        | callBuiltin _ _ hargs => exact hargs
        | append => exact absurd hname (by decide)
      simp only [Expr.literalBounds?] at hiter
      split at hiter
      next hns =>
        obtain ⟨rfl, rfl, rfl⟩ : 0 = a ∧ _ = b ∧ 1 = c := by simpa using hiter
        obtain _ | ⟨hstop, ⟨⟩⟩ := literals_of_renders hns hargs
        cases hbounds
        exact ⟨.int 0 _, hstop, .int 1 _⟩
      next hns =>
        obtain ⟨rfl, rfl, rfl⟩ : _ = a ∧ _ = b ∧ 1 = c := by simpa using hiter
        obtain _ | ⟨hstart, _ | ⟨hstop, ⟨⟩⟩⟩ := literals_of_renders hns hargs
        cases hbounds
        exact ⟨hstart, hstop, .int 1 _⟩
      next hns =>
        obtain ⟨rfl, rfl, rfl⟩ : _ = a ∧ _ = b ∧ _ = c := by simpa using hiter
        obtain _ | ⟨hstart, _ | ⟨hstop, _ | ⟨hstep, ⟨⟩⟩⟩⟩ := literals_of_renders hns hargs
        cases hbounds
        exact ⟨hstart, hstop, hstep⟩
      next => cases hiter
  | _ => cases hiter

theorem Binds.declared {t t' : Table} {name : String} {ty : Ty} {v : VarId}
    {declaration : List TypedStatement} (h : Binds t name ty v declaration t') :
    ∃ ds : List VarId, declaration = ds.map .declare := by
  cases h with
  | known => exact ⟨[], rfl⟩
  | fresh => exact ⟨[_], rfl⟩

theorem countingLoop_code {line targetLine iterLine : Nat} {name : String} {iter : Expr}
    {body : Lowering Block} {returns : Ty} {t t' : Table} {block : Block} {a b c : Int}
    (h : Yields (countingLoop line targetLine iterLine name (lowerValue iter) body returns)
      t block t') (hiter : iter.literalBounds? = some (a, b, c)) :
    ∃ (L : CountingLoop VarId VarId ProcId Ty) (t₁ t₂ : Table) (inner : Block),
      L.code = block.statements ∧ L.Spans a b c ∧
      t₁.scope.get? name = some (.variable L.counter) ∧
      Yields body t₁ inner t₂ ∧ L.body = inner.statements := by
  obtain ⟨v, declaration, t₁, x, t₂, range, t₃, known, inner, t₄, advanced, joined, hbind, hx,
    hrange, -, hinner, -, -, rfl, -⟩ := yields_countingLoop.mp h
  obtain ⟨rfl, arguments, ty, rfl, hbounds⟩ := rangeOf_yields hrange
  have hbinds := binds_bindName hbind
  obtain ⟨ds, rfl⟩ := hbinds.declared
  have hscope := hbinds.get?
  rw [← (evals_lowerExpr iter hx []).scopes_eq.1] at hscope
  have hrenders := renders_lowerExpr (m := fun _ _ => True) iter hx fun _ => trivial
  obtain ⟨hstart, hstop, hstep⟩ := bounds_of_renders hiter hrenders hbounds
  let L : CountingLoop VarId VarId ProcId Ty := {
    declared := ds, counter := v, start := range.start, stop := range.stop, step := range.step
    body := inner.statements, tested := (t₃.raise v known).tyOf v
    advanced := (t₄.raise v advanced).tyOf v, flag := .boolean
    next := BinOp.add.resultTy (t₄.tyOf v) range.step.ty }
  have hcode : L.code = ds.map .declare ++ [.assign v range.start, .loop L.guard L.round] := by
    simp [CountingLoop.code, CountingLoop.opening, L]
  exact ⟨L, t₃.raise v known, t₄, inner, hcode, ⟨hstart, hstop, hstep⟩, hscope, hinner, rfl⟩

/--
Wherever a loop over a range of literals is accepted, what is emitted for it runs the body
once for each value of the range, in order, and then stops, if and only if no pass through the
body goes back to the guard early.  This is so however variables, procedures and types are
referred to, thus in the code of a document as well.
-/
theorem counting_loop_counts_iff {line : Nat} {target iter : Expr} {body orelse : List Stmt}
    {returns : Ty} {t t' : Table} {pass : FirstPass} {a b c : Int} {k : Nat}
    (hloop : Yields (lowerStmt returns (.forLoop line target iter body orelse)) t pass t')
    (hiter : iter.literalBounds? = some (a, b, c)) (hc : c ≠ 0) (hb : b = a + k * c) :
    ∃ (L : CountingLoop VarId VarId ProcId Ty) (name : String) (t₁ t₂ : Table) (inner : Block),
      target.identifier? = some name ∧ t₁.scope.get? name = some (.variable L.counter) ∧
      Yields (twoPasses (lowerStmts .unknown body) (lowerBodies body)) t₁ inner t₂ ∧
      L.body = inner.statements ∧
      ∀ (D V P T : Type) (d : VarId → D) (f : VarId → V) (g : ProcId → P) (i : Ty → T)
        (M : Machine D V P T) (σ : M.State),
        (L.map d f g i).code = Statement.mapAll d f g i pass.statements ∧
        ((L.map d f g i).Orderly M σ →
          ((L.map d f g i).Counts M σ ((List.range k).map fun n => a + n * c) b ↔
            (L.map d f g i).Uninterrupted M σ)) := by
  simp only [lowerStmt] at hloop
  split at hloop
  case isFalse => exact absurd hloop yields_refuse
  split at hloop
  case h_2 => exact absurd hloop yields_fail
  simp only [yields_bind, yields_return] at hloop
  obtain ⟨block, t₁, hblock, rfl, rfl⟩ := hloop
  obtain ⟨L, t₁, t₂, inner, hcode, hspans, hname, hinner, hbody⟩ :=
    countingLoop_code hblock hiter
  refine ⟨L, _, t₁, t₂, inner, rfl, hname, hinner, hbody, fun D V P T d f g i M σ => ⟨?_, ?_⟩⟩
  · rw [L.code_map, hcode]
  · subst hb
    exact (hspans.map d f g i).counts_iff hc

/-! ## Counting to two -/

def countToTwo (body : List Stmt) : Stmt :=
  .forLoop 1 (.name 1 "i" .store) (.call 1 (.name 1 "range" .load) [.constant 1 (.int 2)] [])
    body []

def countToTwoLoop (code : List TypedStatement) : CountingLoop VarId VarId ProcId Ty where
  declared := [⟨0⟩]
  counter := ⟨0⟩
  start := .int 0
  stop := .int 2
  step := .int 1
  body := code
  tested := .int
  advanced := .int
  flag := .boolean
  next := .int

def counting : Table := (Table.empty .empty).withVariable "i" (some .int) none

theorem yields_range {t : Table} (h : t.lookup "range" .enclosing = none) :
    Yields (lowerValue (.call 1 (.name 1 "range" .load) [.constant 1 (.int 2)] [])) t
      (.callBuiltin "range" [.int 2] (.array .int)) t := by
  have hprovided : Builtin.isFunction "range" = true := by decide
  refine yields_bind.mpr ⟨[.int 2], t, ⟨rfl, rfl⟩, yields_bind.mpr
    ⟨none, t, yields_lookupCalled.mpr ⟨h, rfl⟩, ?_⟩⟩
  simp only [callBuiltin, hprovided, if_true]
  exact ⟨rfl, rfl⟩

section

variable {body : List Stmt} {code : List TypedStatement}

theorem yields_countToTwo {t : Table}
    (hbody : Yields (twoPasses (lowerStmts .unknown body) (lowerBodies body)) counting
      ⟨code, .unknown⟩ t) (hty : t.tyOf ⟨0⟩ = .int) :
    Yields (lowerStmt .unknown (countToTwo body)) (Table.empty .empty)
      ⟨⟨(countToTwoLoop code).code, .unknown⟩, []⟩ (t.raise ⟨0⟩ .int) := by
  refine yields_bind.mpr ⟨_, _, yields_countingLoop.mpr ?_, ⟨rfl, rfl⟩⟩
  refine ⟨⟨0⟩, [.declare ⟨0⟩], counting, _, counting, ⟨.int 0, .int 2, .int 1⟩, counting, .int,
    ⟨code, .unknown⟩, t, .int, .unknown, ⟨rfl, rfl⟩, yields_range rfl, ⟨rfl, rfl⟩, rfl,
    hbody, by rw [hty]; rfl, rfl, ?_, rfl⟩
  simp only [hty, Table.tyOf_raise, if_true]
  rfl

theorem run_countToTwo
    (hbody : Yields (twoPasses (lowerStmts .unknown body) (lowerBodies body)) counting
      ⟨code, .unknown⟩ counting) :
    ∃ lowered, (run .empty (.module [countToTwo body])).result = .ok lowered ∧
      lowered.declarations.publish.procedures.map (·.body) =
        [lowered.declarations.publishBody (countToTwoLoop code).code] := by
  have hblock : Yields (lowerBlock [countToTwo body]) (Table.empty .empty)
      ⟨(countToTwoLoop code).code, .unknown⟩ counting := by
    refine yields_bind.mpr ⟨⟨⟨(countToTwoLoop code).code, .unknown⟩, []⟩, counting, ?_,
      ⟨rfl, rfl⟩⟩
    refine yields_bind.mpr ⟨(), _, ⟨rfl, rfl⟩, yields_bind.mpr
      ⟨_, counting, yields_countToTwo hbody rfl, ⟨rfl, rfl⟩⟩⟩
  have hroot : Yields (lowerRoot (.module [countToTwo body])) (Table.empty .empty) _ _ :=
    yields_bind.mpr ⟨_, counting, hblock, ⟨rfl, rfl⟩⟩
  exact ⟨_, hroot.1, rfl⟩

end

/-- `x = i`, and then `x = x + i` if `x != 1` and `x = -x` otherwise. -/
def adjust : List Stmt :=
  [.assign 2 [.name 2 "x" .store] (.name 2 "i" .load),
    .branch 3 (.compare 3 (.name 3 "x" .load) [.notEq] [.constant 3 (.int 1)])
      [.assign 4 [.name 4 "x" .store]
        (.binOp 4 (.name 4 "x" .load) .add (.name 4 "i" .load))]
      [.assign 6 [.name 6 "x" .store] (.unaryOp 6 .minus (.name 6 "x" .load))]]

def adjustCode : List TypedStatement :=
  [.declare ⟨1⟩, .assign ⟨1⟩ (.read ⟨0⟩ .int),
    .selection (.binary .different (.read ⟨1⟩ .int) (.int 1) .boolean)
      [.assign ⟨1⟩ (.binary .add (.read ⟨1⟩ .int) (.read ⟨0⟩ .int) .int)]
      [.assign ⟨1⟩ (.unary .neg (.read ⟨1⟩ .int) .int)]]

theorem yields_adjust :
    Yields (twoPasses (lowerStmts .unknown adjust) (lowerBodies adjust)) counting
      ⟨adjustCode, .unknown⟩ (counting.withVariable "x" (some .int) none) :=
  ⟨rfl, rfl⟩

theorem exec_adjustCode {τ : VarId → Constant} {n : Int} (hn : τ ⟨0⟩ = .int n) :
    ∃ τ', Exec (stores VarId VarId ProcId Ty) adjustCode τ .normal τ' ∧ τ' ⟨0⟩ = τ ⟨0⟩ := by
  let M := stores VarId VarId ProcId Ty
  let υ := M.write τ ⟨1⟩ (τ ⟨0⟩)
  have hx : M.eval (.read ⟨1⟩ .int) υ = some (.int n, υ) := hn ▸ M.eval_read ..
  have hi : M.eval (.read ⟨0⟩ .int) υ = some (.int n, υ) := hn ▸ M.eval_read ..
  have hguard := M.eval_different .boolean hx (M.eval_int 1 .int υ)
  have hbranch : ∃ m, Exec M (if decide (n ≠ 1)
      then [.assign ⟨1⟩ (.binary .add (.read ⟨1⟩ .int) (.read ⟨0⟩ .int) .int)]
      else [.assign ⟨1⟩ (.unary .neg (.read ⟨1⟩ .int) .int)]) υ .normal
      (M.write υ ⟨1⟩ (M.int m)) := by
    by_cases h : n = 1
    · exact ⟨-n, by simpa [h] using Exec.single (.assign (M.eval_neg .int hx))⟩
    · exact ⟨n + n, by simpa [h] using Exec.single (.assign (M.eval_add .int hx hi))⟩
  obtain ⟨m, hbranch⟩ := hbranch
  exact ⟨_, .cons (.declare ..) (.cons (.assign (M.eval_read ..)) (.single
    (.selection hguard hbranch))), rfl⟩

theorem int_of_begins {code : List TypedStatement} {σ τ : VarId → Constant}
    {ps : List (Pass (VarId → Constant))}
    (h : (countToTwoLoop code).Begins (stores VarId VarId ProcId Ty) σ ps τ) :
    ∃ n, τ ⟨0⟩ = .int n := by
  obtain ⟨_, τ₀, _, _, hguard⟩ := h
  obtain ⟨heval, rfl⟩ := pure_eval hguard
  simp only [CountingLoop.guard, countToTwoLoop, Expression.evalIn] at heval
  split at heval
  next m _ hm _ => exact ⟨m, Option.some.inj hm⟩
  next => cases heval

theorem counting_loop_counts_iff_adjust :
    (∃ t, Yields (lowerStmt .unknown (countToTwo adjust)) (Table.empty .empty)
      ⟨⟨(countToTwoLoop adjustCode).code, .unknown⟩, []⟩ t) ∧
    (countToTwoLoop adjustCode).Counts (stores VarId VarId ProcId Ty) (fun _ => .null)
      [0, 1] 2 := by
  have hloop := yields_countToTwo yields_adjust rfl
  obtain ⟨L, -, -, -, -, -, -, -, -, hL⟩ :=
    counting_loop_counts_iff (k := 2) hloop rfl (by decide) rfl
  obtain ⟨hcode, hcounts⟩ := hL VarId VarId ProcId Ty id id id id (stores ..) fun _ => .null
  have heq : L.map id id id id = countToTwoLoop adjustCode := CountingLoop.code_injective hcode
  rw [heq] at hcounts
  refine ⟨⟨_, hloop⟩, (hcounts fun ps τ hbegins => ?_).mpr fun ps τ hbegins => ?_⟩
  · obtain ⟨n, hn⟩ := int_of_begins hbegins
    obtain ⟨τ', hτ', hkeeps⟩ := exec_adjustCode hn
    exact ⟨.normal, τ', hτ', rfl, hkeeps⟩
  · obtain ⟨n, hn⟩ := int_of_begins hbegins
    obtain ⟨τ', hτ', -⟩ := exec_adjustCode hn
    exact ⟨τ', hτ'⟩

/--
With a body that goes back to the guard at once, the loop is accepted, and every pass
finishes and leaves the counter alone, but the code that is published for it never ends.
-/
theorem counting_loop_cut_short :
    ∃ lowered, ∃ L : CountingLoop (Document.Variable Nat) Nat Nat Ty.Published,
      (run .empty (.module [countToTwo [.other 2 .continueLoop]])).result = .ok lowered ∧
      lowered.declarations.publish.procedures.map (·.body) = [L.code] ∧
      ∀ σ, L.Orderly (stores ..) σ ∧ ¬ L.Counts (stores ..) σ [0, 1] 2 ∧
        ∀ exit σ', ¬ Exec (stores ..) L.code σ exit σ' := by
  have hbody : Yields (twoPasses (lowerStmts .unknown [.other 2 .continueLoop])
      (lowerBodies [.other 2 .continueLoop])) counting ⟨[.continueLoop], .unknown⟩ counting :=
    ⟨rfl, rfl⟩
  obtain ⟨lowered, hrun, hpublished⟩ := run_countToTwo hbody
  rw [Declarations.publishBody, ← CountingLoop.code_map] at hpublished
  have hspans : (countToTwoLoop [.continueLoop]).Spans 0 2 1 := ⟨.int 0 _, .int 2 _, .int 1 _⟩
  obtain ⟨L, hcode, hbody, hspans⟩ :
      ∃ L : CountingLoop (Document.Variable Nat) Nat Nat Ty.Published,
        lowered.declarations.publish.procedures.map (·.body) = [L.code] ∧
        L.body = [.continueLoop] ∧ L.Spans 0 2 1 :=
    ⟨_, hpublished, rfl, hspans.map ..⟩
  refine ⟨lowered, L, hrun, hcode, fun σ => ?_⟩
  have hcontinued (τ : (stores (Document.Variable Nat) Nat Nat Ty.Published).State) :
      Exec (stores ..) L.body τ .continued τ := hbody ▸ .leave (.continueLoop τ) (by decide)
  have hnever (exit : Exit) (σ' : (stores (Document.Variable Nat) Nat Nat Ty.Published).State) :
      ¬ Exec (stores ..) L.code σ exit σ' :=
    hspans.never_ends (by decide) fun τ => ⟨τ, hcontinued τ, rfl⟩
  refine ⟨fun _ τ _ => ⟨.continued, τ, hcontinued τ, rfl, rfl⟩, ?_, hnever⟩
  rintro ⟨-, -, -, σ', -, -, -, hends, -⟩
  exact hnever .normal σ' hends

end Lowering

end TypedPseudocode
