import Mathlib.Data.List.Basic
import TypedPseudocode.Code

/-!
Execution of code.

What statements do when they are executed one after the other: how a loop goes
from pass to pass, and where control goes on a break, a continuation and a
return.  What values are, and what calls, arrays and most operators do, is left
to a machine; of integers it has to compute sums, negatives and inequality.
-/

namespace TypedPseudocode.Code

variable {D V P T : Type}

/-! ## Machines -/

/-- What expressions and single statements mean. -/
structure Machine (D V P T : Type) where
  State : Type
  Value : Type
  int : Int → Value
  bool : Bool → Value
  read : State → V → Value
  write : State → V → Value → State
  declare : State → D → State
  eval : Expression V P T → State → Option (Value × State)
  perform : Statement D V P T → State → Option State
  int_injective : Function.Injective int
  bool_injective : Function.Injective bool
  read_write (σ : State) (v : V) (x : Value) : read (write σ v x) v = x
  eval_read (v : V) (ty : T) (σ : State) : eval (.read v ty) σ = some (read σ v, σ)
  eval_int (n : Int) (ty : T) (σ : State) : eval (.literal (.int n) ty) σ = some (int n, σ)
  eval_neg {e : Expression V P T} {σ τ : State} {n : Int} (ty : T) :
    eval e σ = some (int n, τ) → eval (.unary .neg e ty) σ = some (int (-n), τ)
  eval_add {l r : Expression V P T} {σ τ υ : State} {m n : Int} (ty : T) :
    eval l σ = some (int m, τ) → eval r τ = some (int n, υ) →
    eval (.binary .add l r ty) σ = some (int (m + n), υ)
  eval_different {l r : Expression V P T} {σ τ υ : State} {m n : Int} (ty : T) :
    eval l σ = some (int m, τ) → eval r τ = some (int n, υ) →
    eval (.binary .different l r ty) σ = some (bool (m ≠ n), υ)

/-! ## Execution -/

inductive Exit where
  | normal
  | broke
  | continued
  | returned
  deriving DecidableEq, Repr

/-- How a loop is left when a pass through its body ends; `none` goes back to the guard. -/
def Exit.past? : Exit → Option Exit
  | .normal | .continued => none
  | .broke => some .normal
  | .returned => some .returned

mutual

inductive Performs (M : Machine D V P T) : Statement D V P T → M.State → Exit → M.State → Prop
  | declare (d : D) (σ : M.State) : Performs M (.declare d) σ .normal (M.declare σ d)
  | call {p : P} {es : List (Expression V P T)} {σ σ' : M.State} :
      M.perform (.call p es) σ = some σ' → Performs M (.call p es) σ .normal σ'
  | callBuiltin {name : String} {es : List (Expression V P T)} {σ σ' : M.State} :
      M.perform (.callBuiltin name es) σ = some σ' →
      Performs M (.callBuiltin name es) σ .normal σ'
  | assignElement {v : V} {es : List (Expression V P T)} {e : Expression V P T}
      {σ σ' : M.State} : M.perform (.assignElement v es e) σ = some σ' →
      Performs M (.assignElement v es e) σ .normal σ'
  | assign {v : V} {e : Expression V P T} {x : M.Value} {σ τ : M.State} :
      M.eval e σ = some (x, τ) → Performs M (.assign v e) σ .normal (M.write τ v x)
  | retNone (σ : M.State) : Performs M (.ret none) σ .returned σ
  | retSome {e : Expression V P T} {x : M.Value} {σ σ' : M.State} :
      M.eval e σ = some (x, σ') → Performs M (.ret (some e)) σ .returned σ'
  | selection {guard : Expression V P T} {body alternative : List (Statement D V P T)}
      {flag : Bool} {exit : Exit} {σ τ σ' : M.State} :
      M.eval guard σ = some (M.bool flag, τ) →
      Exec M (if flag then body else alternative) τ exit σ' →
      Performs M (.selection guard body alternative) σ exit σ'
  | loopDone {guard : Expression V P T} {body : List (Statement D V P T)} {σ σ' : M.State} :
      M.eval guard σ = some (M.bool false, σ') → Performs M (.loop guard body) σ .normal σ'
  | loopPass {guard : Expression V P T} {body : List (Statement D V P T)} {exit exit' : Exit}
      {σ τ υ σ' : M.State} :
      M.eval guard σ = some (M.bool true, τ) → Exec M body τ exit υ → exit.past? = none →
      Performs M (.loop guard body) υ exit' σ' → Performs M (.loop guard body) σ exit' σ'
  | loopLeft {guard : Expression V P T} {body : List (Statement D V P T)} {exit exit' : Exit}
      {σ τ σ' : M.State} :
      M.eval guard σ = some (M.bool true, τ) → Exec M body τ exit σ' →
      exit.past? = some exit' → Performs M (.loop guard body) σ exit' σ'
  | breakLoop (σ : M.State) : Performs M .breakLoop σ .broke σ
  | continueLoop (σ : M.State) : Performs M .continueLoop σ .continued σ

/-- Statements are executed in order; what follows an abrupt exit is passed over. -/
inductive Exec (M : Machine D V P T) :
    List (Statement D V P T) → M.State → Exit → M.State → Prop
  | nil (σ : M.State) : Exec M [] σ .normal σ
  | cons {s : Statement D V P T} {code : List (Statement D V P T)} {exit : Exit}
      {σ τ σ' : M.State} :
      Performs M s σ .normal τ → Exec M code τ exit σ' → Exec M (s :: code) σ exit σ'
  | leave {s : Statement D V P T} {code : List (Statement D V P T)} {exit : Exit}
      {σ σ' : M.State} :
      Performs M s σ exit σ' → exit ≠ .normal → Exec M (s :: code) σ exit σ'

end

variable {M : Machine D V P T}

/-! ## Determinism -/

theorem guard_deterministic {guard : Expression V P T} {flag flag' : Bool} {σ τ τ' : M.State}
    (h : M.eval guard σ = some (M.bool flag, τ)) (h' : M.eval guard σ = some (M.bool flag', τ')) :
    flag = flag' ∧ τ = τ' := by
  rw [h] at h'
  obtain ⟨hflag, hstate⟩ := Prod.mk.inj (Option.some.inj h')
  exact ⟨M.bool_injective hflag, hstate⟩

mutual

theorem Performs.deterministic {s : Statement D V P T} {exit : Exit} {σ σ₁ : M.State}
    (h : Performs M s σ exit σ₁) {exit' : Exit} {σ₂ : M.State}
    (h' : Performs M s σ exit' σ₂) : exit = exit' ∧ σ₁ = σ₂ := by
  match h with
  | .declare .. | .retNone _ | .breakLoop _ | .continueLoop _ =>
      cases h'
      exact ⟨rfl, rfl⟩
  | .call heval | .callBuiltin heval | .assignElement heval =>
      cases h' with
      | _ heval' => exact ⟨rfl, Option.some.inj (heval.symm.trans heval')⟩
  | .assign heval =>
      cases h' with
      | assign heval' =>
          cases heval.symm.trans heval'
          exact ⟨rfl, rfl⟩
  | .retSome heval =>
      cases h' with
      | retSome heval' =>
          cases heval.symm.trans heval'
          exact ⟨rfl, rfl⟩
  | .selection hguard hbranch =>
      cases h' with
      | selection hguard' hbranch' =>
          obtain ⟨rfl, rfl⟩ := guard_deterministic hguard hguard'
          exact hbranch.deterministic hbranch'
  | .loopDone hguard =>
      cases h' with
      | loopDone hguard' => exact ⟨rfl, (guard_deterministic hguard hguard').2⟩
      | loopPass hguard' | loopLeft hguard' => cases (guard_deterministic hguard hguard').1
  | .loopPass hguard hbody hback hrest =>
      cases h' with
      | loopDone hguard' => cases (guard_deterministic hguard hguard').1
      | loopPass hguard' hbody' hback' hrest' =>
          obtain ⟨-, rfl⟩ := guard_deterministic hguard hguard'
          obtain ⟨rfl, rfl⟩ := hbody.deterministic hbody'
          exact hrest.deterministic hrest'
      | loopLeft hguard' hbody' hleft' =>
          obtain ⟨-, rfl⟩ := guard_deterministic hguard hguard'
          obtain ⟨rfl, rfl⟩ := hbody.deterministic hbody'
          cases hback.symm.trans hleft'
  | .loopLeft hguard hbody hleft =>
      cases h' with
      | loopDone hguard' => cases (guard_deterministic hguard hguard').1
      | loopPass hguard' hbody' hback' hrest' =>
          obtain ⟨-, rfl⟩ := guard_deterministic hguard hguard'
          obtain ⟨rfl, rfl⟩ := hbody.deterministic hbody'
          cases hback'.symm.trans hleft
      | loopLeft hguard' hbody' hleft' =>
          obtain ⟨-, rfl⟩ := guard_deterministic hguard hguard'
          obtain ⟨rfl, rfl⟩ := hbody.deterministic hbody'
          exact ⟨Option.some.inj (hleft.symm.trans hleft'), rfl⟩

theorem Exec.deterministic {code : List (Statement D V P T)} {exit : Exit} {σ σ₁ : M.State}
    (h : Exec M code σ exit σ₁) {exit' : Exit} {σ₂ : M.State}
    (h' : Exec M code σ exit' σ₂) : exit = exit' ∧ σ₁ = σ₂ := by
  match h with
  | .nil _ =>
      cases h'
      exact ⟨rfl, rfl⟩
  | .cons hfirst hrest =>
      cases h' with
      | cons hfirst' hrest' =>
          obtain ⟨-, rfl⟩ := hfirst.deterministic hfirst'
          exact hrest.deterministic hrest'
      | leave hfirst' habrupt => exact absurd (hfirst.deterministic hfirst').1.symm habrupt
  | .leave hfirst habrupt =>
      cases h' with
      | cons hfirst' hrest' => exact absurd (hfirst.deterministic hfirst').1 habrupt
      | leave hfirst' _ => exact hfirst.deterministic hfirst'

end

/-! ## Code one after the other -/

section Append

variable {first second : List (Statement D V P T)} {exit : Exit} {σ τ σ' : M.State}

theorem Exec.append (h : Exec M first σ .normal τ) (h' : Exec M second τ exit σ') :
    Exec M (first ++ second) σ exit σ' := by
  induction first generalizing σ with
  | nil =>
      cases h
      exact h'
  | cons s first ih =>
      cases h with
      | cons hs hfirst => exact .cons hs (ih hfirst)
      | leave _ habrupt => exact absurd rfl habrupt

theorem Exec.append_abrupt (h : Exec M first σ exit σ') (habrupt : exit ≠ .normal) :
    Exec M (first ++ second) σ exit σ' := by
  induction first generalizing σ with
  | nil =>
      cases h
      exact absurd rfl habrupt
  | cons s first ih =>
      cases h with
      | cons hs hfirst => exact .cons hs (ih hfirst)
      | leave hs _ => exact .leave hs habrupt

theorem Exec.after (h : Exec M (first ++ second) σ exit σ') (hfirst : Exec M first σ .normal τ) :
    Exec M second τ exit σ' := by
  induction first generalizing σ with
  | nil =>
      cases hfirst
      exact h
  | cons s first ih =>
      cases hfirst with
      | leave _ habrupt => exact absurd rfl habrupt
      | cons hs hfirst =>
          cases h with
          | cons hs' h =>
              obtain ⟨-, rfl⟩ := hs.deterministic hs'
              exact ih h hfirst
          | leave hs' habrupt => exact absurd (hs.deterministic hs').1.symm habrupt

theorem Exec.single {s : Statement D V P T} (h : Performs M s σ exit σ') :
    Exec M [s] σ exit σ' := by
  by_cases hexit : exit = .normal
  · subst hexit
    exact .cons h (.nil σ')
  · exact .leave h hexit

theorem Exec.of_single {s : Statement D V P T} (h : Exec M [s] σ exit σ') :
    Performs M s σ exit σ' := by
  cases h with
  | cons hs hnil =>
      cases hnil
      exact hs
  | leave hs _ => exact hs

end Append

/-! ## Passes of a loop -/

structure Pass (State : Type) where
  start : State
  exit : Exit

/-- Passes one after the other, each of which goes back to the guard. -/
inductive Passes (M : Machine D V P T) (guard : Expression V P T)
    (body : List (Statement D V P T)) : M.State → List (Pass M.State) → M.State → Prop
  | nil (σ : M.State) : Passes M guard body σ [] σ
  | cons {ps : List (Pass M.State)} {exit : Exit} {σ τ υ σ' : M.State} :
      M.eval guard σ = some (M.bool true, τ) → Exec M body τ exit υ → exit.past? = none →
      Passes M guard body υ ps σ' → Passes M guard body σ (⟨τ, exit⟩ :: ps) σ'

namespace Passes

variable {guard : Expression V P T} {body : List (Statement D V P T)}
  {ps qs : List (Pass M.State)} {σ τ υ σ' : M.State}

theorem append (h : Passes M guard body σ ps τ) (h' : Passes M guard body τ qs υ) :
    Passes M guard body σ (ps ++ qs) υ := by
  induction h with
  | nil => exact h'
  | cons hguard hbody hback _ ih => exact .cons hguard hbody hback (ih h')

theorem snoc {exit : Exit} (h : Passes M guard body σ ps τ)
    (hguard : M.eval guard τ = some (M.bool true, υ)) (hbody : Exec M body υ exit σ')
    (hback : exit.past? = none) : Passes M guard body σ (ps ++ [⟨υ, exit⟩]) σ' :=
  h.append (.cons hguard hbody hback (.nil σ'))

theorem eq_nil (h : Passes M guard body σ ps τ)
    (hguard : M.eval guard σ = some (M.bool false, υ)) : ps = [] := by
  cases h with
  | nil => rfl
  | cons hguard' => cases (guard_deterministic hguard hguard').1

theorem compare (h : Passes M guard body σ ps τ) (h' : Passes M guard body σ qs υ) :
    (∃ rs, qs = ps ++ rs ∧ Passes M guard body τ rs υ) ∨
      ∃ rs, ps = qs ++ rs ∧ Passes M guard body υ rs τ := by
  induction h generalizing qs with
  | nil => exact .inl ⟨qs, rfl, h'⟩
  | cons hguard hbody hback hrest ih =>
      cases h' with
      | nil => exact .inr ⟨_, rfl, .cons hguard hbody hback hrest⟩
      | cons hguard' hbody' _ hrest' =>
          obtain ⟨-, rfl⟩ := guard_deterministic hguard hguard'
          obtain ⟨rfl, rfl⟩ := hbody.deterministic hbody'
          obtain ⟨rs, rfl, hrs⟩ | ⟨rs, rfl, hrs⟩ := ih hrest'
          · exact .inl ⟨rs, rfl, hrs⟩
          · exact .inr ⟨rs, rfl, hrs⟩

theorem exit_eq {exit : Exit} (h : Passes M guard body σ ps τ)
    (hbody : ∀ τ, ∃ τ', Exec M body τ exit τ') : ∀ p ∈ ps, p.exit = exit := by
  induction h with
  | nil => simp
  | @cons _ exit' _ τ _ _ _ hpass _ _ ih =>
      obtain ⟨τ', h⟩ := hbody τ
      exact List.forall_mem_cons.mpr ⟨(hpass.deterministic h).1, ih⟩

theorem performs_loop (h : Passes M guard body σ ps τ)
    (hguard : M.eval guard τ = some (M.bool false, σ')) :
    Performs M (.loop guard body) σ .normal σ' := by
  induction h with
  | nil => exact .loopDone hguard
  | cons hguard' hbody hback _ ih => exact .loopPass hguard' hbody hback (ih hguard)

end Passes

theorem Performs.passes {s : Statement D V P T} {guard : Expression V P T}
    {body : List (Statement D V P T)} {exit : Exit} {σ σ' : M.State}
    (h : Performs M s σ exit σ') (hs : s = .loop guard body) :
    ∃ ps τ, Passes M guard body σ ps τ ∧
      (M.eval guard τ = some (M.bool false, σ') ∨
        ∃ υ left, M.eval guard τ = some (M.bool true, υ) ∧ Exec M body υ left σ' ∧
          left.past? = some exit) := by
  -- The recursion is on the derivation, whose statement has to be a variable for that.
  match h with
  | .loopDone hguard =>
      cases hs
      exact ⟨[], σ, .nil σ, .inl hguard⟩
  | .loopLeft hguard hbody hleft =>
      cases hs
      exact ⟨[], σ, .nil σ, .inr ⟨_, _, hguard, hbody, hleft⟩⟩
  | .loopPass hguard hbody hback hrest =>
      obtain ⟨ps, τ, hpasses, hend⟩ := hrest.passes hs
      cases hs
      exact ⟨_, τ, .cons hguard hbody hback hpasses, hend⟩

/-! ## A machine for integers -/

def Expression.evalIn (σ : V → Constant) : Expression V P T → Option Constant
  | .read v _ => some (σ v)
  | .literal value _ => some value
  | .unary .neg e _ =>
      match e.evalIn σ with
      | some (.int n) => some (.int (-n))
      | _ => none
  | .binary .add l r _ =>
      match l.evalIn σ, r.evalIn σ with
      | some (.int m), some (.int n) => some (.int (m + n))
      | _, _ => none
  | .binary .different l r _ =>
      match l.evalIn σ, r.evalIn σ with
      | some (.int m), some (.int n) => some (.bool (m ≠ n))
      | _, _ => none
  | _ => none

theorem pure_eval {σ τ : V → Constant} {o : Option Constant} {x : Constant}
    (h : o.map (·, σ) = some (x, τ)) : o = some x ∧ σ = τ := by
  obtain ⟨y, rfl, hy⟩ := Option.map_eq_some_iff.mp h
  cases hy
  exact ⟨rfl, rfl⟩

def stores (D V P T : Type) [DecidableEq V] : Machine D V P T where
  State := V → Constant
  Value := Constant
  int := .int
  bool := .bool
  read σ v := σ v
  write σ v x := fun w => if w = v then x else σ w
  declare σ _ := σ
  eval e σ := (e.evalIn σ).map (·, σ)
  perform _ _ := none
  int_injective _ _ h := Constant.int.inj h
  bool_injective _ _ h := Constant.bool.inj h
  read_write _ _ _ := if_pos rfl
  eval_read _ _ _ := rfl
  eval_int _ _ _ := rfl
  eval_neg _ h := by
    obtain ⟨he, rfl⟩ := pure_eval h
    simp [Expression.evalIn, he]
  eval_add _ h h' := by
    obtain ⟨hl, rfl⟩ := pure_eval h
    obtain ⟨hr, rfl⟩ := pure_eval h'
    simp [Expression.evalIn, hl, hr]
  eval_different _ h h' := by
    obtain ⟨hl, rfl⟩ := pure_eval h
    obtain ⟨hr, rfl⟩ := pure_eval h'
    simp [Expression.evalIn, hl, hr]

end TypedPseudocode.Code
