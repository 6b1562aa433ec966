import TypedPseudocode.Event
import TypedPseudocode.Table

/-!
Lowering: steps from source trees to pseudocode.

A step works on the symbol table.  Whether it succeeds or fails, it leaves a
table behind and a list of events that it told; a failure ends everything that
was to follow.  No step sees the events that were told before it.

Steps are the same for every kind of id source.  `Lowering` is the one that
numbers the draws, of which most of the theory speaks.
-/

namespace TypedPseudocode

open Code

structure Outcome (α : Type) (σ : Type := Nat) (ι : Type := Nat) where
  result : Except Diagnostic α
  table : Table σ ι
  events : List (Event ι)

/-- Steps that draw ids of the kind `ι` from a source of the kind `σ`. -/
def LoweringWith (σ ι α : Type) : Type := Table σ ι → Outcome α σ ι

abbrev Lowering : Type → Type := LoweringWith Nat Nat

namespace Lowering

variable {σ ι α β : Type}

def pure (a : α) : LoweringWith σ ι α := fun t => ⟨.ok a, t, []⟩

def bind (step : LoweringWith σ ι α) (next : α → LoweringWith σ ι β) :
    LoweringWith σ ι β := fun t =>
  match step t with
  | ⟨.ok a, t', events⟩ =>
      let rest := next a t'
      ⟨rest.result, rest.table, events ++ rest.events⟩
  | ⟨.error d, t', events⟩ => ⟨.error d, t', events⟩

instance : Monad (LoweringWith σ ι) where
  pure := Lowering.pure
  bind := Lowering.bind

@[simp] theorem pure_run (a : α) (t : Table σ ι) :
    (Pure.pure a : LoweringWith σ ι α) t = ⟨.ok a, t, []⟩ := rfl

theorem bind_run_ok {step : LoweringWith σ ι α} {t t' : Table σ ι} {a : α}
    {events : List (Event ι)} (h : step t = ⟨.ok a, t', events⟩) (next : α → LoweringWith σ ι β) :
    (step >>= next) t =
      ⟨(next a t').result, (next a t').table, events ++ (next a t').events⟩ := by
  change Lowering.bind step next t = _
  simp only [Lowering.bind, h]

theorem bind_run_error {step : LoweringWith σ ι α} {t t' : Table σ ι} {d : Diagnostic}
    {events : List (Event ι)} (h : step t = ⟨.error d, t', events⟩)
    (next : α → LoweringWith σ ι β) :
    (step >>= next) t = ⟨.error d, t', events⟩ := by
  change Lowering.bind step next t = _
  simp only [Lowering.bind, h]

theorem map_id_run (step : LoweringWith σ ι α) : id <$> step = step := by
  funext t
  change Lowering.bind step Lowering.pure t = step t
  rcases h : step t with ⟨_ | _, _, _⟩ <;> simp [Lowering.bind, Lowering.pure, h]

theorem pure_bind_run (a : α) (next : α → LoweringWith σ ι β) :
    (Pure.pure a : LoweringWith σ ι α) >>= next = next a := by
  funext t
  change Lowering.bind (Lowering.pure a) next t = next a t
  simp [Lowering.bind, Lowering.pure]

theorem bind_assoc_run {γ : Type} (step : LoweringWith σ ι α)
    (next : α → LoweringWith σ ι β) (last : β → LoweringWith σ ι γ) :
    step >>= next >>= last = step >>= fun a => next a >>= last := by
  funext t
  change Lowering.bind (Lowering.bind step next) last t =
    Lowering.bind step (fun a => Lowering.bind (next a) last) t
  rcases h : step t with ⟨_ | a, t', events⟩
  · simp [Lowering.bind, h]
  · rcases h' : next a t' with ⟨_ | b, t'', later⟩ <;> simp [Lowering.bind, h, h']

instance : LawfulMonad (LoweringWith σ ι) :=
  LawfulMonad.mk' (LoweringWith σ ι) map_id_run pure_bind_run bind_assoc_run

/-! ## Elementary steps -/

def fail (fault : Fault) (line : Nat) : LoweringWith σ ι α :=
  fun t => ⟨.error ⟨fault, line⟩, t, []⟩

def refuse (construct : Construct) (line : Nat) : LoweringWith σ ι α :=
  fail (.unsupported construct) line

def ofExcept (result : Except Diagnostic α) : LoweringWith σ ι α := fun t => ⟨result, t, []⟩

def gets (f : Table σ ι → α) : LoweringWith σ ι α := fun t => ⟨.ok (f t), t, []⟩

def tell (event : Event ι) : LoweringWith σ ι Unit := fun t => ⟨.ok (), t, [event]⟩

def modify (f : Table σ ι → Table σ ι) : LoweringWith σ ι Unit :=
  fun t => ⟨.ok (), f t, []⟩

def ofTable (operation : Table σ ι → Except Diagnostic α × Table σ ι) :
    LoweringWith σ ι α := fun t => ⟨(operation t).1, (operation t).2, []⟩

/-! ## Steps on the table -/

variable [Inhabited ι]

def declareProcedure [IdSource σ ι] (name : Option String) (stated : Option Ty) :
    LoweringWith σ ι ProcId := fun t =>
  let (id, t') := t.declareProcedure name stated
  let p := t'.procAt id
  ⟨.ok id, t', [.declaredProcedure p.displayName p.id p.ty]⟩

def declareVariable [IdSource σ ι] (name : String) (stated : Option Ty) (slot : Option Slot) :
    LoweringWith σ ι VarId := fun t =>
  let (id, t') := t.declareVariable name stated slot
  ⟨.ok id, t', [.declaredVariable name (t'.varAt id).id (t'.tyOf id)]⟩

def lookupVariable (name : String) (reach : Reach) (line : Nat) :
    LoweringWith σ ι (Option VarId) :=
  fun t => ⟨t.lookupVariable name reach line, t, []⟩

def lookupCalled (name : String) (reach : Reach) (arguments : List Ty) (line : Nat) :
    LoweringWith σ ι (Option ProcId) := fun t =>
  match t.lookupCalled name reach arguments line with
  | (.ok (some id), t') =>
      ⟨.ok (some id), t', if t.isNews name then [.capturedSignature name] else []⟩
  | (result, t') => ⟨result, t', []⟩

def constrainVariable (v : VarId) (ty : Ty) (line : Nat) : LoweringWith σ ι Ty :=
  ofTable (·.constrainVariable v ty line)

def constrainProcedure (p : ProcId) (ty : Ty) (line : Nat) : LoweringWith σ ι Ty :=
  ofTable (·.constrainProcedure p ty line)

def readVariable (v : VarId) : LoweringWith σ ι TypedExpression :=
  gets fun t => .read v (t.tyOf v)

/-- Take a step in a new scope, which is left however the step ends. -/
def inChildScope (step : LoweringWith σ ι α) : LoweringWith σ ι α := fun t =>
  let inner := t.enter
  let outcome := step inner
  let left := outcome.table.leave
  ⟨outcome.result, left,
    .enteredScope inner.depth :: outcome.events ++ [.leftScope left.depth]⟩

end Lowering

end TypedPseudocode
