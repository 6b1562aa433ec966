import TypedPseudocode.Proofs.Yields

/-!
Sessions: whatever is done to a symbol table, in whatever order.

Every operation keeps the table consistent: scopes bind names to declarations of
those names, each variable has a type on record, only named procedures are called,
and nothing is captured of a procedure whose signature was supplied.  An operation
that fails, or that looks for something in vain, changes nothing at all.  When a
scope is left, all names stand for what they stood for when it was opened.
-/

namespace TypedPseudocode

open Code

/-! ## Operations and sessions -/

/-- The operations of a symbol table; those that can fail blame a line of the source. -/
inductive Operation where
  | enter
  | leave
  | declareProcedure (name : Option String) (stated : Option Ty)
  | declareVariable (name : String) (stated : Option Ty) (slot : Option Slot)
  | lookup (name : String) (reach : Reach)
  | lookupVariable (name : String) (reach : Reach) (line : Nat)
  | lookupCalled (name : String) (reach : Reach) (arguments : List Ty) (line : Nat)
  | constrainVariable (v : VarId) (ty : Ty) (line : Nat)
  | constrainProcedure (p : ProcId) (ty : Ty) (line : Nat)

inductive Answer where
  | done
  | declared (d : Declaration)
  | found (d : Option Declaration)
  | unified (ty : Ty)

def Operation.perform : Operation → Lowering Answer
  | .enter => (fun _ => .done) <$> Lowering.modify Table.enter
  | .leave => (fun _ => .done) <$> Lowering.modify Table.leave
  | .declareProcedure name stated =>
      (fun p => .declared (.procedure p)) <$> Lowering.declareProcedure name stated
  | .declareVariable name stated slot =>
      (fun v => .declared (.variable v)) <$> Lowering.declareVariable name stated slot
  | .lookup name reach => .found <$> Lowering.gets (·.lookup name reach)
  | .lookupVariable name reach line =>
      (fun v => .found (v.map .variable)) <$> Lowering.lookupVariable name reach line
  | .lookupCalled name reach arguments line =>
      (fun p => .found (p.map .procedure)) <$> Lowering.lookupCalled name reach arguments line
  | .constrainVariable v ty line => .unified <$> Lowering.constrainVariable v ty line
  | .constrainProcedure p ty line => .unified <$> Lowering.constrainProcedure p ty line

/-- The table that a session leaves behind; it goes on after operations that fail. -/
def Table.after (t : Table) (session : List Operation) : Table :=
  session.foldl (fun t operation => (operation.perform t).table) t

@[simp] theorem Table.after_nil (t : Table) : t.after [] = t := rfl

@[simp] theorem Table.after_cons (t : Table) (operation : Operation) (session : List Operation) :
    t.after (operation :: session) = (operation.perform t).table.after session := rfl

theorem Table.after_append (t : Table) (session session' : List Operation) :
    t.after (session ++ session') = (t.after session).after session' :=
  List.foldl_append

/-! ## Steps that fail -/

namespace Lowering

variable {α β : Type}

theorem map_run (f : α → β) (step : Lowering α) (t : Table) :
    (f <$> step) t = ⟨(step t).result.map f, (step t).table, (step t).events⟩ := by
  change Lowering.bind step (fun a => Lowering.pure (f a)) t = _
  rcases h : step t with ⟨_ | a, t', events⟩
  · simp only [Lowering.bind, h]
    rfl
  · simp only [Lowering.bind, h, Lowering.pure, List.append_nil]
    rfl

theorem yields_map {f : α → β} {step : Lowering α} {t t' : Table} {b : β} :
    Yields (f <$> step) t b t' ↔ ∃ a, Yields step t a t' ∧ f a = b := by
  rw [map_eq_pure_bind, yields_bind]
  simp only [yields_return]
  constructor
  · rintro ⟨a, _, hstep, hb, rfl⟩
    exact ⟨a, hstep, hb⟩
  · rintro ⟨a, hstep, hb⟩
    exact ⟨a, t', hstep, hb, rfl⟩

def Atomic (step : Lowering α) : Prop :=
  ∀ t d, (step t).result = .error d → (step t).table = t

theorem Atomic.map {step : Lowering α} (h : Atomic step) (f : α → β) : Atomic (f <$> step) := by
  intro t d herror
  rw [map_run] at herror ⊢
  refine h t d ?_
  cases hresult : (step t).result with
  | error d' =>
      rw [hresult] at herror
      cases herror
      rfl
  | ok a =>
      rw [hresult] at herror
      cases herror

theorem atomic_constrainVariable (v : VarId) (ty : Ty) (line : Nat) :
    Atomic (constrainVariable v ty line) := by
  intro t d herror
  simp only [constrainVariable, ofTable, Table.constrainVariable_eq] at herror ⊢
  cases hunify : (t.tyOf v).unify ty with
  | none => rfl
  | some unified => simp [hunify] at herror

theorem atomic_constrainProcedure (p : ProcId) (ty : Ty) (line : Nat) :
    Atomic (constrainProcedure p ty line) := by
  intro t d herror
  simp only [constrainProcedure, ofTable, Table.constrainProcedure] at herror ⊢
  cases hunify : (t.procAt p).ty.unify ty with
  | none => rfl
  | some unified => simp [hunify] at herror

theorem atomic_lookupCalled (name : String) (reach : Reach) (arguments : List Ty) (line : Nat) :
    Atomic (lookupCalled name reach arguments line) := by
  intro t d herror
  simp only [lookupCalled, Table.lookupCalled] at herror ⊢
  rcases hlookup : t.lookup name reach with _ | p | v
  · rfl
  · simp [hlookup] at herror
  · rfl

end Lowering

theorem Operation.atomic_perform (operation : Operation) : Lowering.Atomic operation.perform := by
  cases operation with
  | enter => exact Lowering.Atomic.map (fun _ _ h => by cases h) _
  | leave => exact Lowering.Atomic.map (fun _ _ h => by cases h) _
  | declareProcedure name stated => exact Lowering.Atomic.map (fun _ _ h => by cases h) _
  | declareVariable name stated slot => exact Lowering.Atomic.map (fun _ _ h => by cases h) _
  | lookup name reach => exact Lowering.Atomic.map (fun _ _ _ => rfl) _
  | lookupVariable name reach line => exact Lowering.Atomic.map (fun _ _ _ => rfl) _
  | lookupCalled name reach arguments line =>
      exact (Lowering.atomic_lookupCalled name reach arguments line).map _
  | constrainVariable v ty line => exact (Lowering.atomic_constrainVariable v ty line).map _
  | constrainProcedure p ty line => exact (Lowering.atomic_constrainProcedure p ty line).map _

/-! ## Steps that change something -/

/-- The ways in which an operation can change a table. -/
inductive Operation.Change (t : Table) : Table → Prop
  | unchanged : Change t t
  | entered : Change t t.enter
  | left : Change t t.leave
  | procedure (name : Option String) (stated : Option Ty) :
      Change t (t.declareProcedure name stated).2
  | variable (name : String) (stated : Option Ty) (slot : Option Slot) :
      Change t (t.withVariable name stated slot)
  | reached {name : String} {reach : Reach} {p : ProcId} (arguments : List Ty) :
      t.lookup name reach = some (.procedure p) → Change t (t.reach name p arguments)
  | raised (v : VarId) (ty : Ty) : Change t (t.raise v ty)
  | constrained (p : ProcId) (ty : Ty) : Change t (t.updateProcedure p ({ · with ty := ty }))

theorem Lowering.Atomic.change {α : Type} {step : Lowering α} (h : Lowering.Atomic step)
    {t : Table} (hyields : ∀ a t', Lowering.Yields step t a t' → Operation.Change t t') :
    Operation.Change t (step t).table := by
  cases hresult : (step t).result with
  | error d =>
      rw [h t d hresult]
      exact .unchanged
  | ok a => exact hyields a _ ⟨hresult, rfl⟩

theorem Operation.change_perform (operation : Operation) (t : Table) :
    Change t (operation.perform t).table := by
  unfold perform
  split <;> rw [Lowering.map_run]
  case h_1 => exact .entered
  case h_2 => exact .left
  case h_3 name stated => exact .procedure name stated
  case h_4 name stated slot => exact .variable name stated slot
  case h_5 | h_6 => exact .unchanged
  case h_7 name reach arguments line =>
      refine (Lowering.atomic_lookupCalled name reach arguments line).change fun found t' h => ?_
      obtain ⟨hlookup, rfl⟩ := Lowering.yields_lookupCalled.mp h
      cases found with
      | none => exact .unchanged
      | some p => exact .reached arguments hlookup
  case h_8 v ty line =>
      refine (Lowering.atomic_constrainVariable v ty line).change fun unified t' h => ?_
      obtain ⟨-, rfl⟩ := Lowering.yields_constrainVariable.mp h
      exact .raised v unified
  case h_9 p ty line =>
      refine (Lowering.atomic_constrainProcedure p ty line).change fun unified t' h => ?_
      obtain ⟨-, rfl⟩ := Lowering.yields_constrainProcedure.mp h
      exact .constrained p unified

theorem Operation.still_of_found_none {operation : Operation} {t t' : Table}
    (h : Lowering.Yields operation.perform t (.found none) t') : t' = t := by
  cases operation with
  | lookup name reach =>
      obtain ⟨_, hgets, -⟩ := Lowering.yields_map.mp h
      exact (Lowering.yields_gets.mp hgets).2.symm
  | lookupVariable name reach line =>
      obtain ⟨_, hlookup, -⟩ := Lowering.yields_map.mp h
      exact (Lowering.yields_lookupVariable.mp hlookup).2.symm
  | lookupCalled name reach arguments line =>
      obtain ⟨found, hcalled, hfound⟩ := Lowering.yields_map.mp h
      have hnone : found = none := by simpa using hfound
      subst hnone
      exact (Lowering.yields_lookupCalled.mp hcalled).2
  | _ =>
      obtain ⟨_, -, hfound⟩ := Lowering.yields_map.mp h
      cases hfound

/-! ## Consistency -/

/-- What a name in scope may stand for: an existing declaration of that very name. -/
def Table.Stands (t : Table) (name : String) : Declaration → Prop
  | .procedure p => ∃ q, t.procedures[p.index]? = some q ∧ q.name = some name
  | .variable v => ∃ x, t.vars[v.index]? = some x ∧ x.name = name

structure Table.Consistent (t : Table) : Prop where
  depth : 0 < t.depth
  bindings : t.AllBound t.Stands
  stored : ∀ v : VarId, v.index < t.vars.length → (t.types.get? v).isSome
  called : ∀ p ∈ t.procedures, p.called → p.name.isSome
  captured : ∀ name, t.captured.contains name → ¬ t.signatures.contains name

namespace Table

variable {t t' : Table} {name : String} {d : Declaration}

theorem Stands.mono (h : t.Stands name d)
    (hprocedures : t.procedures.map (·.name) <+: t'.procedures.map (·.name))
    (hvars : t.vars <+: t'.vars) : t'.Stands name d := by
  cases d with
  | procedure p =>
      obtain ⟨q, hq, hname⟩ := h
      have hnamed : (t.procedures.map (·.name))[p.index]? = some (some name) := by
        simp [hq, hname]
      have hnamed' := getElem?_of_prefix hprocedures hnamed
      rw [List.getElem?_map] at hnamed'
      exact Option.map_eq_some_iff.mp hnamed'
  | «variable» v =>
      obtain ⟨x, hx, hname⟩ := h
      exact ⟨x, getElem?_of_prefix hvars hx, hname⟩

namespace Consistent

theorem empty (signatures : SignatureTable) : (Table.empty signatures).Consistent where
  depth := Nat.one_pos
  bindings := .empty signatures
  stored _ hv := absurd hv (Nat.not_lt_zero _)
  called _ hp := absurd hp List.not_mem_nil
  captured _ hname := by cases hname

theorem enter (h : t.Consistent) : t.enter.Consistent :=
  { h with depth := Nat.succ_pos _, bindings := h.bindings.enter }

theorem leave (h : t.Consistent) : t.leave.Consistent := by
  have hbindings := h.bindings.leave
  unfold Table.leave at hbindings ⊢
  split
  · exact h
  · rename_i houter
    rw [houter] at hbindings
    exact { h with depth := Nat.succ_pos _, bindings := hbindings }

theorem bind (h : t.Consistent) (hd : t.Stands name d) : (t.bind name d).Consistent :=
  { h with depth := h.depth, bindings := h.bindings.bind hd }

theorem addProcedure (h : t.Consistent) {p : Procedure} (hp : p.called = false) (source : Nat) :
    Table.Consistent { t with procedures := t.procedures ++ [p], source } := by
  refine { h with
    depth := h.depth
    bindings := h.bindings.mono fun name d hd => hd.mono ?_ (List.prefix_refl _)
    called := fun q hq hcalled => ?_ }
  · rw [List.map_append]
    exact List.prefix_append _ _
  · rcases List.mem_append.mp hq with hq | hq
    · exact h.called q hq hcalled
    · rw [List.mem_singleton.mp hq, hp] at hcalled
      cases hcalled

theorem addVariable (h : t.Consistent) (x : Variable) (ty : Ty) (source : Nat) :
    Table.Consistent { t with
      vars := t.vars ++ [x], types := t.types.register ⟨t.vars.length⟩ ty, source } := by
  refine { h with
    depth := h.depth
    bindings := h.bindings.mono fun name d hd =>
      hd.mono (List.prefix_refl _) (List.prefix_append _ _)
    stored := fun v hv => ?_ }
  rw [TypeStore.register, OrderedMap.get?_insert]
  split
  · rfl
  · rename_i hne
    have hle : v.index ≤ t.vars.length := by simpa [Nat.lt_succ_iff] using hv
    exact h.stored v (Nat.lt_of_le_of_ne hle fun heq => hne (heq ▸ rfl))

theorem declareProcedure (h : t.Consistent) (name : Option String) (stated : Option Ty) :
    (t.declareProcedure name stated).2.Consistent := by
  cases name with
  | none => exact h.addProcedure rfl _
  | some name => exact (h.addProcedure rfl _).bind ⟨_, List.getElem?_concat_length, rfl⟩

theorem declareVariable (h : t.Consistent) (name : String) (stated : Option Ty)
    (slot : Option Slot) : (t.withVariable name stated slot).Consistent :=
  (h.addVariable _ _ _).bind ⟨_, List.getElem?_concat_length, rfl⟩

theorem updateProcedure (h : t.Consistent) (p : ProcId) {f : Procedure → Procedure}
    (hname : ∀ q, (f q).name = q.name)
    (hcalled : ∀ q, t.procedures[p.index]? = some q → (f q).called → q.name.isSome) :
    (t.updateProcedure p f).Consistent := by
  refine { h with
    depth := h.depth
    bindings := h.bindings.mono fun name d hd => hd.mono ?_ (List.prefix_refl _)
    called := fun q hq hc => ?_ }
  · exact (map_modify_eq hname t.procedures p.index).symm ▸ List.prefix_refl _
  · obtain ⟨i, hi⟩ := List.mem_iff_getElem?.mp hq
    rw [Table.updateProcedure, List.getElem?_modify] at hi
    obtain ⟨q', hq', rfl⟩ := Option.map_eq_some_iff.mp hi
    by_cases heq : p.index = i
    · rw [if_pos heq] at hc ⊢
      rw [hname]
      exact hcalled q' (heq ▸ hq') hc
    · rw [if_neg heq] at hc ⊢
      exact h.called q' (List.mem_of_getElem? hq') hc

theorem capture (h : t.Consistent) (name : String) (p : ProcId) (arguments : List Ty) :
    (t.capture name p arguments).Consistent := by
  unfold Table.capture
  split
  · rename_i hnews
    refine { h with depth := h.depth, bindings := h.bindings, captured := fun other hother => ?_ }
    simp only [Table.isNews, Bool.and_eq_true, Bool.not_eq_true'] at hnews
    rw [OrderedMap.contains, OrderedMap.get?_insert] at hother
    split at hother
    · rename_i heq
      rw [← heq, hnews.1]
      exact Bool.false_ne_true
    · exact h.captured other hother
  · exact h

theorem raise (h : t.Consistent) (v : VarId) (ty : Ty) : (t.raise v ty).Consistent := by
  refine { h with depth := h.depth, bindings := h.bindings, stored := fun w hw => ?_ }
  rw [Table.raise, OrderedMap.get?_insert]
  split
  · rfl
  · exact h.stored w hw

theorem change (h : t.Consistent) (hchange : Operation.Change t t') : t'.Consistent := by
  cases hchange with
  | unchanged => exact h
  | entered => exact h.enter
  | left => exact h.leave
  | procedure name stated => exact h.declareProcedure name stated
  | «variable» name stated slot => exact h.declareVariable name stated slot
  | @reached name reach p arguments hlookup =>
      obtain ⟨q, hq, hname⟩ := h.bindings.of_lookup hlookup
      have hcalled : (t.updateProcedure p ({ · with called := true })).Consistent := by
        refine h.updateProcedure p (fun _ => rfl) fun q' hq' _ => ?_
        rw [hq] at hq'
        cases hq'
        rw [hname]
        rfl
      exact hcalled.capture name p arguments
  | raised v ty => exact h.raise v ty
  | constrained p ty =>
      exact h.updateProcedure p (fun _ => rfl) fun q hq => h.called q (List.mem_of_getElem? hq)

theorem after (h : t.Consistent) (session : List Operation) : (t.after session).Consistent := by
  induction session generalizing t with
  | nil => exact h
  | cons operation session ih => exact ih (h.change (operation.change_perform t))

end Consistent

/-! ## Scopes that are left again -/

def Within (base t : Table) : Prop := base.scope :: base.outer <:+ t.outer

theorem within_enter (t : Table) : Within t t.enter := List.suffix_refl _

theorem Within.change {base : Table} (h : Within base t) (hchange : Operation.Change t t')
    (hdepth : base.depth < t'.depth) : Within base t' := by
  cases hchange with
  | entered => exact List.IsSuffix.trans h (List.suffix_cons _ _)
  | left =>
      unfold Table.leave at hdepth ⊢
      split
      · exact h
      · rename_i scope outer houter
        simp only [houter, Table.depth] at hdepth
        rw [Within, houter] at h
        refine (List.suffix_cons_iff.mp h).resolve_left fun heq => ?_
        have hlength := congrArg List.length heq
        simp only [List.length_cons] at hlength
        omega
  | procedure name stated => cases name <;> exact h
  | reached arguments hlookup => rwa [Within, Table.outer_reach]
  | _ => exact h

theorem Within.after {base : Table} {session : List Operation} (h : Within base t)
    (hdepth : ∀ part, part <+: session → base.depth < (t.after part).depth) :
    Within base (t.after session) := by
  induction session generalizing t with
  | nil => exact h
  | cons operation session ih =>
      have hfirst : base.depth < (operation.perform t).table.depth :=
        hdepth [operation] (List.prefix_append [operation] session)
      refine ih (h.change (operation.change_perform t) hfirst) fun part hpart => ?_
      exact hdepth (operation :: part) (List.cons_prefix_cons.mpr ⟨rfl, hpart⟩)

theorem Within.lookup_leave {base : Table} (h : Within base t) (hdepth : t.depth = base.depth + 1)
    (name : String) (reach : Reach) : t.leave.lookup name reach = base.lookup name reach := by
  have houter : base.scope :: base.outer = t.outer :=
    h.eq_of_length (by simpa [Table.depth] using hdepth.symm)
  have hleave : t.leave = { t with scope := base.scope, outer := base.outer } := by
    rw [Table.leave, ← houter]
  rw [hleave]
  cases reach <;> rfl

end Table

/--
Whatever is done to a new symbol table, and whichever handles it is done with, the
table is consistent.  An operation that then fails or finds nothing changes
nothing.  A scope that is opened then, and left after operations that never close
it, leaves every name with the meaning that it had.
-/
theorem session_invariant (signatures : SignatureTable) (session : List Operation) :
    let t := (Table.empty signatures).after session
    t.Consistent ∧
      (∀ (operation : Operation) (d : Diagnostic),
        (operation.perform t).result = .error d → (operation.perform t).table = t) ∧
      (∀ operation : Operation, (operation.perform t).result = .ok (.found none) →
        (operation.perform t).table = t) ∧
      ∀ inner, (∀ part, part <+: inner → t.depth < (t.enter.after part).depth) →
        (t.enter.after inner).depth = t.depth + 1 →
        ∀ name reach, (t.after (.enter :: inner ++ [.leave])).lookup name reach =
          t.lookup name reach := by
  intro t
  refine ⟨(Table.Consistent.empty signatures).after session,
    fun operation d => operation.atomic_perform t d,
    fun operation hfound => operation.still_of_found_none ⟨hfound, rfl⟩,
    fun inner hinner hdepth name reach => ?_⟩
  rw [Table.after_append]
  exact ((Table.within_enter t).after hinner).lookup_leave hdepth name reach

-- A variable that is declared in an inner scope hides the outer one until that scope is left.
example :
    let outer : List Operation := [.declareVariable "x" (some .int) none]
    let inner : List Operation := [.declareVariable "x" none none]
    ((Table.empty ∅).after (outer ++ .enter :: inner)).lookup "x" .enclosing =
        some (.variable ⟨1⟩) ∧
      ((Table.empty ∅).after (outer ++ (.enter :: inner ++ [.leave]))).lookup "x" .enclosing =
        some (.variable ⟨0⟩) := by
  decide

end TypedPseudocode
