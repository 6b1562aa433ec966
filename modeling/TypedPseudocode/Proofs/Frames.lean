import TypedPseudocode.Proofs.Keeping

/-!
Frames: what lowering a list of statements leaves alone.

Whether it succeeds or fails, lowering closes every scope that it opens, adds to
the innermost scope and to the declarations, and otherwise only learns: a
procedure from before may turn out to be called, and a variable's type may move
up as long as something in it is unknown.
-/

namespace TypedPseudocode

open Code TypedPseudocode.Tree

/-! ## Settled types -/

/-- Whether nothing in a type is unknown. -/
def Ty.isSettled : Ty → Bool
  | .unknown => false
  | .array element => element.isSettled
  | _ => true

theorem Ty.eq_of_le_of_isSettled {a b : Ty} (h : a ≤ b) (ha : a.isSettled) : b = a := by
  change Ty.Below a b at h
  induction h with
  | unknown => cases ha
  | refl => rfl
  | array _ ih => rw [ih ha]

/-! ## Declarations from before -/

namespace Table.Grows

variable {names : List String} {opened : List ProcId} {t t' : Table}

theorem depth_eq (h : Grows names opened t t') : t'.depth = t.depth := by
  simp only [Table.depth, h.outer]

theorem procedure_kept (h : Grows names [] t t') {i : Nat} {p : Procedure}
    (hp : t.procedures[i]? = some p) :
    ∃ called, (p.called → called = true) ∧ t'.procedures[i]? = some { p with called } := by
  obtain ⟨hi, -⟩ := List.getElem?_eq_some_iff.mp hp
  have hi' : i < t'.procedures.length := hi.trans_le h.procedures_length
  have hat : t.procAt ⟨i⟩ = p := by simp [Declarations.procAt, hp]
  have hat' : t'.procedures[i]? = some (t'.procAt ⟨i⟩) := by
    simp [Declarations.procAt, List.getElem?_eq_getElem hi']
  rw [hat']
  rcases h.kept ⟨i⟩ hi List.not_mem_nil with heq | heq
  · exact ⟨p.called, id, by rw [heq, hat]⟩
  · exact ⟨true, fun _ => rfl, by rw [heq, hat]⟩

theorem variable_kept (h : Grows names opened t t') {i : Nat} {x : Variable}
    (hx : t.vars[i]? = some x) : t'.vars[i]? = some x :=
  getElem?_of_prefix h.vars hx

theorem isSettled_kept (h : Grows names opened t t') {v : VarId} (hv : v.index < t.vars.length)
    (hsettled : (t.tyOf v).isSettled) : t'.tyOf v = t.tyOf v :=
  Ty.eq_of_le_of_isSettled (h.types v hv) hsettled

end Table.Grows

namespace Lowering

/--
What lowering a list of statements does to any table, whether it succeeds or
fails: the scopes around are left as they were and no name is unbound; a
procedure from before keeps its place and all but its being called, which can
only become true; a variable from before keeps its place, and its type moves up
unless it is settled; signatures stay, whether supplied or captured; and each new
declaration draws one id.
-/
theorem lowerBlock_frame (body : List Stmt) (t : Table) :
    let t' := (lowerBlock body t).table
    (t'.depth = t.depth ∧ t'.outer = t.outer) ∧
      (∀ name, (t.lookup name .innermost).isSome → (t'.lookup name .innermost).isSome) ∧
      (∀ (i : Nat) (p : Procedure), t.procedures[i]? = some p →
        ∃ called, (p.called → called = true) ∧ t'.procedures[i]? = some { p with called }) ∧
      (∀ (i : Nat) (x : Variable), t.vars[i]? = some x →
        t'.vars[i]? = some x ∧ t.tyOf ⟨i⟩ ≤ t'.tyOf ⟨i⟩ ∧
          ((t.tyOf ⟨i⟩).isSettled → t'.tyOf ⟨i⟩ = t.tyOf ⟨i⟩)) ∧
      t'.signatures = t.signatures ∧
      t.captured.entries <+: t'.captured.entries ∧
      ∃ newProcedures newVars,
        t'.procedures.length = t.procedures.length + newProcedures ∧
        t'.vars.length = t.vars.length + newVars ∧
        t'.source = t.source + (newProcedures + newVars) := by
  intro t'
  have h : Table.Grows (Stmt.bindsAll body) [] t t' := keeps_lowerBlock body t
  refine ⟨⟨h.depth_eq, h.outer⟩, h.bound, fun i p => h.procedure_kept, fun i x hx => ?_,
    h.signatures, h.captured, ?_⟩
  · obtain ⟨hi, -⟩ := List.getElem?_eq_some_iff.mp hx
    exact ⟨h.variable_kept hx, h.types ⟨i⟩ hi, h.isSettled_kept hi⟩
  · obtain ⟨newProcedures, hprocedures⟩ := Nat.exists_eq_add_of_le h.procedures_length
    obtain ⟨newVars, hvars⟩ := Nat.exists_eq_add_of_le h.vars.length_le
    have hdrawn := h.source
    exact ⟨newProcedures, newVars, hprocedures, hvars, by omega⟩

end Lowering

end TypedPseudocode
