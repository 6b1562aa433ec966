import TypedPseudocode.Proofs.Inference
import TypedPseudocode.Proofs.Typing

/-!
Types that were recorded along the way.

A read carries the type of its variable, and a call that of its procedure, as
they were known at that moment.  Nothing goes back to an expression when more is
told of the variable, or when the procedure is completed at last.  But types only
ever rise, so what was recorded never contradicts what is known in the end.
-/

namespace TypedPseudocode

open Code TypedPseudocode.Tree

namespace Declarations

structure Rises (ds ds' : Declarations) : Prop where
  vars : ∀ v, ds.tyOf v ≤ ds'.tyOf v
  results : ∀ p, (ds.procAt p).ty ≤ (ds'.procAt p).ty

/-- A read or a call says no more than what is known of its variable or procedure. -/
def Confirms (ds : Declarations) : TypedExpression → Prop
  | .read v ty => ty ≤ ds.tyOf v
  | .call p _ ty => ty ≤ (ds.procAt p).ty
  | _ => True

theorem Confirms.mono {ds ds' : Declarations} {e : TypedExpression} (h : ds.Confirms e)
    (hrises : ds.Rises ds') : ds'.Confirms e := by
  cases e with
  | read v ty => exact le_trans h (hrises.vars v)
  | call p arguments ty => exact le_trans h (hrises.results p)
  | _ => trivial

theorem confirms_composite (ds : Declarations) {e : TypedExpression} (h : e.isComposite) :
    ds.Confirms e := by
  cases e with
  | read => cases h
  | call => cases h
  | _ => trivial

end Declarations

namespace Lowering

variable {s s' : State}

/-! ## Steps only raise types -/

theorem Moves.rises (h : Moves s s') (htyped : Typed s) (hcounted : Counted s)
    (hscoped : Scoped s) (hlexical : Lexical s) :
    s.table.toDeclarations.Rises s'.table.toDeclarations := by
  cases h with
  | inside h =>
      refine ⟨fun v => ?_, fun p => ?_⟩
      · have hleast := (h.changes.typed htyped hcounted hscoped hlexical).2 v
        exact ((hleast (s'.table.tyOf v)).mp (le_refl _)).1
      · rw [procAt_congr (·.ty) (h.changes.map_procedures _ fun _ => rfl)]
  | declareFunction =>
      refine ⟨fun v => le_refl _, fun p => ?_⟩
      rw [Table.procAt_withProcedure]
      split
      · rename_i hp
        subst hp
        rw [Declarations.procAt_of_ge (Nat.le_refl _)]
        exact Ty.unknown_le _
      · exact le_refl _
  | openFunction h => exact ⟨fun v => le_refl _, fun p => le_refl _⟩
  | @closeFunction p f outer unified hplace houter haround hoperands hty =>
      refine ⟨fun v => ?_, fun q => ?_⟩
      · simp [Declarations.tyOf]
      · have hlt : p.index < s.table.leave.procedures.length := by
          simpa using hcounted.frame_place_lt hplace
        by_cases hq : q = p
        · subst hq
          rw [Table.procAt_complete_self _ _ _ hlt]
          rw [Table.toDeclarations_leave] at hty
          exact ((Ty.unify_le_iff hty unified).mp (le_refl unified)).1
        · rw [Table.procAt_complete_of_ne _ _ _ hq, Table.toDeclarations_leave]

theorem rises_of_step {signatures : SignatureTable} (hrun : Runs (.initial signatures) s)
    (h : Step s s') : s.table.toDeclarations.Rises s'.table.toDeclarations :=
  h.moves.rises (typed_of_runs hrun) (counted_of_runs hrun) (scoped_of_runs hrun)
    (lexical_of_runs hrun)

theorem confirmed_of_runs {signatures : SignatureTable} (h : Runs (.initial signatures) s) :
    ∀ e ∈ s.expressions, s.table.Confirms e := by
  induction h with
  | refl => exact nofun
  | @tail s₁ s₂ hrun step ih =>
      have hrises := rises_of_step hrun step
      intro e he
      rcases step.traced he with hold | harises
      · exact (ih e hold).mono hrises
      · cases harises with
        | composite hcomposite _ => exact Declarations.confirms_composite _ hcomposite
        | @read v ty h =>
            rcases h with rfl | rfl
            · exact hrises.vars v
            · exact le_refl _
        | call _ _ => exact le_refl _
        | append _ => trivial
        | callAlone _ => exact Ty.unknown_le _
        | appendAlone _ => trivial

/-! ## Finished runs -/

section Finished

variable {signatures : SignatureTable} {body : List Stmt} {ds : Declarations}
  (hrun : Runs (.initial signatures) s) (hcomplete : s.Complete signatures body)
  (hends : Ends s ds)

include hends in
theorem Ends.rises : s.table.toDeclarations.Rises ds := by
  refine ⟨fun v => ?_, fun p => ?_⟩
  · rw [Declarations.tyOf, Declarations.tyOf, hends.types]
  · by_cases hp : p.index < s.table.procedures.length
    · rw [hends.procAt_eq hp]
    · rw [Declarations.procAt_of_ge (Nat.not_lt.mp hp)]
      exact Ty.unknown_le _

include hrun hcomplete hends in
theorem mem_expressions_of_procedure {p : Procedure} (hp : p ∈ ds.procedures)
    {e : TypedExpression} (he : e ∈ Code.expressions p.body) : e ∈ s.expressions := by
  obtain ⟨r, hr, rfl⟩ := exists_region_of_mem hrun hcomplete hends hp
  obtain ⟨f, hf, hbecomes⟩ := exists_unit_of_region hrun hcomplete hends hr
  refine List.mem_flatMap.mpr ⟨f, hf, List.mem_append_left _ ?_⟩
  rwa [hbecomes.fills.code_eq]

end Finished

/--
In a lowered module, every read carries a type below the one that its variable
has in the end, and every call one below the result type of its procedure.
-/
theorem recorded_types_confirmed {signatures : SignatureTable} {body : List Stmt}
    {lowered : Lowered} (h : (run signatures (.module body)).result = .ok lowered) :
    let ds := lowered.declarations
    ∀ p ∈ ds.procedures,
      (∀ v ty, .read v ty ∈ Code.expressions p.body → ty ≤ ds.tyOf v) ∧
        ∀ q arguments ty, .call q arguments ty ∈ Code.expressions p.body →
          ty ≤ (ds.procAt q).ty := by
  obtain ⟨s, hrun, hcomplete, hends⟩ := exists_run h
  intro ds p hp
  have hconfirmed {e : TypedExpression} (he : e ∈ Code.expressions p.body) : ds.Confirms e := by
    have hmet := mem_expressions_of_procedure hrun hcomplete hends hp he
    exact (confirmed_of_runs hrun e hmet).mono hends.rises
  constructor
  · intro v ty hread
    exact hconfirmed hread
  · intro q arguments ty hcall
    exact hconfirmed hcall

/--
```
a = []
b = a
a.append(1)
```
-/
def earlyRead : List Stmt :=
  [.assign 1 [.name 1 "a" .store] (.list 1 [] .load),
    .assign 2 [.name 2 "b" .store] (.name 2 "a" .load),
    .expression 3 (.call 3 (.attribute 3 (.name 3 "a" .load) "append" .load)
      [.constant 3 (.int 1)] [])]

theorem recorded_types_confirmed_nestedModule : (∃ lowered procedure,
    (run outerSignature (.module nestedModule)).result = .ok lowered ∧
      procedure ∈ lowered.declarations.procedures ∧
      .call ⟨1⟩ [.read ⟨1⟩ .int] .unknown ∈ Code.expressions procedure.body ∧
      (lowered.declarations.procAt ⟨1⟩).ty = .int ∧
      .unknown ≤ (lowered.declarations.procAt ⟨1⟩).ty) ∧
    ∃ lowered procedure,
      (run OrderedMap.empty (.module earlyRead)).result = .ok lowered ∧
      procedure ∈ lowered.declarations.procedures ∧
      .read ⟨0⟩ (.array .unknown) ∈ Code.expressions procedure.body ∧
      lowered.declarations.tyOf ⟨0⟩ = .array .int ∧
      .array .unknown ≤ lowered.declarations.tyOf ⟨0⟩ := by
  constructor
  · obtain ⟨lowered, h⟩ : ∃ lowered,
      (run outerSignature (.module nestedModule)).result = .ok lowered := ⟨_, rfl⟩
    have hparts : (run outerSignature (.module nestedModule)).result.toOption.map
        (fun lowered => (lowered.declarations.procedures[0]?.map fun p =>
          (Code.expressions p.body)[1]?, (lowered.declarations.procAt ⟨1⟩).ty)) =
        some (some (some (.call ⟨1⟩ [.read ⟨1⟩ .int] .unknown)), .int) := rfl
    rw [h] at hparts
    obtain ⟨hcall, hty⟩ := Prod.mk.inj (Option.some.inj hparts)
    obtain ⟨procedure, hprocedure, hcode⟩ := Option.map_eq_some_iff.mp hcall
    have hmem := List.mem_of_getElem? hprocedure
    have he := List.mem_of_getElem? hcode
    exact ⟨lowered, procedure, h, hmem, he, hty,
      (recorded_types_confirmed h procedure hmem).2 _ _ _ he⟩
  · obtain ⟨lowered, h⟩ : ∃ lowered,
      (run OrderedMap.empty (.module earlyRead)).result = .ok lowered := ⟨_, rfl⟩
    have hparts : (run OrderedMap.empty (.module earlyRead)).result.toOption.map
        (fun lowered => (lowered.declarations.procedures[0]?.map fun p =>
          (Code.expressions p.body)[1]?, lowered.declarations.tyOf ⟨0⟩)) =
        some (some (some (.read ⟨0⟩ (.array .unknown))), .array .int) := rfl
    rw [h] at hparts
    obtain ⟨hread, hty⟩ := Prod.mk.inj (Option.some.inj hparts)
    obtain ⟨procedure, hprocedure, hcode⟩ := Option.map_eq_some_iff.mp hread
    have hmem := List.mem_of_getElem? hprocedure
    have he := List.mem_of_getElem? hcode
    exact ⟨lowered, procedure, h, hmem, he, hty,
      (recorded_types_confirmed h procedure hmem).1 _ _ he⟩

end Lowering

end TypedPseudocode
