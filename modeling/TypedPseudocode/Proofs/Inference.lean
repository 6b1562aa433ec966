import Mathlib.Data.List.Find
import TypedPseudocode.Proofs.Closed
import TypedPseudocode.Proofs.TypeOrder

/-!
Exact inference.

Types are told of variables in many places: where they are declared, where the
source states a type for them, and by the assignments and `append`s of every
procedure.  The type that is published in the end lies above all of these and
above nothing else.
-/

namespace TypedPseudocode

open Code TypedPseudocode.Tree

/--
The variable that a name stands for among variables that were declared one after
the other: the last one of that name.
-/
def Declarations.named (ds : Declarations) (vs : List VarId) (name : String) : Option VarId :=
  vs.reverse.find? fun v => (ds.varAt v).name = name

theorem Declarations.named_congr {ds ds' : Declarations} {vs : List VarId}
    (h : ∀ v ∈ vs, ds'.varAt v = ds.varAt v) (name : String) :
    ds'.named vs name = ds.named vs name := by
  refine List.find?_congr fun v hv => ?_
  rw [h v (List.mem_reverse.mp hv)]

theorem Declarations.named_append_singleton (ds : Declarations) (vs : List VarId) (v : VarId)
    (name : String) : ds.named (vs ++ [v]) name =
      if (ds.varAt v).name = name then some v else ds.named vs name := by
  simp only [named, List.reverse_append, List.reverse_singleton, List.singleton_append,
    List.find?_cons]
  by_cases hname : (ds.varAt v).name = name
  · simp [hname]
  · simp [hname]

namespace Lowering

variable {s s' : State}

/-! ## Types are least upper bounds -/

def State.told (s : State) : List (VarId × Ty) := s.units.flatMap Frame.told

structure Typed (s : State) : Prop where
  untold : ∀ v : VarId, s.table.vars.length ≤ v.index → s.table.tyOf v = .unknown
  least : ∀ (v : VarId) (u : Ty), s.table.tyOf v ≤ u ↔ ∀ ty, (v, ty) ∈ s.told → ty ≤ u

section Inside

variable {new : List VarId} {told : List (VarId × Ty)} {made : List Made}

theorem Local.mem_told (h : Local s s' new told made) {x : VarId × Ty} :
    x ∈ s'.told ↔ x ∈ s.told ∨ x ∈ told := by
  simp only [State.told, State.units, h.outer, h.finished, List.cons_append, List.flatMap_cons,
    List.mem_append, h.told]
  grind

theorem State.Sees.index_lt {v : VarId} (h : s.Sees v) (hcounted : Counted s)
    (hscoped : Scoped s) (hlexical : Lexical s) : v.index < s.table.vars.length := by
  obtain ⟨g, hg, -, hlocal⟩ := exists_frame_of_sees hlexical hscoped h
  exact hcounted.index_lt (List.mem_append_left _ hg) hlocal

theorem Changes.typed {t : Table} (h : Changes s t new told) (hs : Typed s)
    (hcounted : Counted s) (hscoped : Scoped s) (hlexical : Lexical s) :
    (∀ v : VarId, t.vars.length ≤ v.index → t.tyOf v = .unknown) ∧
      ∀ (v : VarId) (u : Ty), t.tyOf v ≤ u ↔
        s.table.tyOf v ≤ u ∧ ∀ ty, (v, ty) ∈ told → ty ≤ u := by
  cases h with
  | same => exact ⟨hs.untold, by simp⟩
  | reach name p arguments =>
      have htypes (v : VarId) : (s.table.reach name p arguments).tyOf v = s.table.tyOf v := by
        simp [Declarations.tyOf]
      simp only [htypes, Table.vars_reach]
      exact ⟨hs.untold, by simp⟩
  | @raise v ty unified hv hty =>
      have hlt := hv.index_lt hcounted hscoped hlexical
      refine ⟨fun w hw => ?_, fun w u => ?_⟩
      · have hne : v ≠ w := by
          rintro rfl
          exact absurd hw (Nat.not_le.mpr hlt)
        rw [Table.tyOf_raise, if_neg hne]
        exact hs.untold w hw
      · rw [Table.tyOf_raise]
        by_cases hw : v = w
        · subst hw
          simp [Ty.unify_le_iff hty]
        · simp [hw, Ne.symm hw]
  | declare name stated slot hname =>
      refine ⟨fun w hw => ?_, fun w u => ?_⟩
      · simp only [Table.vars_withVariable, List.length_append, List.length_singleton] at hw
        have hne : (⟨s.table.vars.length⟩ : VarId) ≠ w := by
          rintro rfl
          exact absurd hw (Nat.not_succ_le_self _)
        rw [Table.tyOf_withVariable, if_neg hne]
        exact hs.untold w (Nat.le_of_succ_le hw)
      · rw [Table.tyOf_withVariable]
        by_cases hw : (⟨s.table.vars.length⟩ : VarId) = w
        · subst hw
          simp [hs.untold ⟨s.table.vars.length⟩ (Nat.le_refl _)]
        · simp [hw, Ne.symm hw]

end Inside

theorem Typed.keep (hs : Typed s) (h : Moves s s') (hcounted : Counted s) (hscoped : Scoped s)
    (hlexical : Lexical s) : Typed s' := by
  cases h with
  | inside h =>
      obtain ⟨huntold, hleast⟩ := h.changes.typed hs hcounted hscoped hlexical
      refine ⟨huntold, fun v u => ?_⟩
      rw [hleast, hs.least]
      simp only [h.mem_told]
      grind
  | declareFunction => exact ⟨hs.untold, hs.least⟩
  | openFunction => exact ⟨hs.untold, hs.least⟩
  | closeFunction hplace houter haround hoperands =>
      have hunits := (units_closeFunction houter s.table).flatMap_right Frame.told
      refine ⟨?_, ?_⟩
      · simpa [Declarations.tyOf] using hs.untold
      · intro v u
        have hsame := hs.least v u
        simp only [State.told, ← hunits.mem_iff] at hsame
        simpa [Declarations.tyOf, State.told, State.units] using hsame

theorem typed_of_runs {signatures : SignatureTable} (h : Runs (.initial signatures) s) :
    Typed s := by
  refine runs_induction h ⟨fun _ _ => rfl, fun v u => ?_⟩ fun hrun h hs =>
    hs.keep h (counted_of_runs hrun) (scoped_of_runs hrun) (lexical_of_runs hrun)
  have hnothing : (State.initial signatures).told = [] := rfl
  have hunknown : (State.initial signatures).table.tyOf v = .unknown := rfl
  simp [hnothing, hunknown]

/-! ## Stated types reach the variable of their name -/

structure Answers (ds : Declarations) (scope : Scope) (f : Frame) : Prop where
  bound : ∀ {name : String} {v : VarId},
    scope.get? name = some (.variable v) → ds.named f.locals name = some v
  kept : ∀ hint ∈ f.hints, (scope.get? hint.name).isSome

theorem Answers.empty (ds : Declarations) {f : Frame} (h : f.hints = []) :
    Answers ds OrderedMap.empty f := by
  refine ⟨nofun, fun hint hhint => ?_⟩
  rw [h] at hhint
  cases hhint

structure Resolved (s : State) : Prop where
  hints : ∀ f ∈ s.units, ∀ hint ∈ f.hints,
    s.table.named f.locals hint.name = some hint.target
  scopes : List.Forall₂ (Answers s.table.toDeclarations) (s.table.scope :: s.table.outer)
    (s.frame :: s.outer)

theorem Answers.congr {ds ds' : Declarations} {scope : Scope} {f : Frame}
    (h : Answers ds scope f) (hvars : ∀ v ∈ f.locals, ds'.varAt v = ds.varAt v) :
    Answers ds' scope f where
  bound hget := by
    rw [Declarations.named_congr hvars]
    exact h.bound hget
  kept := h.kept

section Inside

variable {t : Table} {new : List VarId} {told : List (VarId × Ty)} {made : List Made}

theorem Changes.bound (h : Changes s t new told) (hcounted : Counted s)
    (hanswers : Answers s.table.toDeclarations s.table.scope s.frame) {name : String} {v : VarId}
    (hget : t.scope.get? name = some (.variable v)) :
    t.named (s.frame.locals ++ new) name = some v := by
  have hold (other : String) : t.named s.frame.locals other = s.table.named s.frame.locals other :=
    Declarations.named_congr
      (fun w hw => h.name_varAt (hcounted.index_lt (State.mem_units.mpr (.inl rfl)) hw)) other
  cases h with
  | declare declared stated slot hname =>
      rw [Declarations.named_append_singleton]
      rw [Table.scope_withVariable, OrderedMap.get?_insert] at hget
      have hnew : ((s.table.withVariable declared stated slot).varAt
          ⟨s.table.vars.length⟩).name = declared := by
        simp [Declarations.varAt]
      rw [hnew]
      split at hget
      · rename_i heq
        cases hget
        rw [if_pos heq]
      · rename_i hne
        rw [if_neg hne, hold]
        exact hanswers.bound hget
  | reach called p arguments =>
      rw [List.append_nil, hold]
      exact hanswers.bound (by simpa using hget)
  | _ =>
      rw [List.append_nil, hold]
      exact hanswers.bound hget

theorem Changes.kept (h : Changes s t new told) (hcounted : Counted s) {name : String}
    (hname : (s.table.scope.get? name).isSome) (hhints : s.frame.hints ≠ []) :
    (t.scope.get? name).isSome ∧
      t.named (s.frame.locals ++ new) name = s.table.named s.frame.locals name := by
  have hold (other : String) : t.named s.frame.locals other = s.table.named s.frame.locals other :=
    Declarations.named_congr
      (fun w hw => h.name_varAt (hcounted.index_lt (State.mem_units.mpr (.inl rfl)) hw)) other
  cases h with
  | declare declared stated slot hfree =>
      have hne : declared ≠ name := by
        rintro rfl
        rcases hfree with hfree | hfree
        · simp [hfree] at hname
        · exact hhints hfree
      have hnew : ((s.table.withVariable declared stated slot).varAt
          ⟨s.table.vars.length⟩).name = declared := by
        simp [Declarations.varAt]
      rw [Table.scope_withVariable, OrderedMap.get?_insert, if_neg hne,
        Declarations.named_append_singleton, hnew, if_neg hne, hold]
      exact ⟨hname, rfl⟩
  | reach called p arguments =>
      rw [List.append_nil, hold]
      exact ⟨by simpa using hname, rfl⟩
  | _ =>
      rw [List.append_nil, hold]
      exact ⟨hname, rfl⟩

theorem Resolved.inside (hs : Resolved s) (hcounted : Counted s)
    (h : Local s s' new told made) : Resolved s' := by
  have hvars {f : Frame} (hf : f ∈ s.units) (v : VarId) (hv : v ∈ f.locals) :
      s'.table.varAt v = s.table.varAt v :=
    h.changes.name_varAt (hcounted.index_lt hf hv)
  have hother {f : Frame} (hf : f ∈ s.units) (hint : Hint) (hhint : hint ∈ f.hints) :
      s'.table.named f.locals hint.name = some hint.target := by
    rw [Declarations.named_congr (hvars hf)]
    exact hs.hints f hf hint hhint
  cases hs.scopes with
  | cons hfirst hrest =>
      have hbound {name : String} {v : VarId}
          (hget : s'.table.scope.get? name = some (.variable v)) :
          s'.table.named s'.frame.locals name = some v := by
        rw [h.locals]
        exact h.changes.bound hcounted hfirst hget
      have hcurrent (hint : Hint) (hhint : hint ∈ s'.frame.hints) :
          (s'.table.scope.get? hint.name).isSome ∧
            s'.table.named s'.frame.locals hint.name = some hint.target := by
        rcases h.hints hint hhint with hhint | hget
        · have hkept := h.changes.kept hcounted (hfirst.kept hint hhint)
            (List.ne_nil_of_mem hhint)
          rw [h.locals, hkept.2]
          exact ⟨hkept.1, hs.hints s.frame (State.mem_units.mpr (.inl rfl)) hint hhint⟩
        · exact ⟨by simp [hget], hbound hget⟩
      refine ⟨fun f hf => ?_, ?_⟩
      · rcases h.mem_units.mp hf with rfl | hf | hf
        · exact fun hint hhint => (hcurrent hint hhint).2
        · exact hother (State.mem_units.mpr (.inr (.inl hf)))
        · exact hother (State.mem_units.mpr (.inr (.inr hf)))
      · rw [h.changes.scopes.1, h.outer]
        refine .cons ⟨hbound, fun hint hhint => (hcurrent hint hhint).1⟩ ?_
        exact forall₂_imp_mem hrest fun _ _ f hf hanswers =>
          hanswers.congr (hvars (State.mem_units.mpr (.inr (.inl hf))))

end Inside

theorem Resolved.keep (hs : Resolved s) (h : Moves s s') (hcounted : Counted s) :
    Resolved s' := by
  cases h with
  | inside h => exact hs.inside hcounted h
  | @declareFunction name stated =>
      refine ⟨hs.hints, ?_⟩
      cases hs.scopes with
      | cons hfirst hrest =>
          refine .cons ⟨fun {other v} hget => ?_, fun hint hhint => ?_⟩
            (hrest.imp fun _ _ hanswers => hanswers.congr fun _ _ => rfl)
          · rw [Table.scope_withProcedure, OrderedMap.get?_insert] at hget
            split at hget
            · cases hget
            · exact hfirst.bound hget
          · rw [Table.scope_withProcedure, OrderedMap.get?_insert]
            split
            · rfl
            · exact hfirst.kept hint hhint
  | openFunction h =>
      refine ⟨fun f hf => ?_, .cons (.empty _ rfl) hs.scopes⟩
      rcases List.mem_cons.mp hf with rfl | hf
      · intro hint hhint
        cases hhint
      · exact hs.hints f hf
  | @closeFunction p f outer unified hplace houter haround hoperands =>
      have hscopes := hs.scopes
      rw [houter] at hscopes
      have hvars (vs : List VarId) (v : VarId) (_ : v ∈ vs) :
          (s.table.leave.complete p unified (s.frame.parameters.map (·.target))
            s.frame.block.statements).varAt v = s.table.varAt v := by
        simp [Declarations.varAt]
      refine ⟨fun g hg hint hhint => ?_, ?_⟩
      · rw [Declarations.named_congr (hvars g.locals)]
        exact hs.hints g ((units_closeFunction houter _).mem_iff.mp hg) hint hhint
      · cases hscopes with
        | @cons _ _ _ _ _ hrest =>
            cases hinner : s.table.outer with
            | nil =>
                rw [hinner] at hrest
                cases hrest
            | cons scope scopes =>
                rw [hinner] at hrest
                simp only [Table.scope_complete, Table.outer_complete, Table.leave, hinner]
                refine hrest.imp fun _ g hanswers => hanswers.congr ?_
                simpa [Table.leave, hinner] using hvars g.locals

theorem resolved_of_runs {signatures : SignatureTable} (h : Runs (.initial signatures) s) :
    Resolved s := by
  refine runs_induction h ⟨fun f hf => ?_, .cons (.empty _ rfl) .nil⟩ fun hrun h hs =>
    hs.keep h (counted_of_runs hrun)
  obtain rfl := List.mem_singleton.mp hf
  exact nofun

/-! ## What is told of a variable -/

/-- The sources of a variable's type in a module and in the code that it became. -/
inductive Contributes (signatures : SignatureTable) (body : List Stmt) (ds : Declarations)
    (v : VarId) : Ty → Prop
  | seed {r : Region} {position : Nat} {p : Parameter} (hr : r ∈ regions body)
      (hp : r.parameters[position]? = some p)
      (hv : (ds.procAt (r.procedure body)).parameters[position]? = some v) :
      Contributes signatures body ds v (p.seed signatures (r.name.getD "") position)
  | stated {r : Region} {name : String} {ty : Ty} (hr : r ∈ regions body)
      (hty : (name, ty) ∈ Stmt.hintsAll r.body)
      (hv : ds.named (ds.locals (r.procedure body)) name = some v) :
      Contributes signatures body ds v ty
  | assignment {p : Procedure} {value : TypedExpression} (hp : p ∈ ds.procedures)
      (h : .assign v value ∈ Statement.partsAll p.body) :
      Contributes signatures body ds v value.ty
  | elementAssignment {p : Procedure} {indexes : List TypedExpression}
      {value : TypedExpression} (hp : p ∈ ds.procedures)
      (h : .assignElement v indexes value ∈ Statement.partsAll p.body) :
      Contributes signatures body ds v (.array value.ty)
  | appendStatement {p : Procedure} {known : Ty} {value : TypedExpression}
      (hp : p ∈ ds.procedures)
      (h : .callBuiltin "append" [.read v known, value] ∈ Statement.partsAll p.body) :
      Contributes signatures body ds v (.array value.ty)
  | appendExpression {p : Procedure} {statement : TypedStatement} {known ty : Ty}
      {value : TypedExpression} (hp : p ∈ ds.procedures)
      (hstatement : statement ∈ Statement.partsAll p.body)
      (h : .callBuiltin "append" [.read v known, value] ty ∈
        Expression.partsAll statement.operands) :
      Contributes signatures body ds v (.array value.ty)

theorem mem_told_iff {code : List TypedStatement} {x : VarId × Ty} :
    x ∈ told code ↔ ∃ statement ∈ Statement.partsAll code,
      statement.told? = some x ∨
        ∃ e ∈ Expression.partsAll statement.operands, e.appended? = some x := by
  simp [told, Expression.told, Expression.gather]

theorem contributes_of_told {signatures : SignatureTable} {body : List Stmt}
    {ds : Declarations} {p : Procedure} {v : VarId} {ty : Ty} (hp : p ∈ ds.procedures)
    (h : (v, ty) ∈ told p.body) : Contributes signatures body ds v ty := by
  obtain ⟨statement, hstatement, hsome | ⟨e, he, hsome⟩⟩ := mem_told_iff.mp h
  · unfold Statement.told? at hsome
    split at hsome
    · cases hsome
      exact .assignment hp hstatement
    · cases hsome
      exact .elementAssignment hp hstatement
    · cases hsome
      exact .appendStatement hp hstatement
    · cases hsome
  · unfold Expression.appended? at hsome
    split at hsome
    · cases hsome
      exact .appendExpression hp hstatement he
    · cases hsome

section Finished

variable {signatures : SignatureTable} {body : List Stmt} {ds : Declarations}
  (hrun : Runs (.initial signatures) s) (hcomplete : s.Complete signatures body)
  (hends : Ends s ds)

omit hrun hcomplete in
include hends in
theorem named_eq {f : Frame} {r : Region} (hbecomes : f.Becomes signatures body ds r)
    (name : String) :
    ds.named (ds.locals (r.procedure body)) name = s.table.named f.locals name := by
  rw [← hbecomes.locals_eq]
  refine Declarations.named_congr (fun v _ => ?_) name
  rw [Declarations.varAt, Declarations.varAt, hends.vars]

include hrun hcomplete hends

theorem told_of_contributes {v : VarId} {ty : Ty} (h : Contributes signatures body ds v ty) :
    (v, ty) ∈ s.told := by
  have hcode {p : Procedure} (hp : p ∈ ds.procedures) {x : VarId × Ty} (hx : x ∈ told p.body) :
      x ∈ s.told := by
    obtain ⟨r, hr, rfl⟩ := exists_region_of_mem hrun hcomplete hends hp
    obtain ⟨f, hf, hbecomes⟩ := exists_unit_of_region hrun hcomplete hends hr
    refine List.mem_flatMap.mpr ⟨f, hf, List.mem_append_right _ ?_⟩
    rwa [hbecomes.view_eq]
  cases h with
  | @seed r position p hr hp hv =>
      obtain ⟨f, hf, hbecomes⟩ := exists_unit_of_region hrun hcomplete hends hr
      have hparameter := hbecomes.getElem?_parameters position
      rw [hp] at hparameter
      obtain ⟨hint, hhint, hpair⟩ := Option.map_eq_some_iff.mp hparameter
      rw [hbecomes.fills.parameters, List.getElem?_map, hhint] at hv
      obtain rfl := Option.some.inj hv
      have hty : hint.ty = p.seed signatures (r.name.getD "") position := congrArg Prod.snd hpair
      rw [← hty]
      refine List.mem_flatMap.mpr ⟨f, hf, List.mem_append_left _ (List.mem_map.mpr ?_)⟩
      exact ⟨hint, List.mem_append_left _ (List.mem_of_getElem? hhint), rfl⟩
  | stated hr hty hv =>
      obtain ⟨f, hf, hbecomes⟩ := exists_unit_of_region hrun hcomplete hends hr
      rw [← hbecomes.hints] at hty
      obtain ⟨hint, hhint, hpair⟩ := List.mem_map.mp hty
      cases hpair
      rw [named_eq hends hbecomes, (resolved_of_runs hrun).hints f hf hint hhint] at hv
      obtain rfl := Option.some.inj hv
      refine List.mem_flatMap.mpr ⟨f, hf, List.mem_append_left _ (List.mem_map.mpr ?_)⟩
      exact ⟨hint, List.mem_append_right _ hhint, rfl⟩
  | assignment hp h => exact hcode hp (mem_told_iff.mpr ⟨_, h, .inl rfl⟩)
  | elementAssignment hp h => exact hcode hp (mem_told_iff.mpr ⟨_, h, .inl rfl⟩)
  | appendStatement hp h => exact hcode hp (mem_told_iff.mpr ⟨_, h, .inl rfl⟩)
  | appendExpression hp hstatement h =>
      exact hcode hp (mem_told_iff.mpr ⟨_, hstatement, .inr ⟨_, h, rfl⟩⟩)

theorem contributes_of_mem_told {v : VarId} {ty : Ty} (h : (v, ty) ∈ s.told) :
    Contributes signatures body ds v ty := by
  obtain ⟨f, hf, htold⟩ := List.mem_flatMap.mp h
  obtain ⟨r, hr, hbecomes⟩ := exists_region_of_unit hrun hcomplete hends hf
  rcases List.mem_append.mp htold with hstated | hcode
  · obtain ⟨hint, hhint, hpair⟩ := List.mem_map.mp hstated
    cases hpair
    rcases List.mem_append.mp hhint with hhint | hhint
    · obtain ⟨position, hposition⟩ := List.mem_iff_getElem?.mp hhint
      have hparameter := hbecomes.getElem?_parameters position
      rw [hposition] at hparameter
      obtain ⟨p, hp, hpair⟩ := Option.map_eq_some_iff.mp hparameter.symm
      have hty : p.seed signatures (r.name.getD "") position = hint.ty := congrArg Prod.snd hpair
      rw [← hty]
      refine .seed hr hp ?_
      rw [hbecomes.fills.parameters, List.getElem?_map, hposition]
      rfl
    · have hty : (hint.name, hint.ty) ∈ Stmt.hintsAll r.body := by
        rw [← hbecomes.hints]
        exact List.mem_map_of_mem hhint
      refine .stated hr hty ?_
      rw [named_eq hends hbecomes]
      exact (resolved_of_runs hrun).hints f hf hint hhint
  · rw [hbecomes.view_eq, View.code_types] at hcode
    rcases ds.procAt_mem_or (r.procedure body) with hmem | ⟨-, hbody⟩
    · exact contributes_of_told hmem hcode
    · rw [hbody] at hcode
      cases hcode

end Finished

/--
A document declares every variable with the least type above all that is told of
it, wherever that happens.
-/
theorem published_type_isLUB {signatures : SignatureTable} {body : List Stmt}
    {lowered : Lowered} (ids : IdStream)
    (h : (run signatures (.module body)).result = .ok lowered) :
    let ds := lowered.declarations
    (ds.publish.map ids).declarations.Perm
      ((List.range ds.vars.length).map fun i =>
        ⟨ids (ds.varAt ⟨i⟩).id, (ds.varAt ⟨i⟩).name, (ds.tyOf ⟨i⟩).published⟩) ∧
      ∀ v : VarId, IsLUB {ty | Contributes signatures body ds v ty} (ds.tyOf v) := by
  obtain ⟨s, hrun, hcomplete, hends⟩ := exists_run h
  intro ds
  constructor
  · rw [Document.declarations_map, ds.declarations_publish, List.map_map]
    have hperm := (locals_perm hrun hcomplete hends).map fun v => (ds.publishVariable v).map ids
    rwa [List.map_map] at hperm
  · intro v
    have htype : ds.tyOf v = s.table.tyOf v := by
      rw [Declarations.tyOf, hends.types]
      rfl
    rw [htype, isLUB_iff_le_iff]
    intro u
    rw [(typed_of_runs hrun).least]
    constructor
    · intro hle ty hty
      exact hle ty (told_of_contributes hrun hcomplete hends hty)
    · intro hupper ty hty
      exact hupper (contributes_of_mem_told hrun hcomplete hends hty)

theorem published_type_isLUB_nestedModule : ∃ lowered,
    (run OrderedMap.empty (.module nestedModule)).result = .ok lowered ∧
      lowered.declarations.tyOf ⟨2⟩ = .array .int ∧
      IsLUB {ty | Contributes OrderedMap.empty nestedModule lowered.declarations ⟨2⟩ ty}
        (lowered.declarations.tyOf ⟨2⟩) := by
  obtain ⟨lowered, h⟩ := nestedModule_lowered
  have hty : (run OrderedMap.empty (.module nestedModule)).result.toOption.map
      (fun lowered => lowered.declarations.tyOf ⟨2⟩) = some (.array .int) := rfl
  rw [h] at hty
  have hleast := published_type_isLUB (IdStream.sequential IdStream.defaultStem) h
  exact ⟨lowered, h, Option.some.inj hty, hleast.2 ⟨2⟩⟩

end Lowering

end TypedPseudocode
