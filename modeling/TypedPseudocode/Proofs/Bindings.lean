import TypedPseudocode.Proofs.Tables
import TypedPseudocode.Proofs.TypeOrder
import TypedPseudocode.Tree

/-!
Bindings: the names that statements may bind, and tables that grow.

The source tells beforehand which names a list of statements can bind in its own
scope, and which anywhere in the functions inside it.  A table grows as long as no
other names are bound, no name is unbound, the scopes around are left alone and
all that happens to earlier declarations is that more becomes known of them.
-/

namespace TypedPseudocode

open Code TypedPseudocode.Tree

/-! ## Names that are bound -/

namespace Tree

mutual

def Expr.targetNames : Expr → List String
  | .name _ id _ => [id]
  | .list _ elements _ | .tuple _ elements _ => Expr.targetNamesAll elements
  | _ => []

def Expr.targetNamesAll : List Expr → List String
  | [] => []
  | e :: es => e.targetNames ++ Expr.targetNamesAll es

end

mutual

def Stmt.binds : Stmt → List String
  | .functionDef _ name _ _ _ _ => [name]
  | .assign _ targets _ => Expr.targetNamesAll targets
  | .annAssign _ target _ _ => target.identifier?.toList
  | .forLoop _ target _ body orelse =>
      target.identifier?.toList ++ (Stmt.bindsAll body ++ Stmt.bindsAll orelse)
  | .whileLoop _ _ body orelse | .branch _ _ body orelse =>
      Stmt.bindsAll body ++ Stmt.bindsAll orelse
  | _ => []

def Stmt.bindsAll : List Stmt → List String
  | [] => []
  | s :: rest => s.binds ++ Stmt.bindsAll rest

end

def Parameters.names (ps : Parameters) : List String :=
  (ps.positionalOnly ++ ps.positional ++ ps.variadic.toList ++ ps.keywordOnly
    ++ ps.keywordVariadic.toList).map (·.name)

theorem Parameters.positional_subset_names (ps : Parameters) :
    ps.positional.map (·.name) ⊆ ps.names := by
  refine List.map_subset _ fun p hp => ?_
  simp [hp]

mutual

def Stmt.bindsDeep : Stmt → List String
  | .functionDef _ name ps body _ _ => name :: (ps.names ++ Stmt.bindsDeepAll body)
  | .assign _ targets _ => Expr.targetNamesAll targets
  | .annAssign _ target _ _ => target.identifier?.toList
  | .forLoop _ target _ body orelse =>
      target.identifier?.toList ++ (Stmt.bindsDeepAll body ++ Stmt.bindsDeepAll orelse)
  | .whileLoop _ _ body orelse | .branch _ _ body orelse =>
      Stmt.bindsDeepAll body ++ Stmt.bindsDeepAll orelse
  | _ => []

def Stmt.bindsDeepAll : List Stmt → List String
  | [] => []
  | s :: rest => s.bindsDeep ++ Stmt.bindsDeepAll rest

end

mutual

theorem Stmt.binds_subset_bindsDeep (s : Stmt) : s.binds ⊆ s.bindsDeep := by
  cases s with
  | functionDef => simp [Stmt.binds, Stmt.bindsDeep]
  | forLoop line target iter body orelse =>
      intro name h
      simp only [Stmt.binds, Stmt.bindsDeep, List.mem_append] at h ⊢
      exact h.imp_right (Or.imp (@Stmt.bindsAll_subset_bindsDeepAll body name)
        (@Stmt.bindsAll_subset_bindsDeepAll orelse name))
  | whileLoop line test body orelse =>
      intro name h
      simp only [Stmt.binds, Stmt.bindsDeep, List.mem_append] at h ⊢
      exact h.imp (@Stmt.bindsAll_subset_bindsDeepAll body name)
        (@Stmt.bindsAll_subset_bindsDeepAll orelse name)
  | branch line test body orelse =>
      intro name h
      simp only [Stmt.binds, Stmt.bindsDeep, List.mem_append] at h ⊢
      exact h.imp (@Stmt.bindsAll_subset_bindsDeepAll body name)
        (@Stmt.bindsAll_subset_bindsDeepAll orelse name)
  | _ => exact fun _ h => h

theorem Stmt.bindsAll_subset_bindsDeepAll (ss : List Stmt) :
    Stmt.bindsAll ss ⊆ Stmt.bindsDeepAll ss := by
  cases ss with
  | nil => exact fun _ h => h
  | cons s ss =>
      intro name h
      simp only [Stmt.bindsAll, Stmt.bindsDeepAll, List.mem_append] at h ⊢
      exact h.imp (@Stmt.binds_subset_bindsDeep s name)
        (@Stmt.bindsAll_subset_bindsDeepAll ss name)

end

end Tree

/-! ## Tables that grow -/

/--
What may have changed once names from `names` have been bound in the innermost
scope and procedures from `opened` have been completed.
-/
structure Table.Grows (names : List String) (opened : List ProcId) (t t' : Table) : Prop where
  outer : t'.outer = t.outer
  scope : ∀ name, name ∉ names → t'.scope.get? name = t.scope.get? name
  bound : ∀ name, (t.scope.get? name).isSome → (t'.scope.get? name).isSome
  vars : t.vars <+: t'.vars
  types : ∀ v : VarId, v.index < t.vars.length → t.tyOf v ≤ t'.tyOf v
  named : t.procedures.map (fun p => (p.id, p.name)) <+:
    t'.procedures.map fun p => (p.id, p.name)
  kept : ∀ p : ProcId, p.index < t.procedures.length → p ∉ opened →
    t'.procAt p = t.procAt p ∨ t'.procAt p = { t.procAt p with called := true }
  signatures : t'.signatures = t.signatures
  captured : t.captured.entries <+: t'.captured.entries
  source : t'.source + (t.procedures.length + t.vars.length) =
    t.source + (t'.procedures.length + t'.vars.length)

namespace Table.Grows

variable {names names' : List String} {opened opened' : List ProcId} {t t₁ t₂ t' : Table}

theorem refl (names : List String) (opened : List ProcId) (t : Table) :
    Grows names opened t t where
  outer := rfl
  scope _ _ := rfl
  bound _ h := h
  vars := List.prefix_refl _
  types _ _ := le_refl _
  named := List.prefix_refl _
  kept _ _ _ := .inl rfl
  signatures := rfl
  captured := List.prefix_refl _
  source := rfl

theorem procedures_length (h : Grows names opened t t') :
    t.procedures.length ≤ t'.procedures.length := by
  simpa using h.named.length_le

theorem trans (h : Grows names opened t t₁) (h' : Grows names opened t₁ t₂) :
    Grows names opened t t₂ where
  outer := h'.outer.trans h.outer
  scope name hname := (h'.scope name hname).trans (h.scope name hname)
  bound name hname := h'.bound name (h.bound name hname)
  vars := h.vars.trans h'.vars
  types v hv := (h.types v hv).trans (h'.types v (hv.trans_le h.vars.length_le))
  named := h.named.trans h'.named
  kept p hp hopened := by
    rcases h'.kept p (hp.trans_le h.procedures_length) hopened with heq | heq
    · rw [heq]
      exact h.kept p hp hopened
    · right
      rw [heq]
      rcases h.kept p hp hopened with heq | heq
      · rw [heq]
      · rw [heq]
  signatures := h'.signatures.trans h.signatures
  captured := h.captured.trans h'.captured
  source := by
    have hdrawn := h.source
    have hdrawn' := h'.source
    omega

instance : IsTrans Table (Grows names opened) := ⟨fun _ _ _ => trans⟩

theorem mono (h : Grows names opened t t') (hnames : names ⊆ names')
    (hopened : opened ⊆ opened') : Grows names' opened' t t' :=
  { h with
    scope := fun name hname => h.scope name fun hmem => hname (hnames hmem)
    kept := fun p hp hnot => h.kept p hp fun hmem => hnot (hopened hmem) }

/-- Procedures that were declared in the meantime may be completed at will. -/
theorem trans_fresh (h : Grows names opened t t₁) (h' : Grows names opened' t₁ t₂)
    (hfresh : ∀ p ∈ opened', p ∈ opened ∨ t.procedures.length ≤ p.index) :
    Grows names opened t t₂ := by
  have hboth := (h.mono (List.Subset.refl _) (List.subset_append_left opened opened')).trans
    (h'.mono (List.Subset.refl _) (List.subset_append_right opened opened'))
  refine { hboth with kept := fun p hp hopened => hboth.kept p hp fun hmem => ?_ }
  rcases List.mem_append.mp hmem with hmem | hmem
  · exact hopened hmem
  · rcases hfresh p hmem with hmem | hge
    · exact hopened hmem
    · omega

theorem leave (h : Grows names opened t.enter t') : Grows [] opened t t'.leave := by
  have houter : t'.outer = t.scope :: t.outer := h.outer
  have hscope : t'.leave.scope = t.scope := by simp [Table.leave, houter]
  refine ⟨by simp [Table.leave, houter], fun name _ => by rw [hscope],
    fun name hname => by rwa [hscope], by simpa using h.vars, ?_, by simpa using h.named, ?_,
    by simpa using h.signatures, ?_, by simpa using h.source⟩
  · simpa using h.types
  · simpa using h.kept
  · rw [Table.captured_leave]
    exact h.captured

theorem lookup_eq (h : Grows [] opened t t') (name : String) (reach : Reach) :
    t'.lookup name reach = t.lookup name reach := by
  have hscope := h.scope name List.not_mem_nil
  cases reach with
  | innermost => exact hscope
  | enclosing => simp only [Table.lookup, List.findSome?_cons, hscope, h.outer]

theorem lookup_isSome (h : Grows names opened t t') {name : String}
    (hname : (t.scope.get? name).isSome) : (t'.lookup name .enclosing).isSome := by
  obtain ⟨d, hd⟩ := Option.isSome_iff_exists.mp (h.bound name hname)
  rw [Table.lookup_enclosing_of_innermost hd]
  rfl

theorem name_eq (h : Grows names opened t t') {p : ProcId} (hp : p.index < t.procedures.length) :
    (t'.procAt p).name = (t.procAt p).name := by
  obtain ⟨later, hlater⟩ := h.named
  have hget := congrArg (fun named => named[p.index]?) hlater
  rw [List.getElem?_append_left (by simpa using hp)] at hget
  simp only [List.getElem?_map, List.getElem?_eq_getElem hp, Option.map_some] at hget
  obtain ⟨procedure, hprocedure, hsame⟩ := Option.map_eq_some_iff.mp hget.symm
  simp only [Declarations.procAt, hprocedure, List.getElem?_eq_getElem hp, Option.getD_some]
  exact congrArg Prod.snd hsame

end Table.Grows

/-! ## Steps on the table -/

section Steps

variable (t : Table) (names : List String) (opened : List ProcId)

theorem Table.grows_raise {v : VarId} {ty unified : Ty}
    (h : (t.tyOf v).unify ty = some unified) : Grows names opened t (t.raise v unified) := by
  refine { Grows.refl names opened t with types := fun w _ => ?_ }
  rw [Table.tyOf_raise]
  split
  · rename_i hw
    subst hw
    exact ((Ty.unify_le_iff h unified).mp (le_refl _)).1
  · exact le_refl _

theorem Table.grows_reach (name : String) (p : ProcId) (arguments : List Ty) :
    Grows names opened t (t.reach name p arguments) := by
  refine ⟨by simp, by simp, by simp, by simp, fun v _ => by simp [Declarations.tyOf], ?_,
    fun q hq _ => ?_, by simp, ?_, by simp⟩
  · have hnamed : (t.reach name p arguments).procedures.map (fun q => (q.id, q.name)) =
        t.procedures.map fun q => (q.id, q.name) := by
      rw [Table.procedures_reach, map_modify_eq]
      exact fun _ => rfl
    exact hnamed ▸ List.prefix_refl _
  · by_cases hqp : q = p
    · subst hqp
      exact .inr (t.procAt_reach_self name arguments hq)
    · exact .inl (t.procAt_reach_of_ne name p arguments hqp)
  · exact t.captured_reach name p arguments

theorem Table.grows_withVariable {name : String} (hname : name ∈ names) (stated : Option Ty)
    (slot : Option Slot) : Grows names opened t (t.withVariable name stated slot) := by
  refine ⟨rfl, fun other hother => ?_, fun other hother => ?_, by simp, fun v hv => ?_,
    List.prefix_refl _, fun _ _ _ => .inl rfl, rfl, List.prefix_refl _, ?_⟩
  · have hne : name ≠ other := fun heq => hother (heq ▸ hname)
    simp [OrderedMap.get?_insert, hne]
  · rw [Table.scope_withVariable, OrderedMap.get?_insert]
    split
    · rfl
    · exact hother
  · rw [Table.tyOf_withVariable, if_neg]
    rintro rfl
    exact Nat.lt_irrefl _ hv
  · simp
    omega

theorem Table.grows_withProcedure {name : String} (hname : name ∈ names)
    (stated : Option Ty) : Grows names opened t (t.withProcedure name stated) := by
  refine ⟨rfl, fun other hother => ?_, fun other hother => ?_, List.prefix_refl _,
    fun v hv => le_refl _, by simp, fun p hp _ => ?_, rfl, List.prefix_refl _, ?_⟩
  · have hne : name ≠ other := fun heq => hother (heq ▸ hname)
    simp [OrderedMap.get?_insert, hne]
  · rw [Table.scope_withProcedure, OrderedMap.get?_insert]
    split
    · rfl
    · exact hother
  · exact .inl (t.procAt_withProcedure_of_lt name stated hp)
  · simp
    omega

theorem Table.grows_updateProcedure {p : ProcId} (hp : p ∈ opened)
    {f : Procedure → Procedure} (hserial : ∀ q, (f q).id = q.id)
    (hname : ∀ q, (f q).name = q.name) : Grows names opened t (t.updateProcedure p f) := by
  refine { Grows.refl names opened t with named := ?_, kept := fun q _ hopened => ?_, source := ?_ }
  · have hsame : ∀ q, ((f q).id, (f q).name) = (q.id, q.name) := fun q => by
      rw [hserial, hname]
    have hnamed : (t.updateProcedure p f).procedures.map (fun q => (q.id, q.name)) =
        t.procedures.map fun q => (q.id, q.name) := map_modify_eq hsame _ _
    exact hnamed ▸ List.prefix_refl _
  · left
    refine t.procAt_updateProcedure_of_ne f ?_
    rintro rfl
    exact hopened hp
  · simp [Table.updateProcedure]

end Steps

end TypedPseudocode
