import TypedPseudocode.Table

/-!
What the operations of the symbol table change, and what they leave alone.
-/

namespace TypedPseudocode

open Code

theorem Declarations.procAt_of_ge {ds : Declarations} {p : ProcId}
    (h : ds.procedures.length ≤ p.index) :
    ds.procAt p = ⟨default, none, .unknown, [], [], false⟩ := by
  rw [procAt, List.getElem?_eq_none h]
  rfl

theorem map_modify_eq {α γ : Type} {f : α → γ} {g : α → α} (h : ∀ a, f (g a) = f a)
    (as : List α) (i : Nat) : (as.modify i g).map f = as.map f := by
  apply List.ext_getElem?
  intro j
  simp only [List.getElem?_map, List.getElem?_modify]
  cases as[j]? with
  | none => rfl
  | some a =>
      by_cases hij : i = j
      · simp [hij, h]
      · simp [hij]

theorem modify_map {α β : Type} {g : α → β} {f : α → α} {f' : β → β}
    (h : ∀ a, f' (g a) = g (f a)) (as : List α) (i : Nat) :
    (as.map g).modify i f' = (as.modify i f).map g := by
  apply List.ext_getElem?
  intro j
  simp only [List.getElem?_map, List.getElem?_modify]
  cases as[j]? with
  | none => rfl
  | some a =>
      by_cases hij : i = j
      · simp [hij, h]
      · simp [hij]

theorem getElem?_of_prefix {α : Type} {as bs : List α} (h : as <+: bs) {i : Nat} {a : α}
    (ha : as[i]? = some a) : bs[i]? = some a := by
  obtain ⟨hi, rfl⟩ := List.getElem?_eq_some_iff.mp ha
  exact List.prefix_iff_getElem?.mp h i hi

@[simp] theorem fresh_nat (n : Nat) : IdSource.fresh n = (n, n + 1) := rfl

namespace Table

variable {σ ι : Type}

/-! ## Raising the type of a variable -/

def raise (t : Table σ ι) (v : VarId) (ty : Ty) : Table σ ι :=
  { t with types := t.types.insert v ty }

section Raise

variable (t : Table σ ι) (v : VarId) (ty : Ty)

@[simp] theorem procedures_raise : (t.raise v ty).procedures = t.procedures := rfl

@[simp] theorem vars_raise : (t.raise v ty).vars = t.vars := rfl

@[simp] theorem source_raise : (t.raise v ty).source = t.source := rfl

@[simp] theorem scope_raise : (t.raise v ty).scope = t.scope := rfl

@[simp] theorem outer_raise : (t.raise v ty).outer = t.outer := rfl

@[simp] theorem signatures_raise : (t.raise v ty).signatures = t.signatures := rfl

theorem tyOf_raise (w : VarId) :
    (t.raise v ty).tyOf w = if v = w then ty else t.tyOf w :=
  TypeStore.tyOf_register t.types v w ty

theorem constrainVariable_eq [Inhabited ι] (line : Nat) :
    t.constrainVariable v ty line =
      match (t.tyOf v).unify ty with
      | some unified => (.ok unified, t.raise v unified)
      | none => (.error (.conflict (.variable (t.varAt v).name) ⟨t.tyOf v, ty⟩ line), t) := by
  unfold constrainVariable TypeStore.constrain Declarations.tyOf
  cases (t.types.tyOf v).unify ty <;> rfl

end Raise

/-! ## Reaching a procedure by a call -/

def reach [Inhabited ι] (t : Table σ ι) (name : String) (p : ProcId) (arguments : List Ty) :
    Table σ ι :=
  (t.updateProcedure p ({ · with called := true })).capture name p arguments

section Reach

variable [Inhabited ι] (t : Table σ ι) (name : String) (p : ProcId) (arguments : List Ty)

theorem reach_eq : ∃ captured, t.reach name p arguments =
    { t with
      procedures := t.procedures.modify p.index ({ · with called := true })
      captured := captured } := by
  unfold reach capture
  split
  · exact ⟨_, rfl⟩
  · exact ⟨t.captured, rfl⟩

@[simp] theorem procedures_reach :
    (t.reach name p arguments).procedures =
      t.procedures.modify p.index ({ · with called := true }) := by
  obtain ⟨captured, h⟩ := reach_eq t name p arguments
  rw [h]

@[simp] theorem vars_reach : (t.reach name p arguments).vars = t.vars := by
  obtain ⟨captured, h⟩ := reach_eq t name p arguments
  rw [h]

@[simp] theorem types_reach : (t.reach name p arguments).types = t.types := by
  obtain ⟨captured, h⟩ := reach_eq t name p arguments
  rw [h]

@[simp] theorem source_reach : (t.reach name p arguments).source = t.source := by
  obtain ⟨captured, h⟩ := reach_eq t name p arguments
  rw [h]

@[simp] theorem scope_reach : (t.reach name p arguments).scope = t.scope := by
  obtain ⟨captured, h⟩ := reach_eq t name p arguments
  rw [h]

@[simp] theorem outer_reach : (t.reach name p arguments).outer = t.outer := by
  obtain ⟨captured, h⟩ := reach_eq t name p arguments
  rw [h]

@[simp] theorem signatures_reach :
    (t.reach name p arguments).signatures = t.signatures := by
  obtain ⟨captured, h⟩ := reach_eq t name p arguments
  rw [h]

theorem procAt_reach_of_ne {q : ProcId} (h : q ≠ p) :
    (t.reach name p arguments).procAt q = t.procAt q := by
  have hindex : p.index ≠ q.index := by
    intro heq
    exact h (congrArg ProcId.mk heq.symm)
  simp [Declarations.procAt, hindex]

variable {p} in
theorem procAt_reach_self (h : p.index < t.procedures.length) :
    (t.reach name p arguments).procAt p = { t.procAt p with called := true } := by
  simp [Declarations.procAt, List.getElem?_eq_getElem h]

theorem captured_reach :
    t.captured.entries <+: (t.reach name p arguments).captured.entries := by
  unfold reach capture
  split
  · rename_i hnews
    have hnew : name ∉ t.captured.keys := by
      rw [← OrderedMap.contains_iff_mem_keys]
      simp only [isNews, Bool.and_eq_true, Bool.not_eq_true'] at hnews
      exact Bool.eq_false_iff.mp hnews.2
    change _ <+: (t.captured.insert name _).entries
    rw [OrderedMap.entries_insert_of_not_mem _ hnew]
    exact List.prefix_append _ _
  · exact List.prefix_refl _

theorem get?_captured_reach (other : String) :
    (t.reach name p arguments).captured.get? other =
      if t.isNews name ∧ name = other then some (.ofCall (t.procAt p).ty arguments)
      else t.captured.get? other := by
  have hty : ((t.updateProcedure p ({ · with called := true })).procAt p).ty =
      (t.procAt p).ty := by
    simp only [Declarations.procAt, updateProcedure, List.getElem?_modify]
    cases t.procedures[p.index]? <;> simp
  have hnews : (t.updateProcedure p ({ · with called := true })).isNews name = t.isNews name :=
    rfl
  unfold reach capture
  rw [hnews, hty]
  split
  · rename_i h
    simp only [h, true_and]
    exact OrderedMap.get?_insert t.captured name other _
  · rename_i h
    simp only [h, Bool.false_eq_true, false_and, if_false]
    rfl

end Reach

/-! ## Declaring -/

def withVariable (t : Table) (name : String) (stated : Option Ty) (slot : Option Slot) : Table :=
  (t.declareVariable name stated slot).2

section Variable

variable (t : Table) (name : String) (stated : Option Ty) (slot : Option Slot)

theorem declareVariable_eq :
    t.declareVariable name stated slot =
      (⟨t.vars.length⟩, t.withVariable name stated slot) := rfl

@[simp] theorem procedures_withVariable :
    (t.withVariable name stated slot).procedures = t.procedures := rfl

@[simp] theorem vars_withVariable :
    (t.withVariable name stated slot).vars = t.vars ++ [⟨t.source, name⟩] := rfl

@[simp] theorem source_withVariable :
    (t.withVariable name stated slot).source = t.source + 1 := rfl

@[simp] theorem scope_withVariable :
    (t.withVariable name stated slot).scope =
      t.scope.insert name (.variable ⟨t.vars.length⟩) := rfl

@[simp] theorem outer_withVariable : (t.withVariable name stated slot).outer = t.outer := rfl

@[simp] theorem signatures_withVariable :
    (t.withVariable name stated slot).signatures = t.signatures := rfl

theorem tyOf_withVariable (v : VarId) :
    (t.withVariable name stated slot).tyOf v =
      if ⟨t.vars.length⟩ = v then t.variableSeed name stated slot else t.tyOf v :=
  TypeStore.tyOf_register t.types ⟨t.vars.length⟩ v (t.variableSeed name stated slot)

end Variable

def withProcedure (t : Table) (name : String) (stated : Option Ty) : Table :=
  (t.declareProcedure (some name) stated).2

section Procedure

variable (t : Table) (name : String) (stated : Option Ty)

theorem declareProcedure_eq :
    t.declareProcedure (some name) stated =
      (⟨t.procedures.length⟩, t.withProcedure name stated) := rfl

@[simp] theorem procedures_withProcedure :
    (t.withProcedure name stated).procedures =
      t.procedures ++ [⟨t.source, some name, t.resultSeed (some name) stated, [], [], false⟩] :=
  rfl

theorem procAt_withProcedure (p : ProcId) :
    (t.withProcedure name stated).procAt p =
      if ⟨t.procedures.length⟩ = p then
        ⟨t.source, some name, t.resultSeed (some name) stated, [], [], false⟩
      else t.procAt p := by
  obtain ⟨index⟩ := p
  simp only [Declarations.procAt, procedures_withProcedure, ProcId.mk.injEq]
  rcases Nat.lt_trichotomy index t.procedures.length with hlt | rfl | hgt
  · rw [List.getElem?_append_left hlt, if_neg (by omega)]
  · simp
  · rw [List.getElem?_eq_none (by simp; omega), List.getElem?_eq_none (by omega),
      if_neg (by omega)]

theorem procAt_withProcedure_of_lt {p : ProcId} (h : p.index < t.procedures.length) :
    (t.withProcedure name stated).procAt p = t.procAt p := by
  rw [procAt_withProcedure, if_neg]
  rintro rfl
  exact Nat.lt_irrefl _ h

/-- What a new procedure does not have yet was not there before either. -/
theorem procAt_withProcedure_congr {α : Type} (f : Procedure → α)
    (h : f ⟨t.source, some name, t.resultSeed (some name) stated, [], [], false⟩ =
      f ⟨default, none, .unknown, [], [], false⟩) (p : ProcId) :
    f ((t.withProcedure name stated).procAt p) = f (t.procAt p) := by
  rw [procAt_withProcedure]
  split
  · rename_i hp
    subst hp
    rw [h, Declarations.procAt_of_ge (Nat.le_refl _)]
  · rfl

@[simp] theorem vars_withProcedure : (t.withProcedure name stated).vars = t.vars := rfl

@[simp] theorem types_withProcedure : (t.withProcedure name stated).types = t.types := rfl

@[simp] theorem source_withProcedure : (t.withProcedure name stated).source = t.source + 1 := rfl

@[simp] theorem scope_withProcedure :
    (t.withProcedure name stated).scope =
      t.scope.insert name (.procedure ⟨t.procedures.length⟩) := rfl

@[simp] theorem outer_withProcedure : (t.withProcedure name stated).outer = t.outer := rfl

@[simp] theorem signatures_withProcedure :
    (t.withProcedure name stated).signatures = t.signatures := rfl

end Procedure

theorem procAt_updateProcedure_of_ne (t : Table) {p q : ProcId} (f : Procedure → Procedure)
    (h : q ≠ p) : (t.updateProcedure p f).procAt q = t.procAt q := by
  have hindex : p.index ≠ q.index := by
    intro heq
    exact h (congrArg ProcId.mk heq.symm)
  simp [Declarations.procAt, updateProcedure, hindex]

/-! ## Completing a procedure -/

def complete (t : Table) (p : ProcId) (ty : Ty) (parameters : List VarId)
    (body : List TypedStatement) : Table :=
  (t.updateProcedure p ({ · with ty := ty })).define p parameters body

section Complete

variable (t : Table) (p : ProcId) (ty : Ty) (parameters : List VarId)
  (body : List TypedStatement)

@[simp] theorem procedures_complete :
    (t.complete p ty parameters body).procedures =
      t.procedures.modify p.index
        fun procedure => { procedure with ty := ty, parameters := parameters, body := body } := by
  simp only [complete, define, updateProcedure, List.modify_modify_eq]
  rfl

@[simp] theorem vars_complete : (t.complete p ty parameters body).vars = t.vars := rfl

@[simp] theorem types_complete : (t.complete p ty parameters body).types = t.types := rfl

@[simp] theorem source_complete : (t.complete p ty parameters body).source = t.source := rfl

@[simp] theorem scope_complete : (t.complete p ty parameters body).scope = t.scope := rfl

@[simp] theorem outer_complete : (t.complete p ty parameters body).outer = t.outer := rfl

@[simp] theorem signatures_complete :
    (t.complete p ty parameters body).signatures = t.signatures := rfl

variable {t p}

theorem procAt_complete_self (h : p.index < t.procedures.length) :
    (t.complete p ty parameters body).procAt p =
      { t.procAt p with ty := ty, parameters := parameters, body := body } := by
  simp [Declarations.procAt, List.getElem?_eq_getElem h]

theorem procAt_complete_of_ne {q : ProcId} (h : q ≠ p) :
    (t.complete p ty parameters body).procAt q = t.procAt q := by
  have hindex : p.index ≠ q.index := by
    intro heq
    exact h (congrArg ProcId.mk heq.symm)
  simp [Declarations.procAt, hindex]

end Complete

/-! ## Scopes -/

section Scopes

variable (t : Table)

@[simp] theorem toDeclarations_enter : t.enter.toDeclarations = t.toDeclarations := rfl

@[simp] theorem source_enter : t.enter.source = t.source := rfl

@[simp] theorem signatures_enter : t.enter.signatures = t.signatures := rfl

@[simp] theorem toDeclarations_leave : t.leave.toDeclarations = t.toDeclarations := by
  unfold leave
  split <;> rfl

@[simp] theorem source_leave : t.leave.source = t.source := by
  unfold leave
  split <;> rfl

@[simp] theorem signatures_leave : t.leave.signatures = t.signatures := by
  unfold leave
  split <;> rfl

@[simp] theorem captured_leave : t.leave.captured = t.captured := by
  unfold leave
  split <;> rfl

end Scopes

theorem lookup_enclosing_of_innermost {t : Table} {name : String} {d : Declaration}
    (h : t.scope.get? name = some d) : t.lookup name .enclosing = some d := by
  simp [lookup, h]

theorem exists_scope_of_lookup {t : Table} {name : String} {d : Declaration}
    (h : t.lookup name .enclosing = some d) :
    ∃ scope ∈ t.scope :: t.outer, scope.get? name = some d :=
  List.exists_of_findSome?_eq_some h

/-! ## All that is bound -/

def AllBound (t : Table) (Q : String → Declaration → Prop) : Prop :=
  ∀ scope ∈ t.scope :: t.outer, ∀ name d, scope.get? name = some d → Q name d

namespace AllBound

variable {t t' : Table} {Q Q' : String → Declaration → Prop}

theorem empty (signatures : SignatureTable) : (Table.empty signatures).AllBound Q := by
  intro scope hscope name d hd
  rw [List.mem_singleton.mp hscope] at hd
  cases hd

theorem mono (h : t.AllBound Q) (hQ : ∀ name d, Q name d → Q' name d) : t.AllBound Q' :=
  fun scope hscope name d hd => hQ name d (h scope hscope name d hd)

theorem congr (h : t.AllBound Q) (hscope : t'.scope = t.scope) (houter : t'.outer = t.outer) :
    t'.AllBound Q := by
  rw [AllBound, hscope, houter]
  exact h

theorem of_lookup (h : t.AllBound Q) {name : String} {reach : Reach} {d : Declaration}
    (hlookup : t.lookup name reach = some d) : Q name d := by
  cases reach with
  | innermost => exact h t.scope List.mem_cons_self name d hlookup
  | enclosing =>
      obtain ⟨scope, hscope, hd⟩ := exists_scope_of_lookup hlookup
      exact h scope hscope name d hd

theorem bind (h : t.AllBound Q) {name : String} {d : Declaration} (hd : Q name d) :
    (t.bind name d).AllBound Q := by
  intro scope hscope other d' hget
  rcases List.mem_cons.mp hscope with rfl | hscope
  · change (t.scope.insert name d).get? other = some d' at hget
    rw [OrderedMap.get?_insert] at hget
    split at hget
    · rename_i hname
      cases hget
      exact hname ▸ hd
    · exact h t.scope List.mem_cons_self other d' hget
  · exact h scope (List.mem_cons_of_mem _ hscope) other d' hget

theorem enter (h : t.AllBound Q) : t.enter.AllBound Q := by
  intro scope hscope name d hd
  rcases List.mem_cons.mp hscope with rfl | hscope
  · cases hd
  · exact h scope hscope name d hd

theorem leave (h : t.AllBound Q) : t.leave.AllBound Q := by
  unfold Table.leave
  split
  · exact h
  · rename_i scope outer houter
    exact fun scope' hscope => h scope' (List.mem_cons_of_mem _ (houter ▸ hscope))

end AllBound

end Table

end TypedPseudocode
