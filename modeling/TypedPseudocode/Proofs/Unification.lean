import TypedPseudocode.Lowering.Basic
import TypedPseudocode.Proofs.Tables
import TypedPseudocode.Proofs.TypeOrder

/-!
Unification: least upper bounds, found in any order.

`unify` computes the least upper bound of two types wherever they are bounded at
all.  Folding it over a list therefore looks for the least upper bound of the list,
and in which order the candidates come decides at most which of them is blamed.
The type store folds in the same way for each of its variables, undisturbed by
what is told of the others in between.
-/

namespace TypedPseudocode

open Code

namespace Ty

/-! ## Two types -/

theorem unify_eq_some_iff {a b c : Ty} : a.unify b = some c ↔ IsLUB {a, b} c := by
  have hbounds (u : Ty) : u ∈ upperBounds {a, b} ↔ a ≤ u ∧ b ≤ u := by
    simp [upperBounds]
  constructor
  · intro h
    rw [isLUB_iff_le_iff]
    intro u
    rw [unify_le_iff h u, hbounds]
  · intro h
    obtain ⟨ha, hb⟩ := (hbounds c).mp h.1
    obtain ⟨d, hd⟩ := exists_unify_of_le ha hb
    have hleast : IsLUB {a, b} d := by
      rw [isLUB_iff_le_iff]
      intro u
      rw [unify_le_iff hd u, hbounds]
    rw [hd, hleast.unique h]

theorem unify_eq_none_iff {a b : Ty} : a.unify b = none ↔ ¬ BddAbove {a, b} := by
  constructor
  · rintro h ⟨u, hu⟩
    have ha : a ≤ u := hu (Set.mem_insert a {b})
    have hb : b ≤ u := hu (Set.mem_insert_of_mem a rfl)
    obtain ⟨c, hc⟩ := exists_unify_of_le ha hb
    rw [h] at hc
    cases hc
  · intro h
    cases hc : a.unify b with
    | none => rfl
    | some c => exact absurd ⟨c, (unify_eq_some_iff.mp hc).1⟩ h

theorem unify_comm (a b : Ty) : a.unify b = b.unify a := by
  ext c
  rw [unify_eq_some_iff, unify_eq_some_iff, Set.pair_comm]

theorem unify_self (a : Ty) : a.unify a = some a := by
  rw [unify_eq_some_iff, Set.pair_eq_singleton]
  exact isLUB_singleton

theorem unify_eq_some_iff_least {a b c : Ty} : a.unify b = some c ↔ Least a [b] c :=
  (Least.singleton b).unify_iff

theorem least_pair {a b c : Ty} (h : a.unify b = some c) : Least .unknown [a, b] c := by
  intro u
  rw [unify_le_iff h u]
  simp

theorem unify_assoc (a b c : Ty) :
    (a.unify b).bind (·.unify c) = (b.unify c).bind a.unify := by
  ext d
  simp only [Option.bind_eq_some_iff]
  constructor
  · rintro ⟨ab, hab, hd⟩
    have hleast : Least a ([b] ++ [c]) d :=
      Least.append_iff.mpr ⟨ab, unify_eq_some_iff_least.mp hab, unify_eq_some_iff_least.mp hd⟩
    have hbounds := ((hleast d).mp (le_refl d)).2
    obtain ⟨bc, hbc⟩ := exists_unify_of_le (hbounds b (by simp)) (hbounds c (by simp))
    exact ⟨bc, hbc, (least_pair hbc).unify_iff.mpr hleast⟩
  · rintro ⟨bc, hbc, hd⟩
    have hleast : Least a ([b] ++ [c]) d := (least_pair hbc).unify_iff.mp hd
    obtain ⟨ab, hab, hd⟩ := Least.append_iff.mp hleast
    exact ⟨ab, unify_eq_some_iff_least.mpr hab, unify_eq_some_iff_least.mpr hd⟩

/--
Unification is the join of the order of information.  It gives the least upper bound
of two types and fails exactly where they have no upper bound; it is commutative and
idempotent, `unknown` is neutral, and it is associative with its failures.
-/
theorem unify_is_join :
    (∀ a b c : Ty, a.unify b = some c ↔ IsLUB {a, b} c) ∧
      (∀ a b : Ty, a.unify b = none ↔ ¬ BddAbove {a, b}) ∧
      (∀ a b : Ty, a.unify b = b.unify a) ∧
      (∀ a : Ty, a.unify a = some a) ∧
      (∀ a : Ty, Ty.unknown.unify a = some a ∧ a.unify .unknown = some a) ∧
      ∀ a b c : Ty, (a.unify b).bind (·.unify c) = (b.unify c).bind a.unify :=
  ⟨fun _ _ _ => unify_eq_some_iff, fun _ _ => unify_eq_none_iff, unify_comm, unify_self,
    fun a => ⟨unify_unknown_left a, unify_unknown_right a⟩, unify_assoc⟩

/-! ## Lists of types -/

namespace Least

variable {known ty : Ty} {tys tys' : List Ty}

theorem iff_isLUB : Least known tys ty ↔ IsLUB {x | x ∈ known :: tys} ty := by
  rw [isLUB_iff_le_iff]
  simp [Least, upperBounds]

theorem exists_iff : (∃ ty, Least known tys ty) ↔ BddAbove {x | x ∈ known :: tys} := by
  constructor
  · rintro ⟨ty, hty⟩
    exact ⟨ty, (iff_isLUB.mp hty).1⟩
  · rintro ⟨u, hu⟩
    exact exists_of_le (hu List.mem_cons_self) fun x hx => hu (List.mem_cons_of_mem known hx)

theorem perm (hperm : tys'.Perm tys) : Least known tys' ty ↔ Least known tys ty := by
  simp only [Least, hperm.mem_iff]

theorem cons_iff {joined : Ty} {candidate : Ty} (h : known.unify candidate = some joined) :
    Least known (candidate :: tys) ty ↔ Least joined tys ty := by
  simp only [Least, List.forall_mem_cons, unify_le_iff h, and_assoc]

end Least

theorem isLUB_unknown_cons {tys : List Ty} {ty : Ty} :
    IsLUB {x | x ∈ Ty.unknown :: tys} ty ↔ IsLUB {x | x ∈ tys} ty := by
  simp [isLUB_iff_le_iff, upperBounds]

theorem bddAbove_unknown_cons {tys : List Ty} :
    BddAbove {x | x ∈ Ty.unknown :: tys} ↔ BddAbove {x | x ∈ tys} := by
  simp [BddAbove, upperBounds]

theorem unifyFrom_eq_ok_iff {known ty : Ty} {tys : List Ty} :
    unifyFrom known tys = .ok ty ↔ Least known tys ty := by
  induction tys generalizing known with
  | nil =>
      rw [unifyFrom, Except.ok.injEq]
      constructor
      · rintro rfl
        exact Least.nil known
      · intro h
        exact (Least.nil known).unique h
  | cons candidate rest ih =>
      rw [unifyFrom]
      cases hjoined : known.unify candidate with
      | some joined => exact ih.trans (Least.cons_iff hjoined).symm
      | none =>
          refine iff_of_false (fun h => by cases h) fun h => ?_
          obtain ⟨hknown, hrest⟩ := (h ty).mp (le_refl ty)
          obtain ⟨joined, hsome⟩ := exists_unify_of_le hknown (hrest candidate List.mem_cons_self)
          rw [hjoined] at hsome
          cases hsome

theorem unifyFrom_eq_error {known : Ty} {tys : List Ty} {conflict : Conflict}
    (h : unifyFrom known tys = .error conflict) :
    ∃ before, before ++ [conflict.candidate] <+: tys ∧ Least known before conflict.existing ∧
      conflict.existing.unify conflict.candidate = none := by
  induction tys generalizing known with
  | nil => cases h
  | cons candidate rest ih =>
      rw [unifyFrom] at h
      cases hjoined : known.unify candidate with
      | none =>
          rw [hjoined] at h
          cases h
          exact ⟨[], List.prefix_append [candidate] rest, Least.nil known, hjoined⟩
      | some joined =>
          rw [hjoined] at h
          obtain ⟨before, hbefore, hleast, hnone⟩ := ih h
          exact ⟨candidate :: before, List.cons_prefix_cons.mpr ⟨rfl, hbefore⟩,
            (Least.cons_iff hjoined).mpr hleast, hnone⟩

theorem unifyAll_eq_ok_iff {tys : List Ty} {ty : Ty} :
    unifyAll tys = .ok ty ↔ IsLUB {x | x ∈ tys} ty := by
  rw [unifyAll, unifyFrom_eq_ok_iff, Least.iff_isLUB, isLUB_unknown_cons]

theorem exists_unifyAll_iff {tys : List Ty} :
    (∃ ty, unifyAll tys = .ok ty) ↔ BddAbove {x | x ∈ tys} := by
  simp only [unifyAll, unifyFrom_eq_ok_iff]
  exact Least.exists_iff.trans bddAbove_unknown_cons

theorem toOption_unifyAll_perm {tys tys' : List Ty} (h : tys'.Perm tys) :
    (unifyAll tys').toOption = (unifyAll tys).toOption := by
  have hok (ty : Ty) : unifyAll tys' = .ok ty ↔ unifyAll tys = .ok ty := by
    simp only [unifyAll, unifyFrom_eq_ok_iff, Least.perm h]
  cases hall : unifyAll tys with
  | ok ty => rw [(hok ty).mpr hall]
  | error conflict =>
      cases hall' : unifyAll tys' with
      | error => rfl
      | ok ty =>
          rw [(hok ty).mp hall'] at hall
          cases hall

/-- The conflict stands at the end of the shortest part that has no upper bound. -/
theorem unifyAll_eq_error {tys : List Ty} {conflict : Conflict}
    (h : unifyAll tys = .error conflict) :
    ∃ before, before ++ [conflict.candidate] <+: tys ∧
      IsLUB {x | x ∈ before} conflict.existing ∧
      ¬ BddAbove {x | x ∈ before ++ [conflict.candidate]} ∧
      ∀ part, part <+: tys → ¬ BddAbove {x | x ∈ part} →
        before ++ [conflict.candidate] <+: part := by
  obtain ⟨before, hbefore, hleast, hnone⟩ := unifyFrom_eq_error h
  have hlub := isLUB_unknown_cons.mp (Least.iff_isLUB.mp hleast)
  refine ⟨before, hbefore, hlub, ?_, fun part hpart hunbounded => ?_⟩
  · rintro ⟨u, hu⟩
    have hexisting : conflict.existing ≤ u := hlub.2 fun x hx => hu (List.mem_append_left _ hx)
    have hcandidate : conflict.candidate ≤ u := hu (by simp)
    obtain ⟨joined, hjoined⟩ := exists_unify_of_le hexisting hcandidate
    rw [hnone] at hjoined
    cases hjoined
  · rcases List.prefix_or_prefix_of_prefix hbefore hpart with hlonger | hshorter
    · exact hlonger
    · rcases List.prefix_concat_iff.mp hshorter with rfl | hwithin
      · exact List.prefix_refl _
      · exact absurd ⟨conflict.existing, fun x hx => hlub.1 (hwithin.subset hx)⟩ hunbounded

end Ty

/-! ## Updates of a type store -/

namespace TypeStore

inductive Update where
  | register (v : VarId) (ty : Ty)
  | constrain (v : VarId) (ty : Ty)
  deriving DecidableEq, Repr

def Update.target : Update → VarId
  | .register v _ | .constrain v _ => v

def update (store : TypeStore) : Update → TypeStore
  | .register v ty => store.register v ty
  | .constrain v ty => (store.constrain v ty).2

def after (store : TypeStore) (updates : List Update) : TypeStore := updates.foldl update store

def Update.Fails (store : TypeStore) : Update → Prop
  | .register _ _ => False
  | .constrain v ty => ∃ known, (store.constrain v ty).1 = .error known

/-- Some constraint on the variable fails when its turn comes. -/
def FailsOn (store : TypeStore) (v : VarId) (updates : List Update) : Prop :=
  ∃ before u, before ++ [u] <+: updates ∧ u.target = v ∧ u.Fails (store.after before)

variable {store : TypeStore} {v : VarId} {u : Update} {updates : List Update} {ty : Ty}

theorem constrain_eq_ok {joined : Ty} (h : (store.tyOf v).unify ty = some joined) :
    store.constrain v ty = (.ok joined, store.insert v joined) := by
  simp only [constrain, h]

theorem constrain_eq_error (h : (store.tyOf v).unify ty = none) :
    store.constrain v ty = (.error (store.tyOf v), store) := by
  simp only [constrain, h]

theorem constrain_error {known : Ty} (h : (store.constrain v ty).1 = .error known) :
    known = store.tyOf v ∧ (store.constrain v ty).2 = store := by
  cases hjoined : (store.tyOf v).unify ty with
  | none =>
      rw [constrain_eq_error hjoined] at h ⊢
      exact ⟨(Except.error.inj h).symm, rfl⟩
  | some joined =>
      rw [constrain_eq_ok hjoined] at h
      cases h

theorem tyOf_update_of_ne (h : u.target ≠ v) : (store.update u).tyOf v = store.tyOf v := by
  cases u with
  | register w ty =>
      rw [update, tyOf_register]
      exact if_neg h
  | constrain w ty =>
      rw [update]
      cases hresult : (store.constrain w ty).1 with
      | ok joined =>
          rw [tyOf_constrain hresult]
          exact if_neg h
      | error known => rw [(constrain_error hresult).2]

theorem failsOn_cons :
    store.FailsOn v (u :: updates) ↔
      (u.target = v ∧ u.Fails store) ∨ (store.update u).FailsOn v updates := by
  constructor
  · rintro ⟨before, w, hbefore, htarget, hfails⟩
    cases before with
    | nil =>
        obtain ⟨rfl, -⟩ := List.cons_prefix_cons.mp hbefore
        exact .inl ⟨htarget, hfails⟩
    | cons first before =>
        obtain ⟨rfl, hrest⟩ := List.cons_prefix_cons.mp hbefore
        exact .inr ⟨before, w, hrest, htarget, hfails⟩
  · rintro (⟨htarget, hfails⟩ | ⟨before, w, hbefore, htarget, hfails⟩)
    · exact ⟨[], u, List.prefix_append [u] updates, htarget, hfails⟩
    · exact ⟨u :: before, w, List.cons_prefix_cons.mpr ⟨rfl, hbefore⟩, htarget, hfails⟩

/-- No constraint on the variable fails, and this is known of it in the end. -/
def Settles (store : TypeStore) (v : VarId) (updates : List Update) (ty : Ty) : Prop :=
  ¬ store.FailsOn v updates ∧ (store.after updates).tyOf v = ty

theorem settles_nil : store.Settles v [] ty ↔ store.tyOf v = ty := by
  refine and_iff_right ?_
  rintro ⟨before, u, hbefore, -⟩
  simp at hbefore

theorem settles_cons (h : ¬ (u.target = v ∧ u.Fails store)) :
    store.Settles v (u :: updates) ty ↔ (store.update u).Settles v updates ty := by
  rw [Settles, failsOn_cons, or_iff_right h]
  rfl

theorem settles_cons_of_ne (h : u.target ≠ v) :
    store.Settles v (u :: updates) ty ↔ (store.update u).Settles v updates ty :=
  settles_cons fun hu => h hu.1

theorem settles_iff_of_constrained {tys : List Ty}
    (h : updates.filter (·.target = v) = tys.map (.constrain v)) :
    store.Settles v updates ty ↔ Ty.Least (store.tyOf v) tys ty := by
  induction updates generalizing store tys with
  | nil =>
      obtain rfl := List.map_eq_nil_iff.mp h.symm
      rw [settles_nil, ← Ty.unifyFrom_eq_ok_iff, Ty.unifyFrom, Except.ok.injEq]
  | cons u updates ih =>
      by_cases htarget : u.target = v
      · rw [List.filter_cons_of_pos (by simpa using htarget)] at h
        obtain ⟨candidate, rest, rfl, rfl, hrest⟩ := List.map_eq_cons_iff.mp h.symm
        cases hjoined : (store.tyOf v).unify candidate with
        | none =>
            refine iff_of_false (fun hsettles => ?_) fun hleast => ?_
            · refine hsettles.1 (failsOn_cons.mpr (.inl ⟨htarget, ?_⟩))
              exact ⟨_, congrArg Prod.fst (constrain_eq_error hjoined)⟩
            · rw [← Ty.unifyFrom_eq_ok_iff, Ty.unifyFrom, hjoined] at hleast
              cases hleast
        | some joined =>
            have hok := congrArg Prod.fst (constrain_eq_ok hjoined)
            have hfits : ¬ (Update.constrain v candidate).Fails store := by
              rintro ⟨known, herror⟩
              rw [hok] at herror
              cases herror
            have hty : (store.update (.constrain v candidate)).tyOf v = joined := by
              rw [update, tyOf_constrain hok, if_pos rfl]
            rw [settles_cons fun hu => hfits hu.2, ih hrest.symm, hty, Ty.Least.cons_iff hjoined]
      · rw [List.filter_cons_of_neg (by simpa using htarget)] at h
        rw [settles_cons_of_ne htarget, ih h, tyOf_update_of_ne htarget]

/-- The updates of a variable are its registration, and then constraints. -/
def RegistersOnce (v : VarId) (ty : Ty) (tys : List Ty) (updates : List Update) : Prop :=
  updates.filter (·.target = v) = .register v ty :: tys.map (.constrain v)

theorem RegistersOnce.settles_iff {seed : Ty} {tys : List Ty}
    (h : RegistersOnce v seed tys updates) :
    store.Settles v updates ty ↔ Ty.Least seed tys ty := by
  unfold RegistersOnce at h
  induction updates generalizing store with
  | nil => cases h
  | cons u updates ih =>
      by_cases htarget : u.target = v
      · rw [List.filter_cons_of_pos (by simpa using htarget)] at h
        obtain ⟨rfl, hrest⟩ := List.cons.inj h
        have hfits : ¬ (Update.register v seed).Fails store := id
        rw [settles_cons fun hu => hfits hu.2, settles_iff_of_constrained hrest, update,
          tyOf_register, if_pos rfl]
      · rw [List.filter_cons_of_neg (by simpa using htarget)] at h
        rw [settles_cons_of_ne htarget, ih h]

theorem RegistersOnce.failsOn_iff {seed : Ty} {tys : List Ty}
    (h : RegistersOnce v seed tys updates) :
    store.FailsOn v updates ↔ ¬ BddAbove {x | x ∈ seed :: tys} := by
  rw [← Ty.Least.exists_iff]
  constructor
  · rintro hfails ⟨ty, hleast⟩
    exact (h.settles_iff.mpr hleast).1 hfails
  · intro hunbounded
    by_contra hfits
    exact hunbounded ⟨_, h.settles_iff.mp ⟨hfits, rfl⟩⟩

end TypeStore

theorem Lowering.constrainVariable_error {v : VarId} {ty : Ty} {line : Nat} {t : Table}
    {d : Diagnostic} (h : (constrainVariable v ty line t).result = .error d) :
    d = .conflict (.variable (t.varAt v).name) ⟨t.tyOf v, ty⟩ line ∧
      (constrainVariable v ty line t).table = t := by
  simp only [constrainVariable, ofTable, Table.constrainVariable_eq] at h ⊢
  cases hunify : (t.tyOf v).unify ty with
  | some unified => simp [hunify] at h
  | none =>
      simp only [hunify] at h ⊢
      exact ⟨(Except.error.inj h).symm, trivial⟩

/--
The order of constraints does not matter.  A list of types is unified with success if
it has an upper bound, the result is the least one, and no rearrangement changes that;
otherwise the conflict stands at the end of the shortest part without an upper bound.
What becomes of a variable of the type store depends only on the type that it was
registered with and on which types are constrained into it, how often each: not on
their order, nor on what happens to other variables in between.  A constraint that
fails reports what is known and changes nothing.
-/
theorem constraints_in_any_order :
    (∀ tys : List Ty,
      ((∃ ty, Ty.unifyAll tys = .ok ty) ↔ BddAbove {x | x ∈ tys}) ∧
      (∀ ty, Ty.unifyAll tys = .ok ty → IsLUB {x | x ∈ tys} ty) ∧
      (∀ tys' : List Ty, tys'.Perm tys →
        (Ty.unifyAll tys').toOption = (Ty.unifyAll tys).toOption) ∧
      ∀ conflict, Ty.unifyAll tys = .error conflict →
        ∃ before, before ++ [conflict.candidate] <+: tys ∧
          IsLUB {x | x ∈ before} conflict.existing ∧
          ¬ BddAbove {x | x ∈ before ++ [conflict.candidate]} ∧
          ∀ part, part <+: tys → ¬ BddAbove {x | x ∈ part} →
            before ++ [conflict.candidate] <+: part) ∧
    (∀ (store : TypeStore) (v : VarId) (seed : Ty) (tys : List Ty)
        (updates : List TypeStore.Update), TypeStore.RegistersOnce v seed tys updates →
      (store.FailsOn v updates ↔ ¬ BddAbove {x | x ∈ seed :: tys}) ∧
      (¬ store.FailsOn v updates →
        IsLUB {x | x ∈ seed :: tys} ((store.after updates).tyOf v)) ∧
      ∀ (store' : TypeStore) (v' : VarId) (tys' : List Ty) (updates' : List TypeStore.Update),
        TypeStore.RegistersOnce v' seed tys' updates' → tys'.Perm tys →
        (store'.FailsOn v' updates' ↔ store.FailsOn v updates) ∧
          (¬ store.FailsOn v updates →
            (store'.after updates').tyOf v' = (store.after updates).tyOf v)) ∧
    (∀ (store : TypeStore) (v : VarId) (ty known : Ty),
      (store.constrain v ty).1 = .error known →
        known = store.tyOf v ∧ (store.constrain v ty).2 = store) ∧
    ∀ (t : Table) (v : VarId) (ty : Ty) (line : Nat) (d : Diagnostic),
      (Lowering.constrainVariable v ty line t).result = .error d →
        d = .conflict (.variable (t.varAt v).name) ⟨t.tyOf v, ty⟩ line ∧
          (Lowering.constrainVariable v ty line t).table = t := by
  refine ⟨fun tys => ?_, fun store v seed tys updates h => ?_,
    fun _ _ _ _ => TypeStore.constrain_error, fun _ _ _ _ _ => Lowering.constrainVariable_error⟩
  · exact ⟨Ty.exists_unifyAll_iff, fun _ => Ty.unifyAll_eq_ok_iff.mp,
      fun _ => Ty.toOption_unifyAll_perm, fun _ => Ty.unifyAll_eq_error⟩
  · refine ⟨h.failsOn_iff, fun hfits => ?_, fun store' v' tys' updates' h' hperm => ⟨?_, ?_⟩⟩
    · exact Ty.Least.iff_isLUB.mp (h.settles_iff.mp ⟨hfits, rfl⟩)
    · simp only [h.failsOn_iff, h'.failsOn_iff, List.mem_cons, hperm.mem_iff]
    · intro hfits
      have hleast := h.settles_iff.mp ⟨hfits, rfl⟩
      exact (h'.settles_iff.mpr ((Ty.Least.perm hperm).mpr hleast)).2

theorem constraints_in_any_order_arrays :
    let x : VarId := ⟨0⟩
    let y : VarId := ⟨1⟩
    let updates : List TypeStore.Update :=
      [.register x .unknown, .constrain x (.array .unknown), .register y .unknown,
        .constrain y (.array .int), .constrain x (.array .int), .constrain y .unknown,
        .constrain x .unknown, .constrain y (.array .unknown)]
    let store : TypeStore := OrderedMap.empty
    let store' := store.after updates
    (¬ store.FailsOn x updates ∧ store'.tyOf x = .array .int ∧ store'.tyOf y = store'.tyOf x) ∧
      (store'.constrain x .string).2 = store' ∧
      ∃ before, before ++ [.string] <+: [.unknown, .int, .string, .double] ∧
        IsLUB {ty | ty ∈ before} Ty.int := by
  intro x y updates store store'
  obtain ⟨hlists, hstores, hfailing, -⟩ := constraints_in_any_order
  have hx : TypeStore.RegistersOnce x .unknown [.array .unknown, .array .int, .unknown] updates :=
    rfl
  have hy : TypeStore.RegistersOnce y .unknown [.array .int, .unknown, .array .unknown] updates :=
    rfl
  obtain ⟨hfails, -, hsame⟩ := hstores store x _ _ updates hx
  have hfits : ¬ store.FailsOn x updates := by
    rw [hfails, not_not]
    exact ⟨.array .int, by simp [upperBounds]⟩
  have htext : (store'.constrain x .string).1 = .error (store'.tyOf x) :=
    congrArg Prod.fst (TypeStore.constrain_eq_error (by decide))
  obtain ⟨before, hbefore, hlub, -⟩ :=
    (hlists [.unknown, .int, .string, .double]).2.2.2 ⟨.int, .string⟩ rfl
  exact ⟨⟨hfits, by decide, (hsame store y _ updates hy (by decide)).2 hfits⟩,
    (hfailing store' x .string _ htext).2, before, hbefore, hlub⟩

end TypedPseudocode
