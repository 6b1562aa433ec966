import Mathlib.Order.Bounds.Basic
import TypedPseudocode.Ty

/-!
Types in the order of information.

`Below` is a partial order with `unknown` at the bottom.  Where two types have
a common upper bound, `unify` gives the least one, so that lying above a unified
type is lying above both of its parts.
-/

namespace TypedPseudocode.Ty

theorem Below.trans {a b c : Ty} (hab : Below a b) (hbc : Below b c) : Below a c := by
  induction hab generalizing c with
  | unknown => exact .unknown c
  | refl => exact hbc
  | array h ih =>
      cases hbc with
      | refl => exact .array h
      | array h' => exact .array (ih h')

theorem Below.antisymm {a b : Ty} (hab : Below a b) (hba : Below b a) : a = b := by
  induction hab with
  | unknown =>
      cases hba <;> rfl
  | refl => rfl
  | array h ih =>
      cases hba with
      | refl => rfl
      | array h' => rw [ih h']

instance : PartialOrder Ty where
  le := Below
  le_refl := .refl
  le_trans _ _ _ := .trans
  le_antisymm _ _ := Below.antisymm

@[simp] theorem unknown_le (a : Ty) : Ty.unknown ≤ a := Below.unknown a

theorem array_le_iff {a u : Ty} : Ty.array a ≤ u ↔ ∃ b, u = .array b ∧ a ≤ b := by
  constructor
  · intro h
    cases h with
    | refl => exact ⟨a, rfl, le_refl a⟩
    | array h => exact ⟨_, rfl, h⟩
  · rintro ⟨b, rfl, h⟩
    exact Below.array h

@[simp] theorem array_le_array {a b : Ty} : Ty.array a ≤ Ty.array b ↔ a ≤ b := by
  simp [array_le_iff]

theorem unify_le_iff {a b c : Ty} (h : unify a b = some c) (u : Ty) :
    c ≤ u ↔ a ≤ u ∧ b ≤ u := by
  fun_induction unify a b generalizing c u with
  | case1 b =>
      cases h
      simp
  | case2 a =>
      cases h
      simp
  | case3 a b ih =>
      obtain ⟨d, hd, rfl⟩ := Option.map_eq_some_iff.mp h
      simp only [array_le_iff]
      constructor
      · rintro ⟨e, rfl, hde⟩
        obtain ⟨ha, hb⟩ := (ih hd e).mp hde
        exact ⟨⟨e, rfl, ha⟩, ⟨e, rfl, hb⟩⟩
      · rintro ⟨⟨e, rfl, ha⟩, ⟨e', he', hb⟩⟩
        cases he'
        exact ⟨e, rfl, (ih hd e).mpr ⟨ha, hb⟩⟩
  | case4 a =>
      cases h
      simp
  | case5 => cases h

theorem exists_unify_of_le {a b u : Ty} (ha : a ≤ u) (hb : b ≤ u) : ∃ c, unify a b = some c := by
  fun_induction unify a b generalizing u with
  | case1 b => exact ⟨b, rfl⟩
  | case2 a => exact ⟨a, rfl⟩
  | case3 a b ih =>
      obtain ⟨d, rfl, hd⟩ := array_le_iff.mp ha
      obtain ⟨c, hc⟩ := ih hd (array_le_array.mp hb)
      exact ⟨.array c, by simp [hc]⟩
  | case4 a => exact ⟨a, rfl⟩
  | case5 a b hunknown hunknown' harray hne =>
      refine absurd ?_ hne
      cases ha with
      | unknown => exact absurd rfl hunknown
      | refl =>
          cases hb with
          | unknown => exact absurd rfl hunknown'
          | refl => rfl
          | array => exact absurd rfl (harray _ _ rfl)
      | array =>
          cases hb with
          | unknown => exact absurd rfl hunknown'
          | refl => exact absurd rfl (harray _ _ rfl)
          | array => exact absurd rfl (harray _ _ rfl)

/-! ## Least types above lists -/

/-- `ty` is the least type above `known` and above all of `tys`. -/
def Least (known : Ty) (tys : List Ty) (ty : Ty) : Prop :=
  ∀ u, ty ≤ u ↔ known ≤ u ∧ ∀ x ∈ tys, x ≤ u

namespace Least

variable {known ty ty' : Ty} {tys tys' : List Ty}

theorem nil (known : Ty) : Least known [] known := by
  simp [Least]

theorem singleton (ty : Ty) : Least .unknown [ty] ty := by
  simp [Least]

theorem unique (h : Least known tys ty) (h' : Least known tys ty') : ty = ty' :=
  le_antisymm ((h ty').mpr ((h' ty').mp (le_refl ty'))) ((h' ty).mpr ((h ty).mp (le_refl ty)))

theorem exists_of_le {u : Ty} (hknown : known ≤ u) (htys : ∀ x ∈ tys, x ≤ u) :
    ∃ ty, Least known tys ty := by
  induction tys generalizing known with
  | nil => exact ⟨known, nil known⟩
  | cons x xs ih =>
      obtain ⟨joined, hjoined⟩ := exists_unify_of_le hknown (htys x List.mem_cons_self)
      have hbound := unify_le_iff hjoined
      obtain ⟨ty, hty⟩ := ih ((hbound u).mpr ⟨hknown, htys x List.mem_cons_self⟩)
        fun y hy => htys y (List.mem_cons_of_mem x hy)
      refine ⟨ty, fun v => ?_⟩
      rw [hty v, hbound v, List.forall_mem_cons, and_assoc]

theorem unify_iff (h : Least .unknown tys ty) {joined : Ty} :
    known.unify ty = some joined ↔ Least known tys joined := by
  have hty (u : Ty) : ty ≤ u ↔ ∀ x ∈ tys, x ≤ u := by
    simpa using h u
  constructor
  · intro hunify u
    rw [unify_le_iff hunify u, hty]
  · intro hjoined
    obtain ⟨hknown, htys⟩ := (hjoined joined).mp (le_refl joined)
    obtain ⟨other, hother⟩ := exists_unify_of_le hknown ((hty joined).mpr htys)
    have hsame : Least known tys other := by
      intro u
      rw [unify_le_iff hother u, hty]
    rw [hother, hsame.unique hjoined]

theorem append_iff : Least known (tys ++ tys') ty ↔
    ∃ joined, Least known tys joined ∧ Least joined tys' ty := by
  constructor
  · intro h
    have hbound := (h ty).mp (le_refl ty)
    simp only [List.forall_mem_append] at hbound
    obtain ⟨joined, hjoined⟩ := exists_of_le hbound.1 hbound.2.1
    refine ⟨joined, hjoined, fun u => ?_⟩
    rw [h u, hjoined u, List.forall_mem_append, and_assoc]
  · rintro ⟨joined, hjoined, hty⟩ u
    rw [hty u, hjoined u, List.forall_mem_append, and_assoc]

theorem isLUB (h : Least known tys ty) : IsLUB (insert known {x | x ∈ tys}) ty := by
  rw [isLUB_iff_le_iff]
  intro u
  simp [h u, upperBounds]

end Least

end TypedPseudocode.Ty
