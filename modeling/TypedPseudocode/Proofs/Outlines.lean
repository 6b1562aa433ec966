import Mathlib.Data.List.Nodup
import TypedPseudocode.Proofs.Passes

/-!
Places in outlines.

Places are given out one after another, so that from the first place of an outline
up to the next free one each belongs to one function: to a region if the function
has been gone through, and else to those that wait.  Around a region there are only
regions of the same outline, and what lies around the outline itself.
-/

namespace TypedPseudocode.Lowering

open Code TypedPseudocode.Tree
open scoped List

def placesFrom (first next : Nat) : List (Option ProcId) :=
  (List.range' first (next - first)).map fun i => some ⟨i⟩

theorem mem_placesFrom {first next : Nat} {p : ProcId} :
    some p ∈ placesFrom first next ↔ first ≤ p.index ∧ p.index < next := by
  simp only [placesFrom, List.mem_map, List.mem_range'_1, Option.some.injEq]
  constructor
  · rintro ⟨i, ⟨hfirst, hnext⟩, rfl⟩
    refine ⟨hfirst, ?_⟩
    change i < next
    omega
  · intro h
    exact ⟨p.index, ⟨h.1, by omega⟩, rfl⟩

theorem nodup_placesFrom (first next : Nat) : (placesFrom first next).Nodup := by
  refine List.Nodup.map (fun i j hij => ?_) List.nodup_range'
  simpa using hij

theorem placesFrom_append {first middle next : Nat} (h : first ≤ middle) (h' : middle ≤ next) :
    placesFrom first middle ++ placesFrom middle next = placesFrom first next := by
  obtain ⟨size, rfl⟩ := Nat.exists_eq_add_of_le h
  obtain ⟨more, rfl⟩ := Nat.exists_eq_add_of_le h'
  rw [placesFrom, placesFrom, placesFrom, ← List.map_append, Nat.add_sub_cancel_left,
    Nat.add_sub_cancel_left, Nat.add_assoc, Nat.add_sub_cancel_left, List.range'_append_1]

@[simp] theorem placesFrom_self (first : Nat) : placesFrom first first = [] := by
  simp [placesFrom]

theorem placesFrom_succ (first : Nat) : placesFrom first (first + 1) = [some ⟨first⟩] := by
  simp [placesFrom]

/-! ## Each place once -/

def filled (o : Outline) : List (Option ProcId) := o.regions.map (·.place)

def awaited (places : List (ProcId × String)) : List (Option ProcId) :=
  places.map fun place => some place.1

structure Covers (first : Nat) (o : Outline) : Prop where
  le : first ≤ o.next
  perm : filled o ++ awaited o.places ~ placesFrom first o.next

/-- Functions that waited have been gone through, and all inside of them. -/
structure Completed (first : Nat) (places : List (ProcId × String)) (o : Outline) : Prop where
  le : first ≤ o.next
  perm : filled o ~ awaited places ++ placesFrom first o.next

theorem Covers.append {first : Nat} {here there : Outline} (h : Covers first here)
    (h' : Covers here.next there) : Covers first (here.append there) := by
  refine ⟨Nat.le_trans h.le h'.le, ?_⟩
  calc filled (here.append there) ++ awaited (here.append there).places
      _ = filled here ++ (filled there ++ (awaited here.places ++ awaited there.places)) := by
        simp [filled, awaited, Outline.append]
      _ ~ filled here ++ (awaited here.places ++ (filled there ++ awaited there.places)) :=
        (List.perm_append_comm_assoc _ _ _).append_left _
      _ = (filled here ++ awaited here.places) ++ (filled there ++ awaited there.places) := by
        simp
      _ ~ placesFrom first here.next ++ placesFrom here.next there.next :=
        h.perm.append h'.perm
      _ = placesFrom first there.next := placesFrom_append h.le h'.le

theorem Covers.twice {first : Nat} {o : Outline}
    {second : List (ProcId × String) → Nat → Outline} (h : Covers first o)
    (h' : Completed o.next o.places (second o.places o.next)) : Covers first (o.twice second) := by
  refine ⟨Nat.le_trans h.le h'.le, ?_⟩
  calc filled (o.twice second) ++ awaited (o.twice second).places
      _ = filled o ++ filled (second o.places o.next) := by
        simp [filled, awaited, Outline.twice]
      _ ~ filled o ++ (awaited o.places ++ placesFrom o.next (second o.places o.next).next) :=
        h'.perm.append_left _
      _ = (filled o ++ awaited o.places) ++ placesFrom o.next (second o.places o.next).next := by
        simp
      _ ~ placesFrom first o.next ++ placesFrom o.next (second o.places o.next).next :=
        h.perm.append_right _
      _ = placesFrom first (second o.places o.next).next := placesFrom_append h.le h'.le

theorem Completed.cons {next : Nat} {inner others : Outline} {r : Region} {p : ProcId}
    {places : List (ProcId × String)} (hinner : Covers next inner) (hplaces : inner.places = [])
    (hr : r.place = some p) (hothers : Completed inner.next places others) (name : String) :
    Completed next ((p, name) :: places)
      ⟨inner.regions ++ r :: others.regions, [], others.next⟩ := by
  refine ⟨Nat.le_trans hinner.le hothers.le, ?_⟩
  have hinside : filled inner ~ placesFrom next inner.next := by
    simpa [hplaces, awaited] using hinner.perm
  calc filled ⟨inner.regions ++ r :: others.regions, [], others.next⟩
      _ = filled inner ++ some p :: filled others := by simp [filled, hr]
      _ ~ some p :: (filled inner ++ filled others) := List.perm_middle
      _ ~ some p :: (placesFrom next inner.next ++
            (awaited places ++ placesFrom inner.next others.next)) :=
        (hinside.append hothers.perm).cons _
      _ ~ some p :: (awaited places ++
            (placesFrom next inner.next ++ placesFrom inner.next others.next)) :=
        (List.perm_append_comm_assoc _ _ _).cons _
      _ = awaited ((p, name) :: places) ++ placesFrom next others.next := by
        rw [placesFrom_append hinner.le hothers.le]
        rfl

theorem covers_empty (first : Nat) : Covers first ⟨[], [], first⟩ :=
  ⟨Nat.le_refl _, by simp [filled, awaited]⟩

mutual

theorem covers_outline (s : Stmt) (around : List (Option ProcId)) (next : Nat) :
    Covers next (s.outline around next) := by
  cases s with
  | functionDef line name ps body decorators returns =>
      refine ⟨Nat.le_succ next, ?_⟩
      simp [Stmt.outline, filled, awaited, placesFrom_succ]
  | branch line test body orelse =>
      exact (Covers.twice (covers_outlineAll body around next)
        (completed_outlineBodies body around (Stmt.names_outlineAll _ _ _) _)).append
          (Covers.twice (covers_outlineAll orelse around _)
            (completed_outlineBodies orelse around (Stmt.names_outlineAll _ _ _) _))
  | whileLoop line test body orelse =>
      exact Covers.twice (covers_outlineAll body around next)
        (completed_outlineBodies body around (Stmt.names_outlineAll _ _ _) _)
  | forLoop line target iter body orelse =>
      exact Covers.twice (covers_outlineAll body around next)
        (completed_outlineBodies body around (Stmt.names_outlineAll _ _ _) _)
  | _ => exact covers_empty next

theorem covers_outlineAll (ss : List Stmt) (around : List (Option ProcId)) (next : Nat) :
    Covers next (Stmt.outlineAll around next ss) := by
  cases ss with
  | nil => exact covers_empty next
  | cons s ss => exact (covers_outline s around next).append (covers_outlineAll ss around _)

theorem completed_outlineBodies (ss : List Stmt) (around : List (Option ProcId))
    {places : List (ProcId × String)}
    (hnames : places.map Prod.snd = ss.filterMap Stmt.functionName?) (next : Nat) :
    Completed next places (Stmt.outlineBodies around ss places next) := by
  cases ss with
  | nil =>
      obtain rfl := List.map_eq_nil_iff.mp hnames
      exact ⟨Nat.le_refl _, by simp [Stmt.outlineBodies, filled, awaited]⟩
  | cons s ss =>
      cases s with
      | functionDef line name ps body decorators returns =>
          cases places with
          | nil => cases hnames
          | cons place places =>
              obtain ⟨p, declared⟩ := place
              obtain ⟨-, hothers⟩ := List.cons.inj hnames
              have hinner := Covers.twice (covers_outlineAll body (some p :: around) next)
                (completed_outlineBodies body (some p :: around) (Stmt.names_outlineAll _ _ _) _)
              exact .cons hinner rfl rfl (completed_outlineBodies ss around hothers _) declared
      | _ => exact completed_outlineBodies ss around hnames next

end

theorem covers_blockOutline (body : List Stmt) (around : List (Option ProcId)) (next : Nat) :
    Covers next (blockOutline body around next) :=
  (covers_outlineAll body around next).twice
    (completed_outlineBodies body around (Stmt.names_outlineAll _ _ _) _)

namespace Covers

variable {first : Nat} {o : Outline}

theorem nodup (h : Covers first o) : (filled o ++ awaited o.places).Nodup :=
  h.perm.nodup_iff.mpr (nodup_placesFrom first o.next)

theorem place_of_mem (h : Covers first o) {r : Region} (hr : r ∈ o.regions) :
    ∃ p, r.place = some p ∧ first ≤ p.index ∧ p.index < o.next := by
  have hmem : r.place ∈ placesFrom first o.next :=
    h.perm.subset (List.mem_append_left _ (List.mem_map_of_mem hr))
  obtain ⟨i, -, hi⟩ := List.mem_map.mp hmem
  rw [← hi] at hmem ⊢
  exact ⟨⟨i⟩, rfl, mem_placesFrom.mp hmem⟩

theorem index_of_mem (h : Covers first o) {place : ProcId × String} (hplace : place ∈ o.places) :
    first ≤ place.1.index ∧ place.1.index < o.next :=
  mem_placesFrom.mp (h.perm.subset (List.mem_append_right _
    (List.mem_map_of_mem (f := fun place => some place.1) hplace)))

theorem place_ne (h : Covers first o) {r : Region} (hr : r ∈ o.regions) {place : ProcId × String}
    (hplace : place ∈ o.places) : r.place ≠ some place.1 :=
  (List.nodup_append.mp h.nodup).2.2 _ (List.mem_map_of_mem hr) _
    (List.mem_map_of_mem (f := fun place => some place.1) hplace)

theorem nodup_places (h : Covers first o) : (o.places.map Prod.fst).Nodup := by
  have hawaited : ((o.places.map Prod.fst).map some).Nodup := by
    rw [List.map_map]
    exact (List.nodup_append.mp h.nodup).2.1
  exact hawaited.of_map

end Covers

/-! ## Lists in parts -/

theorem outlineAll_append (around : List (Option ProcId)) (next : Nat) (before after : List Stmt) :
    Stmt.outlineAll around next (before ++ after) =
      (Stmt.outlineAll around next before).append
        (Stmt.outlineAll around (Stmt.outlineAll around next before).next after) := by
  induction before generalizing next with
  | nil => rfl
  | cons s before ih =>
      simp only [List.cons_append, Stmt.outlineAll, ih]
      simp [Outline.append]

theorem regions_outlineBodies_append (around : List (Option ProcId)) {before : List Stmt}
    {places : List (ProcId × String)}
    (hnames : places.map Prod.snd = before.filterMap Stmt.functionName?) (next : Nat)
    (after : List Stmt) (others : List (ProcId × String)) :
    (Stmt.outlineBodies around (before ++ after) (places ++ others) next).regions =
      (Stmt.outlineBodies around before places next).regions ++
        (Stmt.outlineBodies around after others
          (Stmt.outlineBodies around before places next).next).regions := by
  induction before generalizing places next with
  | nil =>
      obtain rfl := List.map_eq_nil_iff.mp hnames
      simp [Stmt.outlineBodies]
  | cons s before ih =>
      cases s with
      | functionDef line name ps body decorators returns =>
          cases places with
          | nil => cases hnames
          | cons place places =>
              obtain ⟨-, hothers⟩ := List.cons.inj hnames
              simp [Stmt.outlineBodies, ih hothers]
      | _ => exact ih hnames next

/-! ## What lies around a region -/

/-- Around the regions of an outline there are only such regions, and what is around all. -/
def Nests (around : List (Option ProcId)) (regions : List Region) : Prop :=
  ∀ r ∈ regions, ∀ q ∈ r.lineage, q ∈ regions.map (·.place) ∨ q ∈ around

theorem Nests.append {around : List (Option ProcId)} {here there : List Region}
    (h : Nests around here) (h' : Nests around there) : Nests around (here ++ there) := by
  intro r hr q hq
  rw [List.map_append, List.mem_append, or_assoc]
  rcases List.mem_append.mp hr with hr | hr
  · exact (h r hr q hq).imp_right .inr
  · exact .inr (h' r hr q hq)

theorem Nests.cons {around : List (Option ProcId)} {inner others : List Region} {p : ProcId}
    {name : Option String} {parameters : List Parameter} {body : List Stmt}
    (h : Nests (some p :: around) inner) (h' : Nests around others) :
    Nests around (inner ++ ⟨some p, around, name, parameters, body⟩ :: others) := by
  intro r hr q hq
  have hself : some p ∈
      (inner ++ ⟨some p, around, name, parameters, body⟩ :: others).map Region.place := by
    simp
  rcases List.mem_append.mp hr with hr | hr
  · rcases h r hr q hq with hinner | haround
    · exact .inl (by simp [List.mem_map.mp hinner])
    · rcases List.mem_cons.mp haround with rfl | haround
      · exact .inl hself
      · exact .inr haround
  · rcases List.mem_cons.mp hr with rfl | hr
    · rcases List.mem_cons.mp hq with rfl | hq
      · exact .inl hself
      · exact .inr hq
    · exact (h' r hr q hq).imp_left fun hothers => by simp [List.mem_map.mp hothers]

theorem nests_nil (around : List (Option ProcId)) : Nests around [] :=
  fun _ hr => absurd hr List.not_mem_nil

mutual

theorem nests_outline (s : Stmt) (around : List (Option ProcId)) (next : Nat) :
    Nests around (s.outline around next).regions := by
  cases s with
  | branch line test body orelse =>
      refine .append ?_ ?_
      · exact (nests_outlineAll body around next).append (nests_outlineBodies body around _ _)
      · exact (nests_outlineAll orelse around _).append (nests_outlineBodies orelse around _ _)
  | whileLoop line test body orelse =>
      exact (nests_outlineAll body around next).append (nests_outlineBodies body around _ _)
  | forLoop line target iter body orelse =>
      exact (nests_outlineAll body around next).append (nests_outlineBodies body around _ _)
  | _ => exact nests_nil around

theorem nests_outlineAll (ss : List Stmt) (around : List (Option ProcId)) (next : Nat) :
    Nests around (Stmt.outlineAll around next ss).regions := by
  cases ss with
  | nil => exact nests_nil around
  | cons s ss => exact (nests_outline s around next).append (nests_outlineAll ss around _)

theorem nests_outlineBodies (ss : List Stmt) (around : List (Option ProcId))
    (places : List (ProcId × String)) (next : Nat) :
    Nests around (Stmt.outlineBodies around ss places next).regions := by
  cases ss with
  | nil => exact nests_nil around
  | cons s ss =>
      cases s with
      | functionDef line name ps body decorators returns =>
          cases places with
          | nil => exact nests_outlineBodies ss around [] next
          | cons place places =>
              exact .cons ((nests_outlineAll body _ next).append (nests_outlineBodies body _ _ _))
                (nests_outlineBodies ss around places _)
      | _ => exact nests_outlineBodies ss around places next

end

end TypedPseudocode.Lowering
