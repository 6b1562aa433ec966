import TypedPseudocode.Proofs.Views

/-!
Chronology: what code mentions before it declares a variable.

Code is read in the order of its text: each statement with its own operands, then
the statements inside it.  A variable is declared first if a single statement
declares it and every statement that assigns or reads it comes later.  Handles are
numbered as variables are declared; it is therefore enough that only smaller handles
are mentioned before the declaration of a larger one, and code that is in this order
can be put together from code that is.
-/

namespace TypedPseudocode.Code

variable {D V P T D' V' P' T' : Type}

def Statement.used (s : Statement D V P T) : List V :=
  s.assigned?.toList ++ s.array?.toList ++ Expression.reads s.operands

def Statement.mentioned (key : D → V) (s : Statement D V P T) : List V :=
  (s.declaration?.map key).toList ++ s.used

/--
One statement declares the variable, no other does, and all that assign or read it
come after it.
-/
def DeclaredFirst (key : D → V) (code : List (Statement D V P T)) (v : V) : Prop :=
  ∃ i : Nat, (∃ d, (Statement.partsAll code)[i]? = some (.declare d) ∧ key d = v) ∧
    (∀ (j : Nat) (d : D),
      (Statement.partsAll code)[j]? = some (.declare d) → key d = v → j = i) ∧
    ∀ (j : Nat) (s : Statement D V P T),
      (Statement.partsAll code)[j]? = some s → v ∈ s.used → i < j

/-! ## Replaced references -/

section Map

variable (d : D → D') (f : V → V') (g : P → P') (h : T → T')

theorem Statement.used_map (s : Statement D V P T) : (s.map d f g h).used = s.used.map f := by
  simp only [Statement.used, Statement.operands_map, Expression.reads_mapAll, List.map_append]
  cases s <;> rfl

theorem Statement.map_eq_declare {s : Statement D V P T} {x' : D'}
    (hs : s.map d f g h = .declare x') : ∃ x, s = .declare x ∧ d x = x' := by
  cases s with
  | declare x =>
      cases hs
      exact ⟨x, rfl, rfl⟩
  | _ => cases hs

theorem DeclaredFirst.mapAll {key : D → V} {key' : D' → V'} {code : List (Statement D V P T)}
    {v : V} (hv : DeclaredFirst key code v) (hkey : ∀ x, key' (d x) = f (key x))
    (hapart : ∀ s ∈ Statement.partsAll code, ∀ w ∈ s.mentioned key, f w = f v → w = v) :
    DeclaredFirst key' (Statement.mapAll d f g h code) (f v) := by
  obtain ⟨i, ⟨x, hx, rfl⟩, honce, hfirst⟩ := hv
  refine ⟨i, ⟨d x, ?_, hkey x⟩, fun j x' hj hx' => ?_, fun j s' hj hs' => ?_⟩
  · rw [Statement.partsAll_mapAll, List.getElem?_map, hx]
    rfl
  · rw [Statement.partsAll_mapAll, List.getElem?_map] at hj
    obtain ⟨s, hs, hmap⟩ := Option.map_eq_some_iff.mp hj
    obtain ⟨y, rfl, rfl⟩ := Statement.map_eq_declare d f g h hmap
    refine honce j y hs (hapart _ (List.mem_of_getElem? hs) _ ?_ (hkey y ▸ hx'))
    simp [Statement.mentioned, Statement.declaration?]
  · rw [Statement.partsAll_mapAll, List.getElem?_map] at hj
    obtain ⟨s, hs, rfl⟩ := Option.map_eq_some_iff.mp hj
    rw [Statement.used_map] at hs'
    obtain ⟨w, hw, hfw⟩ := List.mem_map.mp hs'
    have hmentioned : w ∈ s.mentioned key := List.mem_append_right _ hw
    exact hfirst j s hs (hapart s (List.mem_of_getElem? hs) w hmentioned hfw ▸ hw)

end Map

/-! ## Code in order -/

def MayPrecede (s s' : TypedStatement) : Prop :=
  ∀ w, s'.declaration? = some w → ∀ v ∈ s.mentioned id, v.index < w.index

/--
Code that was made while the number of variables went from `low` to `high`: what it
declares is new, what it mentions exists by then, and nothing is mentioned too early.
-/
structure Orderly (low high : Nat) (code : List TypedStatement) : Prop where
  le : low ≤ high
  fresh : ∀ s ∈ Statement.partsAll code, ∀ w, s.declaration? = some w → low ≤ w.index
  below : ∀ s ∈ Statement.partsAll code, ∀ v ∈ s.mentioned id, v.index < high
  ordered : (Statement.partsAll code).Pairwise MayPrecede

namespace Orderly

variable {low middle high : Nat} {code code' : List TypedStatement}

theorem nil (h : low ≤ high) : Orderly low high [] where
  le := h
  fresh _ hs := absurd hs List.not_mem_nil
  below _ hs := absurd hs List.not_mem_nil
  ordered := List.Pairwise.nil

theorem mono (h : Orderly middle high code) (hle : low ≤ middle) {higher : Nat}
    (hle' : high ≤ higher) : Orderly low higher code where
  le := Nat.le_trans hle (Nat.le_trans h.le hle')
  fresh s hs w hw := Nat.le_trans hle (h.fresh s hs w hw)
  below s hs v hv := Nat.lt_of_lt_of_le (h.below s hs v hv) hle'
  ordered := h.ordered

theorem append (h : Orderly low middle code) (h' : Orderly middle high code') :
    Orderly low high (code ++ code') := by
  refine ⟨Nat.le_trans h.le h'.le, ?_, ?_, ?_⟩
  all_goals rw [Statement.partsAll_append]
  · intro s hs w hw
    rcases List.mem_append.mp hs with hs | hs
    · exact h.fresh s hs w hw
    · exact Nat.le_trans h.le (h'.fresh s hs w hw)
  · intro s hs v hv
    rcases List.mem_append.mp hs with hs | hs
    · exact Nat.lt_of_lt_of_le (h.below s hs v hv) h'.le
    · exact h'.below s hs v hv
  · refine List.pairwise_append.mpr ⟨h.ordered, h'.ordered, fun s hs s' hs' w hw v hv => ?_⟩
    exact Nat.lt_of_lt_of_le (h.below s hs v hv) (h'.fresh s' hs' w hw)

theorem statement {s : TypedStatement} (hs : s.declaration? = none)
    (hused : ∀ v ∈ s.used, v.index < low) (hinner : Orderly low high s.inner) :
    Orderly low high [s] := by
  have hmentioned : s.mentioned id = s.used := by
    simp [Statement.mentioned, hs]
  have hparts : Statement.partsAll [s] = s :: Statement.partsAll s.inner := by
    rw [Statement.partsAll_cons]
    simp [Statement.partsAll]
  refine ⟨hinner.le, ?_, ?_, ?_⟩
  all_goals rw [hparts]
  · intro s' hs' w hw
    rcases List.mem_cons.mp hs' with rfl | hs'
    · rw [hs] at hw
      cases hw
    · exact hinner.fresh s' hs' w hw
  · intro s' hs' v hv
    rcases List.mem_cons.mp hs' with rfl | hs'
    · exact Nat.lt_of_lt_of_le (hused v (hmentioned ▸ hv)) hinner.le
    · exact hinner.below s' hs' v hv
  · refine List.Pairwise.cons (fun s' hs' w hw v hv => ?_) hinner.ordered
    exact Nat.lt_of_lt_of_le (hused v (hmentioned ▸ hv)) (hinner.fresh s' hs' w hw)

theorem declare (n : Nat) : Orderly n (n + 1) [.declare ⟨n⟩] where
  le := Nat.le_succ n
  fresh s hs w hw := by
    obtain rfl := List.mem_singleton.mp hs
    cases hw
    exact Nat.le_refl n
  below s hs v hv := by
    obtain rfl := List.mem_singleton.mp hs
    obtain rfl := List.mem_singleton.mp hv
    exact Nat.lt_succ_self n
  ordered := List.pairwise_singleton _ _

theorem declaredFirst (h : Orderly low high code) {v : VarId} (hv : v ∈ declared code) :
    DeclaredFirst id code v := by
  obtain ⟨s, hs, hdeclaration⟩ := List.mem_filterMap.mp hv
  obtain ⟨i, hi⟩ := List.mem_iff_getElem?.mp hs
  have hdeclare : s = .declare v := by
    cases s with
    | declare w =>
        cases hdeclaration
        rfl
    | _ => cases hdeclaration
  subst hdeclare
  have hself : v ∈ (Statement.declare v : TypedStatement).mentioned id := by
    simp [Statement.mentioned, Statement.declaration?]
  -- Nothing that mentions the variable stands before a statement that declares it.
  have hnever {j k : Nat} {s : TypedStatement} (hj : (Statement.partsAll code)[j]? = some s)
      (hk : (Statement.partsAll code)[k]? = some (.declare v)) (hs : v ∈ s.mentioned id) :
      ¬ j < k := by
    intro hjk
    obtain ⟨hlj, rfl⟩ := List.getElem?_eq_some_iff.mp hj
    obtain ⟨hlk, hk⟩ := List.getElem?_eq_some_iff.mp hk
    have hprecede := List.pairwise_iff_getElem.mp h.ordered j k hlj hlk hjk
    rw [hk] at hprecede
    exact Nat.lt_irrefl _ (hprecede v rfl v hs)
  refine ⟨i, ⟨v, hi, rfl⟩, fun j w hj hw => ?_, fun j s hj hused => ?_⟩
  · subst hw
    exact Nat.le_antisymm (Nat.not_lt.mp (hnever hi hj hself)) (Nat.not_lt.mp (hnever hj hi hself))
  · have hle := Nat.not_lt.mp (hnever hj hi (List.mem_append_right _ hused))
    refine Nat.lt_of_le_of_ne hle fun heq => ?_
    rw [← heq, hi] at hj
    cases hj
    cases hused

end Orderly

end TypedPseudocode.Code
