/-!
Maps that remember the order in which their keys first arrived.

An entry that is written again keeps its place and takes the new value, so the
entries read from left to right are the history of first arrivals.  Keys are
pairwise distinct by construction, hence two maps are equal exactly when they
list the same entries in the same order.
-/

namespace TypedPseudocode

structure OrderedMap (κ α : Type) where
  entries : List (κ × α)
  nodup : (entries.map Prod.fst).Nodup

namespace OrderedMap

variable {κ α : Type}

@[ext] theorem ext {m n : OrderedMap κ α} (h : m.entries = n.entries) : m = n := by
  cases m
  cases n
  subst h
  rfl

instance [DecidableEq κ] [DecidableEq α] : DecidableEq (OrderedMap κ α) :=
  fun m n => decidable_of_iff (m.entries = n.entries) ⟨ext, fun h => h ▸ rfl⟩

def empty : OrderedMap κ α := ⟨[], List.nodup_nil⟩

instance : EmptyCollection (OrderedMap κ α) := ⟨empty⟩

instance : Inhabited (OrderedMap κ α) := ⟨empty⟩

def keys (m : OrderedMap κ α) : List κ := m.entries.map Prod.fst

def size (m : OrderedMap κ α) : Nat := m.entries.length

def isEmpty (m : OrderedMap κ α) : Bool := m.entries.isEmpty

variable [DecidableEq κ]

/-! ## Entry lists -/

def find (key : κ) : List (κ × α) → Option α
  | [] => none
  | (k, value) :: rest => if k = key then some value else find key rest

/-- Overwrite the entry of `key` where it stands, or append a new one. -/
def put (key : κ) (value : α) : List (κ × α) → List (κ × α)
  | [] => [(key, value)]
  | (k, old) :: rest =>
      if k = key then (k, value) :: rest else (k, old) :: put key value rest

theorem keys_put (key : κ) (value : α) (entries : List (κ × α)) :
    (put key value entries).map Prod.fst =
      if key ∈ entries.map Prod.fst then entries.map Prod.fst
      else entries.map Prod.fst ++ [key] := by
  induction entries with
  | nil => simp [put]
  | cons entry rest ih =>
      obtain ⟨k, old⟩ := entry
      by_cases h : k = key
      · simp [put, h]
      · have h' : ¬ key = k := fun e => h e.symm
        simp only [put, h, ↓reduceIte, List.map_cons, ih, List.mem_cons, h', false_or]
        split <;> rfl

theorem put_of_not_mem {key : κ} (value : α) {entries : List (κ × α)}
    (h : key ∉ entries.map Prod.fst) : put key value entries = entries ++ [(key, value)] := by
  induction entries with
  | nil => rfl
  | cons entry rest ih =>
      obtain ⟨k, old⟩ := entry
      simp only [List.map_cons, List.mem_cons, not_or] at h
      have hk : ¬ k = key := fun e => h.1 e.symm
      simp only [put, hk, ↓reduceIte, ih h.2, List.cons_append]

theorem nodup_put (key : κ) (value : α) {entries : List (κ × α)}
    (h : (entries.map Prod.fst).Nodup) :
    ((put key value entries).map Prod.fst).Nodup := by
  rw [keys_put]
  split
  · exact h
  · rename_i hkey
    refine List.nodup_append.mpr ⟨h, by simp, ?_⟩
    intro a ha b hb hab
    simp only [List.mem_singleton] at hb
    exact hkey (hb ▸ hab ▸ ha)

theorem find_put (key other : κ) (value : α) (entries : List (κ × α)) :
    find other (put key value entries) =
      if key = other then some value else find other entries := by
  induction entries with
  | nil => simp [put, find]
  | cons entry rest ih =>
      obtain ⟨k, old⟩ := entry
      by_cases h : k = key
      · subst h
        by_cases hk : k = other <;> simp [put, find, hk]
      · by_cases hk : k = other
        · subst hk
          have h' : ¬ key = k := fun e => h e.symm
          simp [put, find, h, h']
        · simp [put, find, h, hk, ih]

theorem find_isSome_iff (key : κ) (entries : List (κ × α)) :
    (find key entries).isSome ↔ key ∈ entries.map Prod.fst := by
  induction entries with
  | nil => simp [find]
  | cons entry rest ih =>
      obtain ⟨k, value⟩ := entry
      by_cases h : k = key
      · simp [find, h]
      · have h' : ¬ key = k := fun e => h e.symm
        simp only [find, h, ↓reduceIte, ih, List.map_cons, List.mem_cons, h', false_or]

/-! ## Maps -/

def get? (m : OrderedMap κ α) (key : κ) : Option α := find key m.entries

def contains (m : OrderedMap κ α) (key : κ) : Bool := (m.get? key).isSome

def insert (m : OrderedMap κ α) (key : κ) (value : α) : OrderedMap κ α :=
  ⟨put key value m.entries, nodup_put key value m.nodup⟩

def ofList (entries : List (κ × α)) : OrderedMap κ α :=
  entries.foldl (fun m entry => m.insert entry.1 entry.2) empty

@[simp] theorem get?_empty (key : κ) : (empty : OrderedMap κ α).get? key = none := rfl

theorem get?_insert (m : OrderedMap κ α) (key other : κ) (value : α) :
    (m.insert key value).get? other = if key = other then some value else m.get? other :=
  find_put key other value m.entries

@[simp] theorem get?_insert_self (m : OrderedMap κ α) (key : κ) (value : α) :
    (m.insert key value).get? key = some value := by
  simp [get?_insert]

theorem contains_iff_mem_keys (m : OrderedMap κ α) (key : κ) :
    m.contains key ↔ key ∈ m.keys :=
  find_isSome_iff key m.entries

theorem keys_insert_of_mem {m : OrderedMap κ α} {key : κ} (value : α) (h : key ∈ m.keys) :
    (m.insert key value).keys = m.keys := by
  have h' : key ∈ m.entries.map Prod.fst := h
  simp [keys, insert, keys_put, h']

theorem entries_insert_of_not_mem {m : OrderedMap κ α} {key : κ} (value : α)
    (h : key ∉ m.keys) : (m.insert key value).entries = m.entries ++ [(key, value)] :=
  put_of_not_mem value h

end OrderedMap

end TypedPseudocode
