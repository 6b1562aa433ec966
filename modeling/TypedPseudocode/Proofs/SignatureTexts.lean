import TypedPseudocode.Proofs.JsonTexts
import TypedPseudocode.Proofs.Outcomes
import TypedPseudocode.Proofs.TypeNames
import TypedPseudocode.Signature.Json

/-!
Signature tables survive their text.

A table is written with its entries in order, and reading writes the entries into an
empty table one after the other.  Since no name comes twice, every entry finds its
place at the end, and the table that arises is the one that was written.
-/

namespace TypedPseudocode

/-! ## Maps from their entries -/

namespace OrderedMap

variable {κ α : Type} [DecidableEq κ]

theorem put_of_getElem? {key : κ} {old : α} (value : α) {entries : List (κ × α)} {i : Nat}
    (hnodup : (entries.map Prod.fst).Nodup) (h : entries[i]? = some (key, old)) :
    put key value entries = entries.set i (key, value) := by
  induction entries generalizing i with
  | nil => simp at h
  | cons entry rest ih =>
      obtain ⟨k, first⟩ := entry
      cases i with
      | zero =>
          obtain ⟨rfl, rfl⟩ : k = key ∧ first = old := by simpa using h
          simp [put]
      | succ i =>
          have hrest : rest[i]? = some (key, old) := by simpa using h
          obtain ⟨hk, hnodup⟩ := List.nodup_cons.mp (by simpa only [List.map_cons] using hnodup)
          have hne : k ≠ key := by
            rintro rfl
            exact hk (List.mem_map.mpr ⟨_, List.mem_of_getElem? hrest, rfl⟩)
          simp [put, hne, ih hnodup hrest]

theorem entries_foldl_insert (m : OrderedMap κ α) {entries : List (κ × α)}
    (h : ((m.entries ++ entries).map Prod.fst).Nodup) :
    (entries.foldl (fun m entry => m.insert entry.1 entry.2) m).entries = m.entries ++ entries := by
  induction entries generalizing m with
  | nil => simp
  | cons entry entries ih =>
      obtain ⟨key, value⟩ := entry
      have hnew : key ∉ m.keys := by
        rw [List.map_append] at h
        intro hkey
        exact (List.nodup_append.mp h).2.2 key hkey key (by simp) rfl
      have hinsert := entries_insert_of_not_mem value hnew
      rw [List.foldl_cons, ih, hinsert, List.append_assoc, List.singleton_append]
      rwa [hinsert, List.append_assoc, List.singleton_append]

theorem ofList_entries (m : OrderedMap κ α) : ofList m.entries = m := by
  apply ext
  rw [ofList, entries_foldl_insert]
  · rfl
  · exact m.nodup

end OrderedMap

/-! ## Values -/

theorem Json.mapM_map_eq_some {α β : Type} {write : α → β} {read : β → Option α}
    (h : ∀ a, read (write a) = some a) (as : List α) : (as.map write).mapM read = some as := by
  have hread : read ∘ write = fun a => Pure.pure a := funext h
  rw [List.mapM_map, hread, List.mapM_pure, List.map_id']
  rfl

theorem Ty.ofJson?_toJson (ty : Ty) : Ty.ofJson? ty.toJson = some ty := by
  simp only [Ty.toJson, Ty.ofJson?, Ty.ofName_name]
  rfl

namespace Signature

theorem Argument.ofJson?_toJson (a : Argument) : Argument.ofJson? a.toJson = some a := by
  obtain ⟨_ | name, ty⟩ := a <;>
    simp [Argument.toJson, Argument.ofJson?, Json.membersOf?, Json.defaulted, Json.required,
      Json.valuesOf, Json.nullable?, Json.text?, Ty.ofJson?_toJson]

theorem ofJson?_toJson (s : Signature) : ofJson? s.toJson = some s := by
  have harguments := Json.mapM_map_eq_some Argument.ofJson?_toJson s.arguments
  simp [toJson, ofJson?, Json.membersOf?, Json.defaulted, Json.valuesOf, Json.list?,
    Ty.ofJson?_toJson, harguments]

end Signature

theorem SignatureTable.ofJson?_toJson (table : SignatureTable) :
    SignatureTable.ofJson? (SignatureTable.toJson table) = some table := by
  have hentries : (table.entries.map fun entry => (entry.1, entry.2.toJson)).mapM
      (fun member => (Signature.ofJson? member.2).map fun signature => (member.1, signature)) =
        some table.entries :=
    Json.mapM_map_eq_some (fun entry => by simp [Signature.ofJson?_toJson]) table.entries
  simp [SignatureTable.toJson, SignatureTable.ofJson?, hentries, OrderedMap.ofList_entries]

/-! ## Texts -/

namespace Signature

theorem Argument.textual_toJson (a : Argument) : a.toJson.Textual := by
  obtain ⟨_ | name, ty⟩ := a
  · exact .obj (by simp [Ty.toJson, Json.Textual.str])
  · exact .obj (by simp [Ty.toJson, Json.Textual.str])

theorem Argument.prune_toJson (a : Argument) :
    a.toJson.draft.prune .kept (.plain Argument.fields) = a.toJson.draft := by
  obtain ⟨_ | name, ty⟩ := a <;> rfl

theorem Argument.nestsWithin_toJson (a : Argument) (n : Nat) :
    a.toJson.draft.nestsWithin (n + 1) := by
  obtain ⟨_ | name, ty⟩ := a <;> rfl

theorem textual_toJson (s : Signature) : s.toJson.Textual := by
  have harguments : (Json.arr (s.arguments.map Argument.toJson)).Textual :=
    .arr (List.forall_mem_map.mpr fun a _ => a.textual_toJson)
  exact .obj (by simp [Ty.toJson, Json.Textual.str, harguments])

theorem prune_toJson (s : Signature) : s.toJson.draft.prune .kept shape = s.toJson.draft := by
  have harguments := Json.pruneEach_draftElements
    (List.forall_mem_map.mpr fun (a : Argument) (_ : a ∈ s.arguments) => a.prune_toJson)
  have hpruned : s.toJson.draft.prune .kept shape = .obj [(some "return", s.returns.toJson.draft),
      (some "arguments", .arr (Json.Draft.pruneEach .kept (.plain Argument.fields)
        (Json.draftElements (s.arguments.map Argument.toJson))))] := rfl
  rw [hpruned, harguments]
  rfl

theorem nestsWithin_toJson (s : Signature) (n : Nat) : s.toJson.draft.nestsWithin (n + 3) := by
  have harguments := Json.elementsNestWithin_draftElements
    (List.forall_mem_map.mpr fun (a : Argument) (_ : a ∈ s.arguments) => a.nestsWithin_toJson n)
  simp [toJson, Ty.toJson, Json.draft, Json.draftMembers, Json.Draft.nestsWithin,
    Json.Draft.membersNestWithin, harguments]

end Signature

namespace SignatureTable

variable (table : SignatureTable)

theorem textual_toJson : (SignatureTable.toJson table).Textual :=
  .obj (List.forall_mem_map.mpr fun entry _ => entry.2.textual_toJson)

theorem prune_toJson : (SignatureTable.toJson table).draft.prune .kept SignatureTable.shape =
    (SignatureTable.toJson table).draft := by
  have hmembers : ∀ m ∈ table.entries.map fun entry => (entry.1, entry.2.toJson),
      m.2.draft.prune .kept Signature.shape = m.2.draft :=
    List.forall_mem_map.mpr fun entry _ => entry.2.prune_toJson
  exact congrArg Json.Draft.obj (Json.pruneTable_draftMembers hmembers)

theorem nestsWithin_toJson (n : Nat) :
    (SignatureTable.toJson table).draft.nestsWithin (n + 4) := by
  have hmembers : ∀ m ∈ table.entries.map fun entry => (entry.1, entry.2.toJson),
      m.2.draft.nestsWithin (n + 3) :=
    List.forall_mem_map.mpr fun entry _ => entry.2.nestsWithin_toJson n
  exact Json.membersNestWithin_draftMembers hmembers

theorem ofText?_toText :
    SignatureTable.ofText? (SignatureTable.toText table) = some table := by
  have hselect := Json.select?_compact (textual_toJson table) (prune_toJson table)
    (nestsWithin_toJson table 123)
  rw [SignatureTable.ofText?, SignatureTable.toText, Json.maxDepth, hselect]
  exact ofJson?_toJson table

end SignatureTable

/--
Whatever was written into a table, its text is read as the same table, with the
entries in the same order: a name has the place at which it first came, and what was
written for it last.  This also holds of what calls have shown.
-/
theorem signature_tables_read_back :
    (∀ insertions : List (String × Signature),
      SignatureTable.ofText? (SignatureTable.toText (OrderedMap.ofList insertions)) =
        some (OrderedMap.ofList insertions)) ∧
    (∀ (table : SignatureTable) (name : String) (signature : Signature),
      (∀ i old, table.entries[i]? = some (name, old) →
        (table.insert name signature).entries = table.entries.set i (name, signature)) ∧
      (name ∉ table.keys →
        (table.insert name signature).entries = table.entries ++ [(name, signature)])) ∧
    ∀ signatures root lowered, (Lowering.run signatures root).result = .ok lowered →
      SignatureTable.ofText? (SignatureTable.toText lowered.captured) = some lowered.captured := by
  refine ⟨fun _ => SignatureTable.ofText?_toText _, fun table name signature => ⟨?_, ?_⟩,
    fun _ _ lowered _ => SignatureTable.ofText?_toText lowered.captured⟩
  · exact fun i old h => OrderedMap.put_of_getElem? signature table.nodup h
  · exact OrderedMap.entries_insert_of_not_mem signature

theorem signature_tables_read_back_nestedModule :
    (∃ lowered, (Lowering.run .empty (.module Tree.nestedModule)).result = .ok lowered ∧
      SignatureTable.ofText? (SignatureTable.toText lowered.captured) = some lowered.captured) ∧
    (Tree.outerSignature.insert "outer" ⟨.void, []⟩).entries = [("outer", ⟨.void, []⟩)] ∧
    (Tree.outerSignature.insert "inner" ⟨.void, []⟩).entries =
      Tree.outerSignature.entries ++ [("inner", ⟨.void, []⟩)] := by
  obtain ⟨-, hinsert, hcaptured⟩ := signature_tables_read_back
  obtain ⟨lowered, h⟩ := Lowering.nestedModule_lowered
  refine ⟨⟨lowered, h, hcaptured _ _ _ h⟩, ?_, ?_⟩
  · exact (hinsert Tree.outerSignature "outer" ⟨.void, []⟩).1 0 _ rfl
  · exact (hinsert Tree.outerSignature "inner" ⟨.void, []⟩).2 (by decide)

end TypedPseudocode
