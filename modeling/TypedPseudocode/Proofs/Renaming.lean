import Mathlib.Data.List.Nodup
import TypedPseudocode.Builtin
import TypedPseudocode.Proofs.Tables

/-!
Renaming: symbol tables under other names.

A renaming keeps names apart and leaves alone the names that Python provides.  The
table is renamed by renaming what it binds, what it declares and what it knows of
procedures.  All that the table can be asked for, or told, comes before or after a
renaming; only handles, types and ids go through unchanged.
-/

namespace TypedPseudocode

open Code

/-- Names that mean something as long as nothing else is bound to them. -/
def Builtin.isProvided (name : String) : Bool :=
  isFunction name || (variableTy? name).isSome || name = "List"

structure Renaming where
  apply : String → String
  injective : Function.Injective apply
  provided : ∀ name, Builtin.isProvided name = true → apply name = name

instance : CoeFun Renaming fun _ => String → String := ⟨Renaming.apply⟩

namespace Renaming

def identity : Renaming := ⟨id, Function.injective_id, fun _ _ => rfl⟩

variable (r : Renaming)

@[simp] theorem eq_iff {name other : String} : r name = r other ↔ name = other :=
  r.injective.eq_iff

theorem fixed_or_free (name : String) : r name = name ∨
    Builtin.isProvided name = false ∧ Builtin.isProvided (r name) = false := by
  by_cases hname : Builtin.isProvided name = true
  · exact .inl (r.provided name hname)
  · by_cases hchanged : Builtin.isProvided (r name) = true
    · exact .inl (r.injective (r.provided _ hchanged))
    · exact .inr ⟨Bool.eq_false_iff.mpr hname, Bool.eq_false_iff.mpr hchanged⟩

theorem meaning_eq {γ : Type} {meaning : String → Option γ}
    (h : ∀ name, (meaning name).isSome → Builtin.isProvided name = true) (name : String) :
    meaning (r name) = meaning name := by
  have hsome (value : γ) : meaning (r name) = some value ↔ meaning name = some value := by
    rcases r.fixed_or_free name with hfixed | ⟨hfree, hfree'⟩
    · rw [hfixed]
    · have hnone {name : String} (hfree : Builtin.isProvided name = false) :
          meaning name ≠ some value := by
        intro hvalue
        have hprovided := h name (by rw [hvalue]; rfl)
        exact Bool.false_ne_true (hfree.symm.trans hprovided)
      exact iff_of_false (hnone hfree') (hnone hfree)
  exact Option.ext hsome

/-! ### Provided names -/

theorem variableTy?_eq (name : String) : Builtin.variableTy? (r name) = Builtin.variableTy? name :=
  r.meaning_eq (fun name h => by simp [Builtin.isProvided, h]) name

theorem hintNameTy?_eq (name : String) :
    Builtin.hintNameTy? (r name) = Builtin.hintNameTy? name := by
  refine r.meaning_eq (fun name h => ?_) name
  unfold Builtin.hintNameTy? at h
  split at h
  · decide
  · decide
  · decide
  · decide
  · decide
  · decide
  · cases h

theorem eq_provided_iff {known : String} (h : Builtin.isProvided known = true) (name : String) :
    r name = known ↔ name = known := by
  have hiff : r name = r known ↔ name = known := r.eq_iff
  rwa [r.provided known h] at hiff

theorem isIgnored_eq (name : String) : Builtin.isIgnored (r name) = Builtin.isIgnored name := by
  simp only [Builtin.isIgnored, r.eq_provided_iff (by decide : Builtin.isProvided "print" = true)]

end Renaming

/-! ## Maps under other keys -/

namespace OrderedMap

variable {κ κ' α β : Type} {f : κ → κ'} (hf : Function.Injective f) (g : α → β)

def rekey (m : OrderedMap κ α) : OrderedMap κ' β where
  entries := m.entries.map fun entry => (f entry.1, g entry.2)
  nodup := by
    have hkeys : (m.entries.map fun entry => (f entry.1, g entry.2)).map Prod.fst =
        (m.entries.map Prod.fst).map f := by
      simp
    rw [hkeys]
    exact m.nodup.map hf

variable [DecidableEq κ] [DecidableEq κ']

include hf in
theorem find_rekey (key : κ) (entries : List (κ × α)) :
    find (f key) (entries.map fun entry => (f entry.1, g entry.2)) =
      (find key entries).map g := by
  induction entries with
  | nil => rfl
  | cons entry rest ih =>
      obtain ⟨k, value⟩ := entry
      by_cases h : k = key
      · simp [find, h]
      · simp [find, h, hf.eq_iff, ih]

include hf in
theorem put_rekey (key : κ) (value : α) (entries : List (κ × α)) :
    put (f key) (g value) (entries.map fun entry => (f entry.1, g entry.2)) =
      (put key value entries).map fun entry => (f entry.1, g entry.2) := by
  induction entries with
  | nil => rfl
  | cons entry rest ih =>
      obtain ⟨k, old⟩ := entry
      by_cases h : k = key
      · simp [put, h]
      · simp [put, h, hf.eq_iff, ih]

theorem get?_rekey (m : OrderedMap κ α) (key : κ) :
    (m.rekey hf g).get? (f key) = (m.get? key).map g :=
  find_rekey hf g key m.entries

theorem contains_rekey (m : OrderedMap κ α) (key : κ) :
    (m.rekey hf g).contains (f key) = m.contains key := by
  simp [contains, get?_rekey]

theorem insert_rekey (m : OrderedMap κ α) (key : κ) (value : α) :
    (m.rekey hf g).insert (f key) (g value) = (m.insert key value).rekey hf g :=
  OrderedMap.ext (put_rekey hf g key value m.entries)

section RenameKeys

variable (r : Renaming)

def renameKeys (m : OrderedMap String α) : OrderedMap String α := m.rekey r.injective id

variable (m : OrderedMap String α)

theorem get?_renameKeys (name : String) : (m.renameKeys r).get? (r name) = m.get? name := by
  rw [renameKeys, get?_rekey, Option.map_id_fun, id]

theorem contains_renameKeys (name : String) :
    (m.renameKeys r).contains (r name) = m.contains name :=
  contains_rekey r.injective id m name

theorem insert_renameKeys (name : String) (value : α) :
    (m.renameKeys r).insert (r name) value = (m.insert name value).renameKeys r :=
  insert_rekey r.injective id m name value

theorem renameKeys_identity : m.renameKeys .identity = m := OrderedMap.ext (List.map_id _)

end RenameKeys

end OrderedMap

/-! ## Tables under other names -/

section Definitions

variable (r : Renaming)

def Signature.Argument.rename (a : Signature.Argument) : Signature.Argument :=
  { a with name := a.name.map r }

def Signature.rename (s : Signature) : Signature :=
  ⟨s.returns, s.arguments.map (·.rename r)⟩

def SignatureTable.rename (signatures : SignatureTable) : SignatureTable :=
  signatures.rekey r.injective (Signature.rename r)

def Variable.rename (v : Variable) : Variable := { v with name := r v.name }

def Procedure.rename (p : Procedure) : Procedure := { p with name := p.name.map r }

def Declarations.rename (ds : Declarations) : Declarations where
  procedures := ds.procedures.map (·.rename r)
  vars := ds.vars.map (·.rename r)
  types := ds.types

def Table.rename (t : Table) : Table where
  toDeclarations := t.toDeclarations.rename r
  source := t.source
  scope := t.scope.renameKeys r
  outer := t.outer.map (·.renameKeys r)
  signatures := t.signatures.rename r
  captured := t.captured.renameKeys r

end Definitions

theorem SignatureTable.rename_identity (signatures : SignatureTable) :
    signatures.rename .identity = signatures := by
  have hargument (a : Signature.Argument) : a.rename .identity = a := by
    obtain ⟨_ | name, ty⟩ := a <;> rfl
  have hsignature (s : Signature) : s.rename .identity = s := by
    simp only [Signature.rename, hargument, List.map_id']
  refine OrderedMap.ext ?_
  simp only [rename, OrderedMap.rekey, hsignature]
  exact List.map_id _

theorem Declarations.rename_identity (ds : Declarations) : ds.rename .identity = ds := by
  have hprocedure (p : Procedure) : p.rename .identity = p := by
    obtain ⟨serial, _ | name, ty, parameters, body, called⟩ := p <;> rfl
  have hvar (v : Variable) : v.rename .identity = v := rfl
  simp only [rename, hprocedure, hvar, List.map_id']

namespace Declarations

variable (r : Renaming) (ds : Declarations)

theorem procAt_rename (p : ProcId) : (ds.rename r).procAt p = (ds.procAt p).rename r := by
  simp only [procAt, rename, List.getElem?_map]
  cases ds.procedures[p.index]? <;> rfl

theorem id_varAt_rename (v : VarId) :
    ((ds.rename r).varAt v).id = (ds.varAt v).id := by
  simp only [varAt, rename, List.getElem?_map]
  cases ds.vars[v.index]? <;> rfl

theorem name_varAt_rename {r : Renaming} (h : ∀ name, r name = name) (v : VarId) :
    ((ds.rename r).varAt v).name = (ds.varAt v).name := by
  simp only [varAt, rename, List.getElem?_map]
  cases ds.vars[v.index]? with
  | none => rfl
  | some declared => exact h declared.name

theorem varAt_rename {v : VarId} (h : v.index < ds.vars.length) :
    (ds.rename r).varAt v = (ds.varAt v).rename r := by
  simp [varAt, rename, List.getElem?_eq_getElem h]

end Declarations

theorem Procedure.displayName_rename {r : Renaming} (h : ∀ name, r name = name) (p : Procedure) :
    (p.rename r).displayName = p.displayName := by
  simp only [displayName, rename]
  cases p.name with
  | none => rfl
  | some name => exact h name

theorem Signature.argumentTy?_rename (r : Renaming) (s : Signature) (name : String)
    (position : Nat) :
    (s.rename r).argumentTy? (r name) position = s.argumentTy? name position := by
  have hname (a : Signature.Argument) : (a.rename r).name = some (r name) ↔ a.name = some name := by
    simp [Argument.rename]
  have hfind : (s.rename r).arguments.find? (·.name = some (r name)) =
      (s.arguments.find? (·.name = some name)).map (·.rename r) := by
    simp only [rename, List.find?_map, Function.comp_def, hname]
  simp only [argumentTy?, hfind]
  cases s.arguments.find? (·.name = some name) with
  | some argument => rfl
  | none =>
      simp only [rename, Option.map_none, List.getElem?_map]
      rcases s.arguments[position]? with _ | ⟨_ | _, ty⟩ <;> rfl

def Slot.rename (r : Renaming) (slot : Slot) : Slot := { slot with owner := r slot.owner }

namespace Table

variable (r : Renaming) (t : Table)

@[simp] theorem toDeclarations_rename : (t.rename r).toDeclarations = t.toDeclarations.rename r :=
  rfl

theorem ty_procAt_rename (p : ProcId) : ((t.rename r).procAt p).ty = (t.procAt p).ty := by
  rw [toDeclarations_rename, Declarations.procAt_rename]
  rfl

theorem empty_rename (signatures : SignatureTable) :
    (empty signatures).rename r = empty (signatures.rename r) := rfl

theorem leave_rename : (t.rename r).leave = t.leave.rename r := by
  rcases h : t.outer with _ | ⟨scope, outer⟩
  · simp [leave, rename, h]
  · simp [leave, rename, h]

theorem lookup_rename (name : String) (reach : Reach) :
    (t.rename r).lookup (r name) reach = t.lookup name reach := by
  cases reach with
  | innermost => exact t.scope.get?_renameKeys r name
  | enclosing =>
      have hscopes : (t.rename r).scope :: (t.rename r).outer =
          (t.scope :: t.outer).map (·.renameKeys r) := rfl
      simp only [lookup, hscopes, List.findSome?_map, Function.comp_def,
        OrderedMap.get?_renameKeys]

theorem bind_rename (name : String) (d : Declaration) :
    (t.rename r).bind (r name) d = (t.bind name d).rename r := by
  simp only [bind, rename, OrderedMap.insert_renameKeys]

theorem resultSeed_rename (name : Option String) (stated : Option Ty) :
    (t.rename r).resultSeed (name.map r) stated = t.resultSeed name stated := by
  cases name with
  | none => rfl
  | some name =>
      simp only [resultSeed, rename, SignatureTable.rename, Option.map_some, Option.bind_some,
        OrderedMap.get?_rekey, Option.map_map]
      rfl

theorem variableSeed_rename (name : String) (stated : Option Ty) (slot : Option Slot) :
    (t.rename r).variableSeed (r name) stated (slot.map (·.rename r)) =
      t.variableSeed name stated slot := by
  cases slot with
  | none => rfl
  | some slot =>
      simp only [variableSeed, rename, SignatureTable.rename, Slot.rename, Option.map_some,
        Option.bind_some, OrderedMap.get?_rekey, Option.bind_map, Function.comp_def,
        Signature.argumentTy?_rename]

theorem declareVariable_rename (name : String) (stated : Option Ty) (slot : Option Slot) :
    (t.rename r).declareVariable (r name) stated (slot.map (·.rename r)) =
      ((t.declareVariable name stated slot).1,
        (t.declareVariable name stated slot).2.rename r) := by
  simp only [declareVariable, variableSeed_rename, ← bind_rename]
  simp [rename, Declarations.rename, Variable.rename]

theorem declareProcedure_rename (name : Option String) (stated : Option Ty) :
    (t.rename r).declareProcedure (name.map r) stated =
      ((t.declareProcedure name stated).1, (t.declareProcedure name stated).2.rename r) := by
  cases name with
  | none =>
      simp [declareProcedure, rename, Declarations.rename, Procedure.rename, resultSeed]
  | some name =>
      have hseed := t.resultSeed_rename r (some name) stated
      simp only [Option.map_some] at hseed
      simp only [declareProcedure, Option.map_some, hseed, ← bind_rename]
      simp [rename, Declarations.rename, Procedure.rename]

theorem updateProcedure_rename (p : ProcId) {f f' : Procedure → Procedure}
    (hf : ∀ q : Procedure, f' (q.rename r) = (f q).rename r) :
    (t.rename r).updateProcedure p f' = (t.updateProcedure p f).rename r := by
  simp only [updateProcedure, rename, Declarations.rename, modify_map hf]

theorem isNews_rename (name : String) : (t.rename r).isNews (r name) = t.isNews name := by
  simp only [isNews, rename, SignatureTable.rename, OrderedMap.contains_rekey,
    OrderedMap.contains_renameKeys]

theorem capture_rename (name : String) (p : ProcId) (arguments : List Ty) :
    (t.rename r).capture (r name) p arguments = (t.capture name p arguments).rename r := by
  unfold capture
  rw [isNews_rename, ty_procAt_rename]
  split
  · simp only [rename, OrderedMap.insert_renameKeys]
  · rfl

theorem reach_rename (name : String) (p : ProcId) (arguments : List Ty) :
    (t.rename r).reach (r name) p arguments = (t.reach name p arguments).rename r := by
  unfold reach
  rw [t.updateProcedure_rename r p (f := ({ · with called := true })) fun _ => rfl,
    capture_rename]

theorem called_rename : (t.rename r).called = t.called.map r := by
  simp only [called, rename, Declarations.rename, List.filter_map, List.filterMap_map]
  rw [List.map_filterMap]
  rfl

end Table

end TypedPseudocode
