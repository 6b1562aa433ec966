import TypedPseudocode.Json

/-!
JSON text of which only the grammar has been read.

A numeral may be too large for a double, and a string may hold half of a
surrogate pair; then the text is well formed, but this part of it has no value.
That is a fault only in a part somebody looks at.  So a text is first read as a
draft, the draft is cut down to the parts that its reader looks at, and what is
left has to nest within a bound and to have values throughout.
-/

namespace TypedPseudocode.Json

inductive Draft where
  | scalar (value : Option Json)
  | arr (elements : List Draft)
  | obj (members : List (Option String × Draft))
  deriving Repr, Inhabited

/-- The parts of a value that a reader looks at. -/
inductive Shape where
  | whole
  /-- The named members of an object, or the elements of a list in the same order. -/
  | record (fields : List (String × Shape))
  | list (element : Shape)
  | table (value : Shape)
  deriving Repr, Inhabited

def Shape.plain (fields : List String) : Shape := .record (fields.map fun name => (name, .whole))

inductive Surplus where
  | kept
  | dropped
  deriving DecidableEq, Repr

namespace Draft

/-! ## Cutting down -/

mutual

def prune (surplus : Surplus) : Shape → Draft → Draft
  | .record fields, .obj members => .obj (pruneFields surplus fields members)
  | .record fields, .arr elements => .arr (pruneListed surplus (fields.map Prod.snd) elements)
  | .list element, .arr elements => .arr (pruneEach surplus element elements)
  | .table value, .obj members => .obj (pruneTable surplus value members)
  | _, draft => draft

/-- A member is left out by its name, which therefore has to have a value. -/
def pruneFields (surplus : Surplus) (fields : List (String × Shape)) :
    List (Option String × Draft) → List (Option String × Draft)
  | [] => []
  | (none, draft) :: rest => (none, draft) :: pruneFields surplus fields rest
  | (some name, draft) :: rest =>
      match fields.lookup name with
      | some shape => (some name, draft.prune surplus shape) :: pruneFields surplus fields rest
      | none => pruneFields surplus fields rest

def pruneListed (surplus : Surplus) : List Shape → List Draft → List Draft
  | _, [] => []
  | [], draft :: rest =>
      match surplus with
      | .kept => draft :: rest
      | .dropped => []
  | shape :: shapes, draft :: rest =>
      draft.prune surplus shape :: pruneListed surplus shapes rest

def pruneEach (surplus : Surplus) (shape : Shape) : List Draft → List Draft
  | [] => []
  | draft :: rest => draft.prune surplus shape :: pruneEach surplus shape rest

def pruneTable (surplus : Surplus) (shape : Shape) :
    List (Option String × Draft) → List (Option String × Draft)
  | [] => []
  | (name, draft) :: rest =>
      (name, draft.prune surplus shape) :: pruneTable surplus shape rest

end

/-! ## Depth -/

mutual

def nestsWithin : Nat → Draft → Bool
  | _, .scalar _ => true
  | 0, _ => false
  | limit + 1, .arr elements => elementsNestWithin limit elements
  | limit + 1, .obj members => membersNestWithin limit members

def elementsNestWithin (limit : Nat) : List Draft → Bool
  | [] => true
  | draft :: rest => draft.nestsWithin limit && elementsNestWithin limit rest

def membersNestWithin (limit : Nat) : List (Option String × Draft) → Bool
  | [] => true
  | (_, draft) :: rest => draft.nestsWithin limit && membersNestWithin limit rest

end

/-! ## Values -/

mutual

def value? : Draft → Option Json
  | .scalar value => value
  | .arr elements => (elementValues? elements).map .arr
  | .obj members => (memberValues? members).map .obj

def elementValues? : List Draft → Option (List Json)
  | [] => some []
  | draft :: rest => do
      let value ← draft.value?
      let values ← elementValues? rest
      return value :: values

def memberValues? : List (Option String × Draft) → Option (List (String × Json))
  | [] => some []
  | (name, draft) :: rest => do
      let name ← name
      let value ← draft.value?
      let values ← memberValues? rest
      return (name, value) :: values

end

end Draft

end TypedPseudocode.Json
