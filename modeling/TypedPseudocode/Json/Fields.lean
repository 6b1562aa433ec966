import TypedPseudocode.Json

/-!
Fields of records that are given as members of an object.

A field that is read may stand in the object once at most; members that no
field asks for are not looked at.  A record may also be given as the list of
its fields in declared order, which is the same as an object with these fields.
-/

namespace TypedPseudocode.Json

variable {α β : Type}

def valuesOf (members : List (String × β)) (name : String) : List β :=
  (members.filter (·.1 = name)).map Prod.snd

def required (members : List (String × β)) (name : String) (read : β → Option α) :
    Option α :=
  match valuesOf members name with
  | [value] => read value
  | _ => none

def defaulted (members : List (String × β)) (name : String) (read : β → Option α)
    (default : α) : Option α :=
  match valuesOf members name with
  | [] => some default
  | [value] => read value
  | _ => none

def positional (fields : List String) (values : List β) : Option (List (String × β)) :=
  if values.length ≤ fields.length then some (fields.zip values) else none

/-! ## Parts of values -/

/-- The members of an object, or of a list of fields in declared order. -/
def membersOf? (fields : List String) : Json → Option (List (String × Json))
  | .obj members => some members
  | .arr values => positional fields values
  | _ => none

def text? : Json → Option String
  | .str text => some text
  | _ => none

def flag? : Json → Option Bool
  | .bool value => some value
  | _ => none

def nullable? (read : Json → Option α) : Json → Option (Option α)
  | .null => some none
  | v => (read v).map some

def list? (read : Json → Option α) : Json → Option (List α)
  | .arr values => values.mapM read
  | _ => none

end TypedPseudocode.Json
