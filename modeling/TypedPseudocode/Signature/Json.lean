import TypedPseudocode.Json.Fields
import TypedPseudocode.Json.Printer
import TypedPseudocode.Json.Reader
import TypedPseudocode.Signature
import TypedPseudocode.Ty.Name

/-!
Signature tables as JSON objects from procedure names to signatures, such as
`{"f": {"return": "int", "arguments": [{"name": "a", "type": "int[]"}]}}`.

An argument without a name has no `name` member.  Reading supplies what is
missing, except the type of an argument, and lets a procedure that is listed
twice keep its first place and its last signature.  Members that are no fields
of a signature or an argument are not looked at, whatever they hold.
-/

namespace TypedPseudocode

def Ty.toJson (ty : Ty) : Json := .str ty.name

def Ty.ofJson? : Json → Option Ty
  | .str text => (Ty.ofName text).toOption
  | _ => none

namespace Signature

def Argument.toJson (a : Argument) : Json :=
  match a.name with
  | some name => .obj [("name", .str name), ("type", a.ty.toJson)]
  | none => .obj [("type", a.ty.toJson)]

def Argument.fields : List String := ["name", "type"]

def Argument.ofJson? (v : Json) : Option Argument := do
  let members ← v.membersOf? fields
  let name ← Json.defaulted members "name" (Json.nullable? Json.text?) none
  let ty ← Json.required members "type" Ty.ofJson?
  return ⟨name, ty⟩

def toJson (s : Signature) : Json :=
  .obj [("return", s.returns.toJson), ("arguments", .arr (s.arguments.map Argument.toJson))]

def fields : List String := ["return", "arguments"]

def ofJson? (v : Json) : Option Signature := do
  let members ← v.membersOf? fields
  let returns ← Json.defaulted members "return" Ty.ofJson? .unknown
  let arguments ← Json.defaulted members "arguments" (Json.list? Argument.ofJson?) []
  return ⟨returns, arguments⟩

def shape : Json.Shape :=
  .record [("return", .whole), ("arguments", .list (.plain Argument.fields))]

end Signature

namespace SignatureTable

def toJson (table : SignatureTable) : Json :=
  .obj (table.entries.map fun entry => (entry.1, entry.2.toJson))

def ofJson? : Json → Option SignatureTable
  | .obj members => do
      let entries ← members.mapM fun member =>
        (Signature.ofJson? member.2).map fun signature => (member.1, signature)
      return OrderedMap.ofList entries
  | _ => none

def toText (table : SignatureTable) : String := (toJson table).compact

def shape : Json.Shape := .table Signature.shape

def ofText? (text : String) : Option SignatureTable := do
  ofJson? (← Json.select? shape Json.maxDepth text)

end SignatureTable

end TypedPseudocode
