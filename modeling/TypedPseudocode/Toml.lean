import TypedPseudocode.Json.Draft
import TypedPseudocode.OrderedMap

/-!
TOML documents under construction.

Statements add to a tree of tables.  A table may be opened by a header, arise
on the way to one, or be made by a dotted key, and that decides what may still
be added to it: a header opens a table once, and a dotted key extends only
tables that no header has opened.  No key is given a value twice.

Inside of an inline table there are no headers, and a dotted key may extend any
table that is already there.  Once the inline table is closed it is a value
like any other, to which nothing can be added.
-/

namespace TypedPseudocode.Toml

inductive Value where
  | str (text : String)
  | bool (value : Bool)
  | int (value : Int)
  /-- A float; infinities and NaN have no number. -/
  | float (number : Option Binary64)
  | moment (text : String)
  | arr (elements : List Value)
  | table (members : List (String × Value))
  deriving Repr, Inhabited

def Value.assign (key : String) (v : Value) :
    List String → List (String × Value) → Option (List (String × Value))
  | [], ms => if (OrderedMap.find key ms).isSome then none else some (OrderedMap.put key v ms)
  | step :: path, ms =>
      match OrderedMap.find step ms with
      | none => do
          let inner ← Value.assign key v path []
          return OrderedMap.put step (.table inner) ms
      | some (.table inner) => do
          let inner ← Value.assign key v path inner
          return OrderedMap.put step (.table inner) ms
      | some _ => none

/-! ## Tables -/

inductive Origin where
  | header
  | onTheWay
  | dotted
  deriving DecidableEq, Repr

inductive Node where
  | value (v : Value)
  | table (origin : Origin) (members : List (String × Node))
  /-- An array of tables; headers and keys go on with the last one. -/
  | tables (items : List (List (String × Node)))
  deriving Repr

abbrev Members := List (String × Node)

def descend (dotted : Bool) (act : Origin → Members → Option Members) :
    List String → Origin → Members → Option Members
  | [], origin, ms => act origin ms
  | key :: path, _, ms =>
      match OrderedMap.find key ms with
      | none => do
          let made := if dotted then .dotted else .onTheWay
          let inner ← descend dotted act path made []
          return OrderedMap.put key (.table made inner) ms
      | some (.table origin inner) =>
          if dotted ∧ origin = .header then none
          else do
            let inner ← descend dotted act path origin inner
            return OrderedMap.put key (.table origin inner) ms
      | some (.tables items) => do
          let inner ← descend dotted act path .header (← items.getLast?)
          return OrderedMap.put key (.tables (items.dropLast ++ [inner])) ms
      | some (.value _) => none

def assign (path : List String) (key : String) (v : Value) : Members → Option Members :=
  let act (origin : Origin) (ms : Members) : Option Members :=
    if (origin = .dotted) ↔ path = [] then none
    else if (OrderedMap.find key ms).isSome then none
    else some (OrderedMap.put key (.value v) ms)
  descend true act path .header

def openTable (path : List String) (key : String) : Members → Option Members :=
  let act (_ : Origin) (ms : Members) : Option Members :=
    match OrderedMap.find key ms with
    | none => some (OrderedMap.put key (.table .header []) ms)
    | some (.table .onTheWay inner) => some (OrderedMap.put key (.table .header inner) ms)
    | some _ => none
  descend false act path .header

def openItem (path : List String) (key : String) : Members → Option Members :=
  let act (_ : Origin) (ms : Members) : Option Members :=
    match OrderedMap.find key ms with
    | none => some (OrderedMap.put key (.tables [[]]) ms)
    | some (.tables items) => some (OrderedMap.put key (.tables (items ++ [[]])) ms)
    | some _ => none
  descend false act path .header

def assignUnder (opened path : List String) (key : String) (v : Value) :
    Members → Option Members :=
  descend false (fun _ => assign path key v) opened .header

/-! ## Drafts -/

/-- The name under which a date or time is handed on; it is no field of any record. -/
def momentName : String := "$moment"

mutual

def Value.draft : Value → Json.Draft
  | .str text => .scalar (some (.str text))
  | .bool value => .scalar (some (.bool value))
  | .int value => .scalar (some (.int value))
  | .float number => .scalar (number.map .double)
  | .moment text => .obj [(some momentName, .scalar (some (.str text)))]
  | .arr elements => .arr (elementDrafts elements)
  | .table members => .obj (valueDrafts members)

def elementDrafts : List Value → List Json.Draft
  | [] => []
  | v :: rest => v.draft :: elementDrafts rest

def valueDrafts : List (String × Value) → List (Option String × Json.Draft)
  | [] => []
  | (key, v) :: rest => (some key, v.draft) :: valueDrafts rest

end

mutual

def Node.draft : Node → Json.Draft
  | .value v => v.draft
  | .table _ members => .obj (nodeDrafts members)
  | .tables items => .arr (itemDrafts items)

def nodeDrafts : List (String × Node) → List (Option String × Json.Draft)
  | [] => []
  | (key, node) :: rest => (some key, node.draft) :: nodeDrafts rest

def itemDrafts : List (List (String × Node)) → List Json.Draft
  | [] => []
  | members :: rest => .obj (nodeDrafts members) :: itemDrafts rest

end

end TypedPseudocode.Toml
