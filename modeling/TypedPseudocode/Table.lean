import TypedPseudocode.Diagnostic
import TypedPseudocode.IdStream
import TypedPseudocode.Signature
import TypedPseudocode.TypeStore

/-!
The symbol table: every declaration made so far, the scopes that make them
visible, and the signatures known and observed.

Scopes bind names to declarations; procedures and variables share one name
space.  The module scope lies at the bottom and is never left.  Each declaration
draws the next id of the source that the table owns and keeps it.  An operation
that can fail returns a table either way.

The kinds of source and of id are parameters; where they are left out, ids are
the numbers of draws.
-/

namespace TypedPseudocode

open Code

variable {σ ι : Type}

structure Variable (ι : Type := Nat) where
  id : ι
  name : String
  deriving DecidableEq, Repr

structure Procedure (ι : Type := Nat) where
  id : ι
  name : Option String
  ty : Ty
  parameters : List VarId
  body : List TypedStatement
  called : Bool
  deriving Repr

def Procedure.displayName (p : Procedure ι) : String := p.name.getD "<module>"

structure Declarations (ι : Type := Nat) where
  procedures : List (Procedure ι)
  vars : List (Variable ι)
  types : TypeStore

inductive Declaration where
  | procedure (id : ProcId)
  | variable (id : VarId)
  deriving DecidableEq, Repr

abbrev Scope := OrderedMap String Declaration

inductive Reach where
  | innermost
  | enclosing
  deriving DecidableEq, Repr

structure Slot where
  owner : String
  position : Nat
  deriving DecidableEq, Repr

structure Table (σ : Type := Nat) (ι : Type := Nat) extends Declarations ι where
  source : σ
  scope : Scope
  outer : List Scope
  signatures : SignatureTable
  /-- What the first call shows of procedures that the caller knows nothing of. -/
  captured : SignatureTable

namespace Declarations

def varAt [Inhabited ι] (ds : Declarations ι) (v : VarId) : Variable ι :=
  ds.vars[v.index]?.getD ⟨default, ""⟩

/-- A handle that was never given out stands for an empty procedure. -/
def procAt [Inhabited ι] (ds : Declarations ι) (p : ProcId) : Procedure ι :=
  ds.procedures[p.index]?.getD ⟨default, none, .unknown, [], [], false⟩

def tyOf (ds : Declarations ι) (v : VarId) : Ty := ds.types.tyOf v

end Declarations

namespace Table

def start (source : σ) (signatures : SignatureTable) : Table σ ι where
  procedures := []
  vars := []
  types := OrderedMap.empty
  source := source
  scope := OrderedMap.empty
  outer := []
  signatures := signatures
  captured := OrderedMap.empty

abbrev empty (signatures : SignatureTable) : Table := start 0 signatures

/-! ## Scopes -/

def enter (t : Table σ ι) : Table σ ι :=
  { t with scope := OrderedMap.empty, outer := t.scope :: t.outer }

def leave (t : Table σ ι) : Table σ ι :=
  match t.outer with
  | [] => t
  | scope :: outer => { t with scope, outer }

def depth (t : Table σ ι) : Nat := t.outer.length + 1

def bind (t : Table σ ι) (name : String) (declaration : Declaration) : Table σ ι :=
  { t with scope := t.scope.insert name declaration }

def lookup (t : Table σ ι) (name : String) : Reach → Option Declaration
  | .innermost => t.scope.get? name
  | .enclosing => (t.scope :: t.outer).findSome? (·.get? name)

@[simp] theorem leave_enter (t : Table σ ι) : t.enter.leave = t := rfl

@[simp] theorem depth_enter (t : Table σ ι) : t.enter.depth = t.depth + 1 := rfl

@[simp] theorem depth_bind (t : Table σ ι) (name : String) (declaration : Declaration) :
    (t.bind name declaration).depth = t.depth := rfl

theorem lookup_bind (t : Table σ ι) (name other : String) (declaration : Declaration)
    (reach : Reach) :
    (t.bind name declaration).lookup other reach =
      if name = other then some declaration else t.lookup other reach := by
  cases reach with
  | innermost => exact OrderedMap.get?_insert t.scope name other declaration
  | enclosing =>
      simp only [lookup, bind, List.findSome?_cons, OrderedMap.get?_insert]
      by_cases h : name = other <;> simp [h]

/-! ## Declarations -/

/-- A stated type wins over the supplied signature. -/
def resultSeed (t : Table σ ι) (name : Option String) (stated : Option Ty) : Ty :=
  let known := name.bind fun name => (t.signatures.get? name).map (·.returns)
  (stated <|> known).getD .unknown

def variableSeed (t : Table σ ι) (name : String) (stated : Option Ty)
    (slot : Option Slot) : Ty :=
  let known := slot.bind fun slot =>
    (t.signatures.get? slot.owner).bind (·.argumentTy? name slot.position)
  (stated <|> known).getD .unknown

/-- Declare a procedure; one without a name is bound to none. -/
def declareProcedure [IdSource σ ι] (t : Table σ ι) (name : Option String)
    (stated : Option Ty) : ProcId × Table σ ι :=
  let id : ProcId := ⟨t.procedures.length⟩
  let draw := IdSource.fresh t.source
  let procedure : Procedure ι := ⟨draw.1, name, t.resultSeed name stated, [], [], false⟩
  let t' := { t with procedures := t.procedures ++ [procedure], source := draw.2 }
  match name with
  | some name => (id, t'.bind name (.procedure id))
  | none => (id, t')

def declareVariable [IdSource σ ι] (t : Table σ ι) (name : String) (stated : Option Ty)
    (slot : Option Slot) : VarId × Table σ ι :=
  let id : VarId := ⟨t.vars.length⟩
  let draw := IdSource.fresh t.source
  let declared : Variable ι := ⟨draw.1, name⟩
  let t' := { t with
    vars := t.vars ++ [declared]
    types := t.types.register id (t.variableSeed name stated slot)
    source := draw.2 }
  (id, t'.bind name (.variable id))

def updateProcedure (t : Table σ ι) (p : ProcId) (f : Procedure ι → Procedure ι) :
    Table σ ι :=
  { t with procedures := t.procedures.modify p.index f }

def define (t : Table σ ι) (p : ProcId) (parameters : List VarId)
    (body : List TypedStatement) : Table σ ι :=
  t.updateProcedure p fun procedure => { procedure with parameters, body }

/-! ## Uses -/

def lookupVariable (t : Table σ ι) (name : String) (reach : Reach) (line : Nat) :
    Except Diagnostic (Option VarId) :=
  match t.lookup name reach with
  | none => .ok none
  | some (.variable id) => .ok (some id)
  | some (.procedure _) => .error ⟨.procedureAsVariable name, line⟩

def isNews (t : Table σ ι) (name : String) : Bool :=
  !t.signatures.contains name && !t.captured.contains name

def capture [Inhabited ι] (t : Table σ ι) (name : String) (p : ProcId)
    (arguments : List Ty) : Table σ ι :=
  if t.isNews name then
    { t with captured := t.captured.insert name (.ofCall (t.procAt p).ty arguments) }
  else t

def lookupCalled [Inhabited ι] (t : Table σ ι) (name : String) (reach : Reach)
    (arguments : List Ty) (line : Nat) : Except Diagnostic (Option ProcId) × Table σ ι :=
  match t.lookup name reach with
  | none => (.ok none, t)
  | some (.procedure id) =>
      (.ok (some id),
        (t.updateProcedure id ({ · with called := true })).capture name id arguments)
  | some (.variable _) => (.error ⟨.variableAsProcedure name, line⟩, t)

def constrainVariable [Inhabited ι] (t : Table σ ι) (v : VarId) (ty : Ty) (line : Nat) :
    Except Diagnostic Ty × Table σ ι :=
  match t.types.constrain v ty with
  | (.ok unified, types) => (.ok unified, { t with types })
  | (.error existing, types) =>
      (.error (.conflict (.variable (t.varAt v).name) ⟨existing, ty⟩ line), { t with types })

def constrainProcedure [Inhabited ι] (t : Table σ ι) (p : ProcId) (ty : Ty) (line : Nat) :
    Except Diagnostic Ty × Table σ ι :=
  match (t.procAt p).ty.unify ty with
  | some unified => (.ok unified, t.updateProcedure p ({ · with ty := unified }))
  | none =>
      (.error (.conflict (.result (t.procAt p).displayName) ⟨(t.procAt p).ty, ty⟩ line), t)

/-- The named procedures that some call has reached, in order of declaration. -/
def called (t : Table σ ι) : List String :=
  (t.procedures.filter (·.called)).filterMap (·.name)

end Table

end TypedPseudocode
