import TypedPseudocode.Table
import TypedPseudocode.Ty.Name

/-!
Documents: pseudocode as it is published.

A document refers to declarations by their ids, of any kind `ι`.  Each
declaration of a variable states its final type, each expression the type that
was known when it was lowered.

The format has room for more than is ever published: the indexes of an array's
length, several indexes of an element, another type than `int` of a length, and
procedures among the statements.  Documents leave these out; their text states
the first as an empty list and the second as a list of one.
-/

namespace TypedPseudocode

open Code

structure Document.Variable (ι : Type) where
  id : ι
  name : String
  ty : Ty.Published
  deriving DecidableEq, Repr

abbrev Document.Expression (ι : Type) := Code.Expression ι ι Ty.Published

abbrev Document.Statement (ι : Type) :=
  Code.Statement (Document.Variable ι) ι ι Ty.Published

structure Document.Procedure (ι : Type) where
  id : ι
  name : Option String
  ty : Ty.Published
  parameters : List (Document.Variable ι)
  body : List (Document.Statement ι)
  deriving Repr

structure Document (ι : Type) where
  constants : List (Document.Statement ι)
  procedures : List (Document.Procedure ι)
  deriving Repr

namespace Document

variable {ι κ : Type}

def format : String := "pseudocodejson"

def version : String := "1.0.0"

def names (d : Document ι) : List String := d.procedures.filterMap (·.name)

/-! ## Ids -/

def Variable.map (f : ι → κ) (v : Variable ι) : Variable κ := { v with id := f v.id }

def Statement.map (f : ι → κ) : List (Statement ι) → List (Statement κ) :=
  Code.Statement.mapAll (Variable.map f) f f id

def Procedure.map (f : ι → κ) (p : Procedure ι) : Procedure κ where
  id := f p.id
  name := p.name
  ty := p.ty
  parameters := p.parameters.map (Variable.map f)
  body := Statement.map f p.body

def map (f : ι → κ) (d : Document ι) : Document κ where
  constants := Statement.map f d.constants
  procedures := d.procedures.map (Procedure.map f)

mutual

def Expression.ids {T : Type} : Code.Expression ι ι T → List ι
  | .read target _ => [target]
  | .readBuiltin .. | .literal .. => []
  | .call procedure arguments _ => procedure :: Expression.idsAll arguments
  | .callBuiltin _ arguments _ => Expression.idsAll arguments
  | .arrayLength target => Expression.ids target
  | .arrayElement target index _ => Expression.ids target ++ Expression.ids index
  | .aggregate elements _ => Expression.idsAll elements
  | .binary _ left right _ => Expression.ids left ++ Expression.ids right
  | .unary _ operand _ => Expression.ids operand

def Expression.idsAll {T : Type} : List (Code.Expression ι ι T) → List ι
  | [] => []
  | e :: es => Expression.ids e ++ Expression.idsAll es

end

mutual

def Statement.ids {T : Type} : Code.Statement (Variable ι) ι ι T → List ι
  | .declare declaration => [declaration.id]
  | .call procedure arguments => procedure :: Expression.idsAll arguments
  | .callBuiltin _ arguments => Expression.idsAll arguments
  | .ret none | .breakLoop | .continueLoop => []
  | .ret (some value) => Expression.ids value
  | .assign target value => target :: Expression.ids value
  | .assignElement target indexes value =>
      target :: Expression.idsAll indexes ++ Expression.ids value
  | .selection guard body alternative =>
      Expression.ids guard ++ Statement.idsAll body ++ Statement.idsAll alternative
  | .loop guard body => Expression.ids guard ++ Statement.idsAll body

def Statement.idsAll {T : Type} : List (Code.Statement (Variable ι) ι ι T) → List ι
  | [] => []
  | s :: ss => Statement.ids s ++ Statement.idsAll ss

end

def Procedure.ids (p : Procedure ι) : List ι :=
  p.id :: p.parameters.map (·.id) ++ Statement.idsAll p.body

/-- Every id of a document wherever it stands, in the order of its text. -/
def ids (d : Document ι) : List ι :=
  Statement.idsAll d.constants ++ d.procedures.flatMap Procedure.ids

end Document

/-! ## Publication -/

namespace Declarations

variable {ι : Type} [Inhabited ι] (ds : Declarations ι)

def publishVariable (v : VarId) : Document.Variable ι :=
  ⟨(ds.varAt v).id, (ds.varAt v).name, (ds.tyOf v).published⟩

def publishBody (body : List TypedStatement) : List (Document.Statement ι) :=
  Code.Statement.mapAll ds.publishVariable (fun v => (ds.varAt v).id)
    (fun p => (ds.procAt p).id) Ty.published body

def publishProcedure (p : Procedure ι) : Document.Procedure ι where
  id := p.id
  name := p.name
  ty := p.ty.published
  parameters := p.parameters.map ds.publishVariable
  body := ds.publishBody p.body

/-- The document of all that was declared, in order of declaration. -/
def publish : Document ι where
  constants := []
  procedures := ds.procedures.map ds.publishProcedure

end Declarations

end TypedPseudocode
