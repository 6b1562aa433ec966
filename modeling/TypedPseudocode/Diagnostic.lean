import TypedPseudocode.Ty.Name

/-!
Diagnostics: why a tree has no pseudocode, and which line is blamed.

There are three kinds.  A structural fault is a tree that breaks a rule of its
own shape, an unsupported construct is good Python that the pseudocode has no
form for, and a missing name is one that no visible scope declares.
-/

namespace TypedPseudocode

inductive Site where
  | variable (name : String)
  | result (procedure : String)
  | returns
  | elements
  | arguments (builtin : String)
  deriving DecidableEq, Repr

inductive Construct where
  | node (label : String)
  | operation (label : String)
  | conflict (site : Site) (existing candidate : Ty)
  | keywordArguments
  | methodCall (attr : String)
  | callOf (label : String)
  | attributeAccess (attr : String)
  | assignmentToBuiltin (name : String)
  | sliceAsIndex
  | sliceWithBounds
  | typeHint (name : String)
  | typeHintKind (label : String)
  | decorator (procedure : String)
  | variadicParameters (procedure : String)
  | restrictedParameters (procedure : String)
  | defaultValues (procedure : String)
  | hintedTarget (label : String)
  | unpackingOf (label : String)
  | elseBlock (label : String)
  | loopNotOverRange
  | rangeArguments (count : Nat)
  | builtinStatement (name : String)
  | expressionStatement
  deriving DecidableEq, Repr

inductive Fault where
  | unexpectedKind (accepted : List String) (got : String)
  | procedureAsVariable (name : String)
  | variableAsProcedure (name : String)
  | tooFewOperands
  | noComparison
  | comparatorCount (expected got : Nat)
  | notOneArgument
  | unpackCount (expected got : Nat)
  | unsupported (construct : Construct)
  | missingName (name : String)
  deriving DecidableEq, Repr

structure Diagnostic where
  fault : Fault
  line : Nat
  deriving DecidableEq, Repr

/-! ## Wording -/

def Site.description : Site → String
  | .variable name => s!"'{name}'"
  | .result procedure => s!"return value of '{procedure}'"
  | .returns => "return value"
  | .elements => "array elements"
  | .arguments builtin => s!"arguments of '{builtin}'"

def Construct.description : Construct → String
  | .node label => s!"'{label}'"
  | .operation label => s!"operation '{label}'"
  | .conflict site existing candidate =>
      s!"multiple types for {site.description} ({existing.name}, {candidate.name})"
  | .keywordArguments => "keyword arguments"
  | .methodCall attr => s!"method call '.{attr}'"
  | .callOf label => s!"call of '{label}'"
  | .attributeAccess attr => s!"attribute access '.{attr}'"
  | .assignmentToBuiltin name => s!"assignment to builtin '{name}'"
  | .sliceAsIndex => "slice as array index"
  | .sliceWithBounds => "slice with bounds"
  | .typeHint name => s!"type annotation '{name}'"
  | .typeHintKind label => s!"type annotation of kind '{label}'"
  | .decorator procedure => s!"decorator on '{procedure}'"
  | .variadicParameters procedure => s!"variadic parameters of '{procedure}'"
  | .restrictedParameters procedure =>
      s!"positional-only or keyword-only parameters of '{procedure}'"
  | .defaultValues procedure => s!"default parameter values of '{procedure}'"
  | .hintedTarget label => s!"annotated assignment to '{label}'"
  | .unpackingOf label => s!"unpacking of '{label}'"
  | .elseBlock label => s!"else-block in '{label}'"
  | .loopNotOverRange => "for (only 'in range' is supported)"
  | .rangeArguments count => s!"range with {count} arguments"
  | .builtinStatement name => s!"builtin function '{name}'"
  | .expressionStatement => "expression statement (only 'Call' is supported)"

def Fault.description : Fault → String
  | .unexpectedKind accepted got =>
      let kinds := String.intercalate "'/'" accepted
      s!"Expected '{kinds}' type, got '{got}'"
  | .procedureAsVariable name => s!"Expected variable '{name}', got procedure"
  | .variableAsProcedure name => s!"Expected procedure '{name}', got variable"
  | .tooFewOperands => "Expected at least two operands"
  | .noComparison => "Expected at least one comparison"
  | .comparatorCount expected got => s!"Expected {expected} comparators, got {got}"
  | .notOneArgument => "Expected exactly one argument"
  | .unpackCount expected got => s!"Expected {expected} values, got {got}"
  | .unsupported construct => s!"Unsupported {construct.description}"
  | .missingName name => s!"Missing name '{name}'"

def Diagnostic.message (d : Diagnostic) : String :=
  s!"{d.fault.description} at line {d.line}"

/-! ## Kinds -/

inductive Fault.Kind where
  | structural | unsupported | missingName
  deriving DecidableEq, Repr

def Fault.kind : Fault → Fault.Kind
  | .unsupported _ => .unsupported
  | .missingName _ => .missingName
  | _ => .structural

def Fault.Kind.name : Fault.Kind → String
  | .structural => "Structural"
  | .unsupported => "Unsupported"
  | .missingName => "MissingName"

def Fault.isConflict : Fault → Bool
  | .unsupported (.conflict ..) => true
  | _ => false

namespace Diagnostic

def kind (d : Diagnostic) : Fault.Kind := d.fault.kind

/-- Assigning to a missing name declares it, so nothing else is lost by one. -/
def recoverable (d : Diagnostic) : Bool := d.kind = .missingName

def unsupported (construct : Construct) (line : Nat) : Diagnostic :=
  ⟨.unsupported construct, line⟩

def conflict (site : Site) (types : Ty.Conflict) (line : Nat) : Diagnostic :=
  ⟨.unsupported (.conflict site types.existing types.candidate), line⟩

def requireKind (accepted : List String) (label : String) (line : Nat) :
    Except Diagnostic Unit :=
  if label ∈ accepted then .ok () else .error ⟨.unexpectedKind accepted label, line⟩

end Diagnostic

end TypedPseudocode
