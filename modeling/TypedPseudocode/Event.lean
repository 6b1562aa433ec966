import TypedPseudocode.Ty.Name

/-!
Events: what a run tells about its progress.  Each has a level, and a message
that names declarations by their ids.
-/

namespace TypedPseudocode

/-- How much is told: each level includes those before it. -/
inductive Verbosity where
  | off | error | warn | info | debug | trace
  deriving DecidableEq, Repr

namespace Verbosity

def all : List Verbosity := [.off, .error, .warn, .info, .debug, .trace]

def name : Verbosity → String
  | .off => "OFF"
  | .error => "ERROR"
  | .warn => "WARN"
  | .info => "INFO"
  | .debug => "DEBUG"
  | .trace => "TRACE"

def rank : Verbosity → Nat
  | .off => 0
  | .error => 1
  | .warn => 2
  | .info => 3
  | .debug => 4
  | .trace => 5

def ofName? (text : String) : Option Verbosity :=
  all.find? (·.name = String.ofList (text.toList.map Char.toUpper))

end Verbosity

inductive Event (ι : Type := Nat) where
  | enteredScope (depth : Nat)
  | leftScope (depth : Nat)
  | declaredProcedure (name : String) (id : ι) (ty : Ty)
  | declaredVariable (name : String) (id : ι) (ty : Ty)
  | capturedSignature (name : String)
  | reachedStatement (label : String) (line : Nat)
  | ignoredStatement (label : String) (line : Nat)
  | droppedCall (name : String) (line : Nat)
  | reachedBody (procedure : String)
  | wrappedEntry
  | finishedModule (procedures vars signatures : Nat)
  | finishedCalls (called captured : Nat)
  | started (version : String)
  deriving DecidableEq, Repr

namespace Event

variable {ι : Type}

def level : Event ι → Verbosity
  | .enteredScope _ | .leftScope _ | .reachedStatement .. | .ignoredStatement ..
  | .droppedCall .. => .trace
  | .declaredProcedure .. | .declaredVariable .. | .capturedSignature _ | .reachedBody _
  | .wrappedEntry | .started _ => .debug
  | .finishedModule .. | .finishedCalls .. => .info

def message : Event String → String
  | .enteredScope depth => s!"entered scope at depth {depth}"
  | .leftScope depth => s!"left scope, now at depth {depth}"
  | .declaredProcedure name id ty =>
      s!"declared procedure {name} as {id} with type {ty.name}"
  | .declaredVariable name id ty =>
      s!"declared variable {name} as {id} with type {ty.name}"
  | .capturedSignature name => s!"captured call signature of {name}"
  | .reachedStatement label line => s!"translating {label} at line {line}"
  | .ignoredStatement label line => s!"ignored {label} at line {line}"
  | .droppedCall name line => s!"dropped call of {name} at line {line}"
  | .reachedBody procedure => s!"translating body of {procedure}"
  | .wrappedEntry => "wrapped top-level statements in the entry procedure"
  | .finishedModule procedures vars signatures =>
      s!"translated module: {procedures} procedures, {vars} variables, " ++
        s!"{signatures} supplied signatures"
  | .finishedCalls called captured =>
      s!"{called} called procedure(s), {captured} captured signature(s)"
  | .started version => s!"pseudocode version {version}"

def isTold (verbosity : Verbosity) (e : Event ι) : Bool := e.level.rank ≤ verbosity.rank

end Event

end TypedPseudocode
