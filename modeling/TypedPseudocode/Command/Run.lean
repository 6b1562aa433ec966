import TypedPseudocode.Command.Options
import TypedPseudocode.Document.Isolation
import TypedPseudocode.Document.Json
import TypedPseudocode.Signature.Json
import TypedPseudocode.Translation
import TypedPseudocode.Tree.Reader

/-!
A run of the command: options, tree, signatures, lowering, isolation, text.

What is outside of the program is a `World` over any monad; it only gives out
the contents of files and of standard input.
-/

namespace TypedPseudocode.Command

/-- Where texts are read from; the error is the reason in words. -/
structure World (m : Type → Type) where
  contents : String → m (Except String String)
  input : m (Except String String)

inductive Failure where
  | unreadableConfig (path reason : String)
  | invalidConfig (path : String)
  | unreadableInput (reason : String)
  | unreadableTree (path reason : String)
  | malformedTree (path : String)
  | unreadableSignatures (path reason : String)
  | invalidSignatures (path : String)
  | notLowered (path : String) (diagnostic : Diagnostic)
  | noProcedure (name : String)
  deriving DecidableEq, Repr

def Failure.message : Failure → String
  | .unreadableConfig path reason => s!"cannot read config file {path}: {reason}"
  | .invalidConfig path => s!"invalid config file {path}"
  | .unreadableInput reason => s!"cannot read standard input: {reason}"
  | .unreadableTree path reason => s!"cannot read {path}: {reason}"
  | .malformedTree path => s!"malformed syntax tree in {path}"
  | .unreadableSignatures path reason => s!"cannot read signature file {path}: {reason}"
  | .invalidSignatures path => s!"invalid signature file {path}"
  | .notLowered path diagnostic => s!"cannot translate {path}: {diagnostic.message}"
  | .noProcedure name => s!"no procedure named '{name}'"

structure Report where
  log : List (Verbosity × String)
  result : Except Failure String

/-! ## Reading -/

def extension? (path : String) : Option String := do
  let parts := (path.toList.splitOn '/').filter fun part => part ≠ [] ∧ part ≠ ['.']
  let name ← parts.getLast?
  let after := name.reverse.takeWhile (· ≠ '.')
  let before := (name.reverse.drop after.length).drop 1
  if name = ['.', '.'] ∨ before = [] then none else some (String.ofList after.reverse)

/-- In TOML a signature that is given as a list may be longer than its fields. -/
def signaturesOfToml? (text : String) : Option SignatureTable := do
  let draft ← Toml.ofText? text
  SignatureTable.ofJson? (← (draft.prune .dropped SignatureTable.shape).value?)

def signaturesOfText? (path text : String) : Option SignatureTable :=
  if extension? path = some "toml" then signaturesOfToml? text
  else SignatureTable.ofText? text

section

variable {m : Type → Type} [Monad m] (world : World m)

def readOptions (config : Option String) : m (Except Failure Options) := do
  match config with
  | none => return .ok .default
  | some path =>
      match ← world.contents path with
      | .error reason => return .error (.unreadableConfig path reason)
      | .ok text => return (Options.ofText? text).elim (.error (.invalidConfig path)) .ok

def readTreeText (path : String) : m (Except Failure String) := do
  if path = "-" then return (← world.input).mapError .unreadableInput
  else return (← world.contents path).mapError (.unreadableTree path)

def readTree (path : String) : m (Except Failure Tree.Root) := do
  match ← readTreeText world path with
  | .error failure => return .error failure
  | .ok text => return (Tree.Root.ofText? text).elim (.error (.malformedTree path)) .ok

def readSignatures (path : Option String) : m (Except Failure SignatureTable) := do
  match path with
  | none => return .ok OrderedMap.empty
  | some path =>
      match ← world.contents path with
      | .error reason => return .error (.unreadableSignatures path reason)
      | .ok text =>
          return (signaturesOfText? path text).elim (.error (.invalidSignatures path)) .ok

end

/-! ## Working -/

def render (a : Arguments) (o : Options) (d : Document String) : Except Failure String := do
  let d ← match a.procedure with
    | none => .ok d
    | some name => (d.isolate? name).elim (.error (.noProcedure name)) .ok
  return if o.compact then d.toJson.compact else d.toJson.pretty

def conclude {σ : Type} (a : Arguments) (o : Options)
    (outcome : Outcome (Translation String) σ String) :
    List (Event String) × Except Failure String :=
  match outcome.result with
  | .error diagnostic => (outcome.events, .error (.notLowered a.input diagnostic))
  | .ok x =>
      (outcome.events ++ [.finishedCalls x.called.length x.captured.size],
        render a o x.document)

section

variable {m : Type → Type} [Monad m] (world : World m)

def work (a : Arguments) (o : Options) (ids : IdStream) :
    m (List (Event String) × Except Failure String) := do
  match ← readTree world a.input with
  | .error failure => return ([], .error failure)
  | .ok root =>
      match ← readSignatures world o.signatures with
      | .error failure => return ([], .error failure)
      | .ok signatures => return conclude a o (Lowering.translate ids signatures root)

/-- Run the command; `fresh` are the ids of runs that do not ask for sequential ones. -/
def run (fresh : IdStream) (a : Arguments) : m Report := do
  match ← readOptions world a.config with
  | .error failure => return ⟨[], .error failure⟩
  | .ok options =>
      let options := options.override a
      let ids := if options.sequentialIds then IdStream.sequential IdStream.defaultStem else fresh
      let (events, result) ← work world a options ids
      let told := (Event.started Document.version :: events).filter
        (Event.isTold options.verbosity)
      return ⟨told.map fun event => (event.level, event.message), result⟩

end

def versionText : String := s!"pseudocode {Document.version}"

end TypedPseudocode.Command
