import TypedPseudocode.Command.Arguments
import TypedPseudocode.Event
import TypedPseudocode.Json.Fields
import TypedPseudocode.Toml.Reader

/-!
The options of a run: those of the options file, unless the arguments say more.
-/

namespace TypedPseudocode.Command

structure Options where
  verbosity : Verbosity
  compact : Bool
  sequentialIds : Bool
  signatures : Option String
  deriving DecidableEq, Repr

namespace Options

def default : Options := ⟨.warn, false, false, none⟩

def keys : List String := ["verbosity_level", "compact", "sequential_ids", "signatures"]

/-- A level is a word, or that word as the only key of a table over an empty table. -/
def level? : Json → Option Verbosity
  | .str text => Verbosity.ofName? text
  | .obj [(text, .obj [])] => Verbosity.ofName? text
  | _ => none

def ofJson? : Json → Option Options
  | .obj members => do
      if members.all (·.1 ∈ keys) then
        let verbosity ← Json.defaulted members "verbosity_level" level? default.verbosity
        let compact ← Json.defaulted members "compact" Json.flag? default.compact
        let sequentialIds ← Json.defaulted members "sequential_ids" Json.flag?
          default.sequentialIds
        let signatures ← Json.defaulted members "signatures" (fun v => v.text?.map some)
          default.signatures
        return ⟨verbosity, compact, sequentialIds, signatures⟩
      else none
  | _ => none

def ofText? (text : String) : Option Options := do
  ofJson? (← (← Toml.ofText? text).value?)

def override (o : Options) (a : Arguments) : Options where
  verbosity := if a.verbose then .debug else o.verbosity
  compact := o.compact || a.compact
  sequentialIds := o.sequentialIds || a.sequentialIds
  signatures := a.signatures <|> o.signatures

end Options

end TypedPseudocode.Command
