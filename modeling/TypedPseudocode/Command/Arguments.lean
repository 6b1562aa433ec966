/-!
The arguments of the command.

Arguments act from left to right, and the first that ends the reading wins: a
mistake, or the wish to see the version or the help.  Settings take a value,
which is attached or is the next argument; switches take none.  Nothing may be
given twice.
-/

namespace TypedPseudocode.Command

inductive Setting where
  | procedure
  | signatures
  | config
  deriving DecidableEq, Repr

inductive Switch where
  | compact
  | sequentialIds
  | verbose
  | version
  | help
  deriving DecidableEq, Repr

structure Name where
  long : String
  short : Option Char
  deriving DecidableEq, Repr

def Setting.all : List Setting := [.procedure, .signatures, .config]

def Setting.name : Setting → Name
  | .procedure => ⟨"procedure", some 'p'⟩
  | .signatures => ⟨"signatures", some 's'⟩
  | .config => ⟨"config", some 'c'⟩

def Switch.all : List Switch := [.compact, .sequentialIds, .verbose, .version, .help]

def Switch.name : Switch → Name
  | .compact => ⟨"compact", none⟩
  | .sequentialIds => ⟨"sequential-ids", none⟩
  | .verbose => ⟨"verbose", some 'v'⟩
  | .version => ⟨"version", some 'V'⟩
  | .help => ⟨"help", some 'h'⟩

structure Arguments where
  input : String
  procedure : Option String
  signatures : Option String
  config : Option String
  compact : Bool
  sequentialIds : Bool
  verbose : Bool
  deriving DecidableEq, Repr

inductive Stop where
  | mistake
  | version
  | help
  deriving DecidableEq, Repr

structure Draft where
  input : Option String := none
  procedure : Option String := none
  signatures : Option String := none
  config : Option String := none
  compact : Bool := false
  sequentialIds : Bool := false
  verbose : Bool := false
  deriving DecidableEq, Repr

namespace Draft

def fill (place : Option String) (value : String) : Except Stop (Option String) :=
  match place with
  | none => .ok (some value)
  | some _ => .error .mistake

def fillPath (place : Option String) (value : String) : Except Stop (Option String) :=
  if value.isEmpty then .error .mistake else fill place value

def turnOn (place : Bool) : Except Stop Bool :=
  if place then .error .mistake else .ok true

def setInput (d : Draft) (value : String) : Except Stop Draft := do
  return { d with input := ← fillPath d.input value }

def set (d : Draft) (value : String) : Setting → Except Stop Draft
  | .procedure => do return { d with procedure := ← fill d.procedure value }
  | .signatures => do return { d with signatures := ← fillPath d.signatures value }
  | .config => do return { d with config := ← fillPath d.config value }

def switch (d : Draft) : Switch → Except Stop Draft
  | .compact => do return { d with compact := ← turnOn d.compact }
  | .sequentialIds => do return { d with sequentialIds := ← turnOn d.sequentialIds }
  | .verbose => do return { d with verbose := ← turnOn d.verbose }
  | .version => .error .version
  | .help => .error .help

abbrev Waiting := Draft × Option Setting

def readLong (d : Draft) (text : List Char) : Except Stop Waiting :=
  let name := String.ofList (text.takeWhile (· ≠ '='))
  let value := match text.dropWhile (· ≠ '=') with
    | [] => none
    | _ :: value => some (String.ofList value)
  match Switch.all.find? (·.name.long = name), Setting.all.find? (·.name.long = name), value with
  | some switch, _, none => do return (← d.switch switch, none)
  | none, some setting, some value => do return (← d.set value setting, none)
  | none, some setting, none => .ok (d, some setting)
  | _, _, _ => .error .mistake

def attached : List Char → String
  | '=' :: value => String.ofList value
  | value => String.ofList value

/-- Letters after one hyphen: switches, and at the end a setting with what is left as its value. -/
def readShort (d : Draft) : List Char → Except Stop Waiting
  | [] => .ok (d, none)
  | c :: rest =>
      match Switch.all.find? (·.name.short = some c),
        Setting.all.find? (·.name.short = some c) with
      | some switch, _ => do readShort (← d.switch switch) rest
      | none, some setting =>
          if rest.isEmpty then .ok (d, some setting)
          else do return (← d.set (attached rest) setting, none)
      | none, none => .error .mistake

def readOne (d : Draft) (argument : String) : Except Stop Waiting :=
  match argument.toList with
  | '-' :: '-' :: text => readLong d text
  | '-' :: c :: text => readShort d (c :: text)
  | _ => do return (← d.setInput argument, none)

def looksLikeOption (argument : String) : Bool :=
  match argument.toList with
  | '-' :: _ :: _ => true
  | _ => false

/-- After two hyphens alone everything is input. -/
def readAll (d : Draft) : List String → Except Stop Draft
  | [] => .ok d
  | argument :: rest =>
      if argument = "--" then rest.foldlM setInput d
      else do
        let (d, waiting) ← readOne d argument
        match waiting with
        | none => readAll d rest
        | some setting =>
            match rest with
            | [] => .error .mistake
            | value :: rest =>
                if looksLikeOption value then .error .mistake
                else readAll (← d.set value setting) rest

end Draft

def Arguments.read (environment : Option String) (arguments : List String) :
    Except Stop Arguments := do
  let d ← Draft.readAll {} arguments
  let config ← match d.config, environment with
    | none, some path => Draft.fillPath none path
    | config, _ => .ok config
  match d.input with
  | none => .error .mistake
  | some input =>
      return ⟨input, d.procedure, d.signatures, config, d.compact, d.sequentialIds, d.verbose⟩

end TypedPseudocode.Command
