import TypedPseudocode.Diagnostic
import TypedPseudocode.Tree

/-!
The names that Python itself provides, and what is known of their types.
-/

namespace TypedPseudocode.Builtin

def functions : List String :=
  ["abs", "all", "any", "ascii", "bin", "bool", "breakpoint", "bytearray", "bytes",
    "callable", "chr", "classmethod", "compile", "complex", "delattr", "dict", "dir",
    "divmod", "enumerate", "eval", "exec", "filter", "float", "format", "frozenset",
    "getattr", "globals", "hasattr", "hash", "help", "hex", "id", "input", "int",
    "isinstance", "issubclass", "iter", "len", "list", "locals", "map", "max",
    "memoryview", "min", "next", "object", "oct", "open", "ord", "pow", "print",
    "property", "range", "repr", "reversed", "round", "set", "setattr", "slice",
    "sorted", "staticmethod", "str", "sum", "super", "tuple", "type", "vars", "zip",
    "__import__"]

def isFunction (name : String) : Bool := name ∈ functions

/-- Calls of these are dropped where they stand as statements. -/
def isIgnored (name : String) : Bool := name = "print"

def variableTy? : String → Option Ty
  | "int" | "float" | "str" | "bool" | "list" => some .type
  | "__name__" | "__file__" => some .string
  | _ => none

/-- The result type of a call; only extrema over several arguments can fail. -/
def resultTy (name : String) (arguments : List Ty) : Except Ty.Conflict Ty :=
  let first := arguments.head?.getD .unknown
  match name with
  | "round" => .ok (if arguments.length > 1 then .double else .int)
  | "len" | "int" | "ord" | "hash" | "id" => .ok .int
  | "float" => .ok .double
  | "str" | "chr" | "input" | "repr" | "ascii" | "bin" | "hex" | "oct" | "format" => .ok .string
  | "bool" | "all" | "any" | "callable" | "isinstance" | "issubclass" | "hasattr" => .ok .boolean
  | "print" => .ok .void
  | "range" => .ok (.array .int)
  | "abs" => .ok first
  | "min" | "max" => if arguments.length = 1 then .ok first.element else Ty.unifyAll arguments
  | "sum" => .ok first.element
  | "sorted" | "reversed" | "list" => .ok (.array first.element)
  | _ => .ok .unknown

def callTy (name : String) (arguments : List Ty) (line : Nat) : Except Diagnostic Ty :=
  (resultTy name arguments).mapError (Diagnostic.conflict (.arguments name) · line)

/-! ## Type hints -/

def isListName (e : Tree.Expr) : Bool :=
  e.identifier? = some "list" || e.identifier? = some "List"

def hintNameTy? : String → Option Ty
  | "int" => some .int
  | "float" => some .double
  | "str" => some .string
  | "bool" => some .boolean
  | "list" | "List" => some (.array .unknown)
  | _ => none

def hintTy : Tree.Expr → Except Diagnostic Ty
  | .name line id _ =>
      match hintNameTy? id with
      | some ty => .ok ty
      | none => .error (.unsupported (.typeHint id) line)
  | .constant _ .null | .nameConstant _ .null => .ok .void
  | e@(.subscript line value slice _) =>
      if isListName value then
        match slice with
        | .index _ element => (hintTy element).map .array
        | element => (hintTy element).map .array
      else .error (.unsupported (.typeHintKind e.label) line)
  | e => .error (.unsupported (.typeHintKind e.label) e.line)

def hintTy? : Option Tree.Expr → Except Diagnostic (Option Ty)
  | none => .ok none
  | some e => (hintTy e).map some

end TypedPseudocode.Builtin
