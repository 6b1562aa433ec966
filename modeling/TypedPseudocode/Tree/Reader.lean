import TypedPseudocode.Json.Fields
import TypedPseudocode.Json.Reader
import TypedPseudocode.Tree

/-!
Source trees from JSON.

A node is an object whose `_type` member holds the grammar label and whose
other members are the fields of that kind; members that the kind does not use
are not looked at, whatever they hold.  Reading is a fold: every value is read
once, from the leaves up, as the expression and as the statement it can stand
for, so that a node only has to pick the readings of its members.
-/

namespace TypedPseudocode.Tree

inductive Reading where
  | scalar (value : Json)
  | array (elements : List Reading)
  | object (members : List (String × Reading)) (expr : Option Expr) (stmt : Option Stmt)

abbrev Members := List (String × Reading)

namespace Reading

variable {α : Type}

def text? : Reading → Option String
  | .scalar (.str text) => some text
  | _ => none

def line? : Reading → Option Nat
  | .scalar (.int n) => if 0 ≤ n ∧ n.toNat < UInt32.size then some n.toNat else none
  | _ => none

def constant? : Reading → Option Constant
  | .scalar v => Constant.ofJson? v
  | _ => none

def expr? : Reading → Option Expr
  | .object _ expr _ => expr
  | _ => none

def stmt? : Reading → Option Stmt
  | .object _ _ stmt => stmt
  | _ => none

def list? (read : Reading → Option α) : Reading → Option (List α)
  | .array elements => elements.mapM read
  | _ => none

def nullable? (read : Reading → Option α) : Reading → Option (Option α)
  | .scalar .null => some none
  | r => (read r).map some

def members? (fields : List String) : Reading → Option Members
  | .object members _ _ => some members
  | .array elements => Json.positional fields elements
  | .scalar _ => none

/-! ## Labels -/

variable [Labelled α]

def name? : Reading → Option α
  | .scalar (.str text) => Labelled.ofLabel? text
  | _ => none

def nameOrIndex? : Reading → Option α
  | .scalar (.str text) => Labelled.ofLabel? text
  | .scalar (.int n) => if 0 ≤ n then Labelled.ofIndex? n.toNat else none
  | _ => none

def alone? (r : Reading) : Option α := do
  Json.required (← r.members? ["_type"]) "_type" name?

/-- Within a node an operator or context may also be given by its place. -/
def inner? (r : Reading) : Option α := do
  Json.required (← r.members? ["_type"]) "_type" nameOrIndex?

end Reading

/-! ## Parts of nodes -/

def Keyword.fields : List String := ["arg"]

def Keyword.read (r : Reading) : Option Keyword := do
  let ms ← r.members? fields
  let name ← Json.defaulted ms "arg" (Reading.nullable? Reading.text?) none
  return ⟨name⟩

def Parameter.fields : List String := ["arg", "annotation", "lineno"]

def Parameter.read (r : Reading) : Option Parameter := do
  let ms ← r.members? fields
  let name ← Json.required ms "arg" Reading.text?
  let typeHint ← Json.defaulted ms "annotation" (Reading.nullable? Reading.expr?) none
  let line ← Json.defaulted ms "lineno" Reading.line? 0
  return ⟨name, typeHint, line⟩

def Parameters.fields : List String :=
  ["posonlyargs", "args", "vararg", "kwonlyargs", "kwarg", "defaults"]

def Parameters.read (r : Reading) : Option Parameters := do
  let ms ← r.members? fields
  let several := Reading.list? Parameter.read
  let single := Reading.nullable? Parameter.read
  let positionalOnly ← Json.defaulted ms "posonlyargs" several []
  let positional ← Json.defaulted ms "args" several []
  let variadic ← Json.defaulted ms "vararg" single none
  let keywordOnly ← Json.defaulted ms "kwonlyargs" several []
  let keywordVariadic ← Json.defaulted ms "kwarg" single none
  let defaults ← Json.defaulted ms "defaults" (Reading.list? Reading.expr?) []
  return ⟨positionalOnly, positional, variadic, keywordOnly, keywordVariadic, defaults⟩

/-! ## Nodes -/

namespace Members

def line? (ms : Members) : Option Nat := Json.defaulted ms "lineno" Reading.line? 0

def text? (ms : Members) (field : String) : Option String :=
  Json.required ms field Reading.text?

def expr? (ms : Members) (field : String) : Option Expr :=
  Json.required ms field Reading.expr?

def exprs? (ms : Members) (field : String) : Option (List Expr) :=
  Json.required ms field (Reading.list? Reading.expr?)

def maybeExpr? (ms : Members) (field : String) : Option (Option Expr) :=
  Json.defaulted ms field (Reading.nullable? Reading.expr?) none

def maybeExprs? (ms : Members) (field : String) : Option (List Expr) :=
  Json.defaulted ms field (Reading.list? Reading.expr?) []

def stmts? (ms : Members) (field : String) : Option (List Stmt) :=
  Json.required ms field (Reading.list? Reading.stmt?)

def maybeStmts? (ms : Members) (field : String) : Option (List Stmt) :=
  Json.defaulted ms field (Reading.list? Reading.stmt?) []

def maybeConstant? (ms : Members) (field : String) : Option Constant :=
  Json.defaulted ms field Reading.constant? .null

def operator? {α : Type} [Labelled α] (ms : Members) (field : String) : Option α :=
  Json.required ms field Reading.inner?

def context? (ms : Members) : Option Context :=
  Json.defaulted ms "ctx" Reading.inner? .load

end Members

def Expr.ofFields? (ms : Members) (line : Nat) : ExprKind → Option Expr
  | .boolOp => do return .boolOp line (← ms.operator? "op") (← ms.exprs? "values")
  | .binOp => do
      return .binOp line (← ms.expr? "left") (← ms.operator? "op") (← ms.expr? "right")
  | .unaryOp => do return .unaryOp line (← ms.operator? "op") (← ms.expr? "operand")
  | .compare => do
      let ops ← Json.required ms "ops" (Reading.list? Reading.inner?)
      return .compare line (← ms.expr? "left") ops (← ms.exprs? "comparators")
  | .call => do
      let keywords ← Json.defaulted ms "keywords" (Reading.list? Keyword.read) []
      return .call line (← ms.expr? "func") (← ms.maybeExprs? "args") keywords
  | .constant => do return .constant line (← ms.maybeConstant? "value")
  | .num => do return .num line (← Json.required ms "n" Reading.constant?)
  | .str => do return .str line (← ms.text? "s")
  | .nameConstant => do return .nameConstant line (← ms.maybeConstant? "value")
  | .attribute => do
      return .attribute line (← ms.expr? "value") (← ms.text? "attr") (← ms.context?)
  | .subscript => do
      return .subscript line (← ms.expr? "value") (← ms.expr? "slice") (← ms.context?)
  | .name => do return .name line (← ms.text? "id") (← ms.context?)
  | .list => do return .list line (← ms.exprs? "elts") (← ms.context?)
  | .tuple => do return .tuple line (← ms.exprs? "elts") (← ms.context?)
  | .slice => do
      return .slice line (← ms.maybeExpr? "lower") (← ms.maybeExpr? "upper")
        (← ms.maybeExpr? "step")
  | .index => do return .index line (← ms.expr? "value")
  | .other kind => some (.other line kind)

def Expr.ofMembers? (ms : Members) : Option Expr := do
  let line ← ms.line?
  let kind ← Json.required ms "_type" Reading.nameOrIndex?
  Expr.ofFields? ms line kind

def Stmt.ofFields? (ms : Members) (line : Nat) : StmtKind → Option Stmt
  | .functionDef => do
      let parameters ← Json.required ms "args" Parameters.read
      return .functionDef line (← ms.text? "name") parameters (← ms.stmts? "body")
        (← ms.maybeExprs? "decorator_list") (← ms.maybeExpr? "returns")
  | .ret => do return .ret line (← ms.maybeExpr? "value")
  | .assign => do return .assign line (← ms.exprs? "targets") (← ms.expr? "value")
  | .augAssign => do
      return .augAssign line (← ms.expr? "target") (← ms.operator? "op") (← ms.expr? "value")
  | .annAssign => do
      return .annAssign line (← ms.expr? "target") (← ms.expr? "annotation")
        (← ms.maybeExpr? "value")
  | .forLoop => do
      return .forLoop line (← ms.expr? "target") (← ms.expr? "iter") (← ms.stmts? "body")
        (← ms.maybeStmts? "orelse")
  | .whileLoop => do
      return .whileLoop line (← ms.expr? "test") (← ms.stmts? "body")
        (← ms.maybeStmts? "orelse")
  | .branch => do
      return .branch line (← ms.expr? "test") (← ms.stmts? "body") (← ms.maybeStmts? "orelse")
  | .raise => do return .raise line (← ms.maybeExpr? "exc")
  | .expression => do return .expression line (← ms.expr? "value")
  | .other kind => some (.other line kind)

def Stmt.ofMembers? (ms : Members) : Option Stmt := do
  let line ← ms.line?
  let kind ← Json.required ms "_type" Reading.nameOrIndex?
  Stmt.ofFields? ms line kind

/-! ## The fold -/

mutual

def Reading.ofJson : Json → Reading
  | .arr values => .array (Reading.ofElements values)
  | .obj members =>
      let ms := Reading.ofMembers members
      .object ms (Expr.ofMembers? ms) (Stmt.ofMembers? ms)
  | v => .scalar v

def Reading.ofElements : List Json → List Reading
  | [] => []
  | v :: vs => Reading.ofJson v :: Reading.ofElements vs

def Reading.ofMembers : List (String × Json) → Members
  | [] => []
  | (key, v) :: ms => (key, Reading.ofJson v) :: Reading.ofMembers ms

end

/-! ## Roots -/

def Root.ofFields? (fields : List String → Option Members) : RootKind → Option Root
  | .module => do return .module (← (← fields ["body"]).stmts? "body")
  | .interactive => do return .interactive (← (← fields ["body"]).stmts? "body")
  | .expression => do return .expression (← (← fields ["body"]).expr? "body")
  | .functionType => do
      let _ ← fields []
      return .functionType

/-- Roots may also be lists of the label and the fields. -/
def Root.read : Reading → Option Root
  | .object ms _ _ => do
      let kind ← Json.required ms "_type" Reading.name?
      Root.ofFields? (fun _ => some ms) kind
  | .array (label :: values) => do
      let kind ← label.name?
      Root.ofFields? (fun fields => Json.positional fields values) kind
  | _ => none

def Root.ofJson? (v : Json) : Option Root := Root.read (Reading.ofJson v)

def Root.ofText? (text : String) : Option Root := do
  Root.ofJson? (← Json.ofText? Json.maxDepth text)

/-! ## Parts that stand alone -/

def Keyword.shape : Json.Shape := .plain Keyword.fields

def Parameter.shape : Json.Shape := .plain Parameter.fields

def Parameters.shape : Json.Shape :=
  .record [("posonlyargs", .list Parameter.shape), ("args", .list Parameter.shape),
    ("vararg", Parameter.shape), ("kwonlyargs", .list Parameter.shape),
    ("kwarg", Parameter.shape), ("defaults", .whole)]

/-- Only nodes are read as a whole; in other parts what no field asks for is passed over. -/
def Keyword.ofText? (text : String) : Option Keyword := do
  Keyword.read (Reading.ofJson (← Json.select? shape Json.maxDepth text))

def Parameter.ofText? (text : String) : Option Parameter := do
  Parameter.read (Reading.ofJson (← Json.select? shape Json.maxDepth text))

def Parameters.ofText? (text : String) : Option Parameters := do
  Parameters.read (Reading.ofJson (← Json.select? shape Json.maxDepth text))

def Expr.ofJson? (v : Json) : Option Expr := (Reading.ofJson v).expr?

def Stmt.ofJson? (v : Json) : Option Stmt := (Reading.ofJson v).stmt?

def Stmt.listOfJson? (v : Json) : Option (List Stmt) :=
  (Reading.ofJson v).list? Reading.stmt?

end TypedPseudocode.Tree
