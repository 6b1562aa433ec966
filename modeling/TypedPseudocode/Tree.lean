import TypedPseudocode.Constant

/-!
Source trees: the abstract syntax of Python modules.

Every node carries the line it was found on, zero if that is not known.  Kinds
of nodes that are never looked into are kept by their label alone.  Besides the
current grammar there are the kinds of older parsers: `Num`, `Str` and
`NameConstant` for constants, `Index` and `ExtSlice` in subscripts.
-/

namespace TypedPseudocode.Tree

/-- A finite vocabulary of grammar labels, in the order of the grammar. -/
class Labelled (α : Type) where
  all : List α
  label : α → String

namespace Labelled

variable {α : Type} [Labelled α]

def ofLabel? (text : String) : Option α := (all : List α).find? (label · = text)

def ofIndex? (index : Nat) : Option α := (all : List α)[index]?

end Labelled

/-! ## Operators and contexts -/

inductive Operator where
  | add | sub | mult | matMult | div | mod | pow
  | lShift | rShift | bitOr | bitXor | bitAnd | floorDiv
  deriving DecidableEq, Repr

instance : Labelled Operator where
  all := [.add, .sub, .mult, .matMult, .div, .mod, .pow,
    .lShift, .rShift, .bitOr, .bitXor, .bitAnd, .floorDiv]
  label
    | .add => "Add"
    | .sub => "Sub"
    | .mult => "Mult"
    | .matMult => "MatMult"
    | .div => "Div"
    | .mod => "Mod"
    | .pow => "Pow"
    | .lShift => "LShift"
    | .rShift => "RShift"
    | .bitOr => "BitOr"
    | .bitXor => "BitXor"
    | .bitAnd => "BitAnd"
    | .floorDiv => "FloorDiv"

inductive BoolOperator where
  | and | or
  deriving DecidableEq, Repr

instance : Labelled BoolOperator where
  all := [.and, .or]
  label
    | .and => "And"
    | .or => "Or"

inductive UnaryOperator where
  | invert | not | plus | minus
  deriving DecidableEq, Repr

instance : Labelled UnaryOperator where
  all := [.invert, .not, .plus, .minus]
  label
    | .invert => "Invert"
    | .not => "Not"
    | .plus => "UAdd"
    | .minus => "USub"

inductive Comparison where
  | eq | notEq | lt | le | gt | ge
  | identical | notIdentical | member | notMember
  deriving DecidableEq, Repr

instance : Labelled Comparison where
  all := [.eq, .notEq, .lt, .le, .gt, .ge, .identical, .notIdentical, .member, .notMember]
  label
    | .eq => "Eq"
    | .notEq => "NotEq"
    | .lt => "Lt"
    | .le => "LtE"
    | .gt => "Gt"
    | .ge => "GtE"
    | .identical => "Is"
    | .notIdentical => "IsNot"
    | .member => "In"
    | .notMember => "NotIn"

inductive Context where
  | load | store | del
  deriving DecidableEq, Repr

instance : Labelled Context where
  all := [.load, .store, .del]
  label
    | .load => "Load"
    | .store => "Store"
    | .del => "Del"

/-! ## Expressions -/

inductive OtherExpr where
  | namedExpr | lambda | ifExp | dict | set | listComp | setComp | dictComp | generatorExp
  | await | yield | yieldFrom | formattedValue | joinedStr | bytes | ellipsis | starred
  | extSlice
  deriving DecidableEq, Repr

def OtherExpr.label : OtherExpr → String
  | .namedExpr => "NamedExpr"
  | .lambda => "Lambda"
  | .ifExp => "IfExp"
  | .dict => "Dict"
  | .set => "Set"
  | .listComp => "ListComp"
  | .setComp => "SetComp"
  | .dictComp => "DictComp"
  | .generatorExp => "GeneratorExp"
  | .await => "Await"
  | .yield => "Yield"
  | .yieldFrom => "YieldFrom"
  | .formattedValue => "FormattedValue"
  | .joinedStr => "JoinedStr"
  | .bytes => "Bytes"
  | .ellipsis => "Ellipsis"
  | .starred => "Starred"
  | .extSlice => "ExtSlice"

inductive ExprKind where
  | boolOp | binOp | unaryOp | compare | call
  | constant | num | str | nameConstant
  | attribute | subscript | name | list | tuple | slice | index
  | other (kind : OtherExpr)
  deriving DecidableEq, Repr

instance : Labelled ExprKind where
  all := [.boolOp, .other .namedExpr, .binOp, .unaryOp, .other .lambda, .other .ifExp,
    .other .dict, .other .set, .other .listComp, .other .setComp, .other .dictComp,
    .other .generatorExp, .other .await, .other .yield, .other .yieldFrom, .compare, .call,
    .other .formattedValue, .other .joinedStr, .constant, .num, .str, .nameConstant,
    .other .bytes, .other .ellipsis, .attribute, .subscript, .other .starred, .name, .list,
    .tuple, .slice, .index, .other .extSlice]
  label
    | .boolOp => "BoolOp"
    | .binOp => "BinOp"
    | .unaryOp => "UnaryOp"
    | .compare => "Compare"
    | .call => "Call"
    | .constant => "Constant"
    | .num => "Num"
    | .str => "Str"
    | .nameConstant => "NameConstant"
    | .attribute => "Attribute"
    | .subscript => "Subscript"
    | .name => "Name"
    | .list => "List"
    | .tuple => "Tuple"
    | .slice => "Slice"
    | .index => "Index"
    | .other kind => kind.label

/-- A keyword argument of a call; one without a name spreads a dictionary. -/
structure Keyword where
  name : Option String
  deriving DecidableEq, Repr

inductive Expr where
  | boolOp (line : Nat) (op : BoolOperator) (values : List Expr)
  | binOp (line : Nat) (left : Expr) (op : Operator) (right : Expr)
  | unaryOp (line : Nat) (op : UnaryOperator) (operand : Expr)
  | compare (line : Nat) (left : Expr) (ops : List Comparison) (comparators : List Expr)
  | call (line : Nat) (func : Expr) (args : List Expr) (keywords : List Keyword)
  | constant (line : Nat) (value : Constant)
  | num (line : Nat) (value : Constant)
  | str (line : Nat) (text : String)
  | nameConstant (line : Nat) (value : Constant)
  | attribute (line : Nat) (value : Expr) (attr : String) (ctx : Context)
  | subscript (line : Nat) (value slice : Expr) (ctx : Context)
  | name (line : Nat) (id : String) (ctx : Context)
  | list (line : Nat) (elements : List Expr) (ctx : Context)
  | tuple (line : Nat) (elements : List Expr) (ctx : Context)
  | slice (line : Nat) (lower upper step : Option Expr)
  | index (line : Nat) (value : Expr)
  | other (line : Nat) (kind : OtherExpr)
  deriving Repr

namespace Expr

def line : Expr → Nat
  | .boolOp line .. | .binOp line .. | .unaryOp line .. | .compare line .. | .call line ..
  | .constant line _ | .num line _ | .str line _ | .nameConstant line _
  | .attribute line .. | .subscript line .. | .name line .. | .list line .. | .tuple line ..
  | .slice line .. | .index line _ | .other line _ => line

def kind : Expr → ExprKind
  | .boolOp .. => .boolOp
  | .binOp .. => .binOp
  | .unaryOp .. => .unaryOp
  | .compare .. => .compare
  | .call .. => .call
  | .constant .. => .constant
  | .num .. => .num
  | .str .. => .str
  | .nameConstant .. => .nameConstant
  | .attribute .. => .attribute
  | .subscript .. => .subscript
  | .name .. => .name
  | .list .. => .list
  | .tuple .. => .tuple
  | .slice .. => .slice
  | .index .. => .index
  | .other _ kind => .other kind

def label (e : Expr) : String := Labelled.label e.kind

def identifier? : Expr → Option String
  | .name _ id _ => some id
  | _ => none

def elements? : Expr → Option (List Expr)
  | .list _ elements _ | .tuple _ elements _ => some elements
  | _ => none

end Expr

/-! ## Statements -/

structure Parameter where
  name : String
  typeHint : Option Expr
  line : Nat
  deriving Repr

def Parameter.label (_ : Parameter) : String := "arg"

structure Parameters where
  positionalOnly : List Parameter
  positional : List Parameter
  variadic : Option Parameter
  keywordOnly : List Parameter
  keywordVariadic : Option Parameter
  defaults : List Expr
  deriving Repr

inductive OtherStmt where
  | asyncFunctionDef | classDef | delete | asyncFor | withBlock | asyncWith | matchBlock
  | tryBlock | tryStar | assertion | importNames | importFrom | globalNames | nonlocalNames
  | pass | breakLoop | continueLoop
  deriving DecidableEq, Repr

def OtherStmt.label : OtherStmt → String
  | .asyncFunctionDef => "AsyncFunctionDef"
  | .classDef => "ClassDef"
  | .delete => "Delete"
  | .asyncFor => "AsyncFor"
  | .withBlock => "With"
  | .asyncWith => "AsyncWith"
  | .matchBlock => "Match"
  | .tryBlock => "Try"
  | .tryStar => "TryStar"
  | .assertion => "Assert"
  | .importNames => "Import"
  | .importFrom => "ImportFrom"
  | .globalNames => "Global"
  | .nonlocalNames => "Nonlocal"
  | .pass => "Pass"
  | .breakLoop => "Break"
  | .continueLoop => "Continue"

inductive StmtKind where
  | functionDef | ret | assign | augAssign | annAssign | forLoop | whileLoop | branch
  | raise | expression
  | other (kind : OtherStmt)
  deriving DecidableEq, Repr

instance : Labelled StmtKind where
  all := [.functionDef, .other .asyncFunctionDef, .other .classDef, .ret, .other .delete,
    .assign, .augAssign, .annAssign, .forLoop, .other .asyncFor, .whileLoop, .branch,
    .other .withBlock, .other .asyncWith, .other .matchBlock, .raise, .other .tryBlock,
    .other .tryStar, .other .assertion, .other .importNames, .other .importFrom,
    .other .globalNames, .other .nonlocalNames, .expression, .other .pass,
    .other .breakLoop, .other .continueLoop]
  label
    | .functionDef => "FunctionDef"
    | .ret => "Return"
    | .assign => "Assign"
    | .augAssign => "AugAssign"
    | .annAssign => "AnnAssign"
    | .forLoop => "For"
    | .whileLoop => "While"
    | .branch => "If"
    | .raise => "Raise"
    | .expression => "Expr"
    | .other kind => kind.label

inductive Stmt where
  | functionDef (line : Nat) (name : String) (parameters : Parameters) (body : List Stmt)
      (decorators : List Expr) (returns : Option Expr)
  | ret (line : Nat) (value : Option Expr)
  | assign (line : Nat) (targets : List Expr) (value : Expr)
  | augAssign (line : Nat) (target : Expr) (op : Operator) (value : Expr)
  | annAssign (line : Nat) (target typeHint : Expr) (value : Option Expr)
  | forLoop (line : Nat) (target iter : Expr) (body orelse : List Stmt)
  | whileLoop (line : Nat) (test : Expr) (body orelse : List Stmt)
  | branch (line : Nat) (test : Expr) (body orelse : List Stmt)
  | raise (line : Nat) (exception : Option Expr)
  | expression (line : Nat) (value : Expr)
  | other (line : Nat) (kind : OtherStmt)
  deriving Repr

namespace Stmt

def line : Stmt → Nat
  | .functionDef line .. | .ret line _ | .assign line .. | .augAssign line ..
  | .annAssign line .. | .forLoop line .. | .whileLoop line .. | .branch line ..
  | .raise line _ | .expression line _ | .other line _ => line

def kind : Stmt → StmtKind
  | .functionDef .. => .functionDef
  | .ret .. => .ret
  | .assign .. => .assign
  | .augAssign .. => .augAssign
  | .annAssign .. => .annAssign
  | .forLoop .. => .forLoop
  | .whileLoop .. => .whileLoop
  | .branch .. => .branch
  | .raise .. => .raise
  | .expression .. => .expression
  | .other _ kind => .other kind

def label (s : Stmt) : String := Labelled.label s.kind

end Stmt

/-! ## Roots -/

inductive RootKind where
  | module | interactive | expression | functionType
  deriving DecidableEq, Repr

instance : Labelled RootKind where
  all := [.module, .interactive, .expression, .functionType]
  label
    | .module => "Module"
    | .interactive => "Interactive"
    | .expression => "Expression"
    | .functionType => "FunctionType"

inductive Root where
  | module (body : List Stmt)
  | interactive (body : List Stmt)
  | expression (body : Expr)
  | functionType
  deriving Repr

namespace Root

def kind : Root → RootKind
  | .module _ => .module
  | .interactive _ => .interactive
  | .expression _ => .expression
  | .functionType => .functionType

def label (r : Root) : String := Labelled.label r.kind

end Root

end TypedPseudocode.Tree
