import TypedPseudocode.Document
import TypedPseudocode.Json

/-!
Documents as JSON.

Each node is an object that starts with its kind, under `Statement` or
`Expression`, and states its type by a name and a flag for arrays.
-/

namespace TypedPseudocode.Document

def typeMembers (ty : Ty.Published) : List (String × Json) :=
  [("type", .str ty.name), ("array", .bool ty.array)]

def Variable.toJson (v : Variable String) : Json :=
  .obj (("Statement", .str "Variable") :: ("uuid", .str v.id) :: ("id", .str v.name) ::
    typeMembers v.ty)

/-- A call as a statement; inside an expression it stands in the same form. -/
def callJson (procedure : String) (arguments : List Json) : Json :=
  .obj [("Statement", .str "Call"), ("procedure", .str procedure), ("arguments", .arr arguments)]

mutual

def Expression.toJson : Expression String → Json
  | .read target ty =>
      .obj (("Expression", .str "Variable") :: ("variable", .str target) :: typeMembers ty)
  | .readBuiltin name ty =>
      .obj (("Expression", .str "Variable") :: ("builtin", .str name) :: typeMembers ty)
  | .call procedure arguments ty =>
      .obj (("Expression", .str "Call") ::
        ("call", callJson procedure (Expression.listJson arguments)) :: typeMembers ty)
  | .callBuiltin name arguments ty =>
      .obj (("Expression", .str "Call") :: ("builtin", .str name) ::
        ("arguments", .arr (Expression.listJson arguments)) :: typeMembers ty)
  | .arrayLength target =>
      .obj (("Expression", .str "Array Length") :: ("target", Expression.toJson target) ::
        ("indexes", .arr []) :: typeMembers Ty.int.published)
  | .arrayElement target index ty =>
      .obj (("Expression", .str "Array Element") :: ("target", Expression.toJson target) ::
        ("indexes", .arr [Expression.toJson index]) :: typeMembers ty)
  | .literal value ty =>
      .obj (("Expression", .str "Literal") :: typeMembers ty ++ [("value", value.toJson)])
  | .aggregate elements ty =>
      .obj (("Expression", .str "Literal") :: typeMembers ty ++
        [("value", .arr (Expression.listJson elements))])
  | .binary op left right ty =>
      .obj (("Expression", .str "Binary Op") :: ("op", .str op.name) ::
        ("left", Expression.toJson left) :: ("right", Expression.toJson right) ::
        typeMembers ty)
  | .unary op operand ty =>
      .obj (("Expression", .str "Unary Op") :: ("op", .str op.name) ::
        ("expression", Expression.toJson operand) :: typeMembers ty)

def Expression.listJson : List (Expression String) → List Json
  | [] => []
  | e :: es => Expression.toJson e :: Expression.listJson es

end

mutual

def Statement.toJson : Statement String → Json
  | .declare declaration => declaration.toJson
  | .call procedure arguments => callJson procedure (Expression.listJson arguments)
  | .callBuiltin name arguments =>
      .obj [("Statement", .str "Call"), ("builtin", .str name),
        ("arguments", .arr (Expression.listJson arguments))]
  | .ret none => .obj [("Statement", .str "Return"), ("expression", .null)]
  | .ret (some value) =>
      .obj [("Statement", .str "Return"), ("expression", Expression.toJson value)]
  | .assign target value =>
      .obj [("Statement", .str "Assignment"), ("variable", .str target),
        ("expression", Expression.toJson value)]
  | .assignElement target indexes value =>
      .obj [("Statement", .str "Array Assignment"), ("target", .str target),
        ("indexes", .arr (Expression.listJson indexes)), ("expression", Expression.toJson value)]
  | .selection guard body alternative =>
      .obj [("Statement", .str "Selection"), ("guard", Expression.toJson guard),
        ("body", .arr (Statement.listJson body)),
        ("alternative", .arr (Statement.listJson alternative))]
  | .loop guard body =>
      .obj [("Statement", .str "Loop"), ("guard", Expression.toJson guard),
        ("body", .arr (Statement.listJson body))]
  | .breakLoop => .obj [("Statement", .str "Break")]
  | .continueLoop => .obj [("Statement", .str "Continue")]

def Statement.listJson : List (Statement String) → List Json
  | [] => []
  | s :: ss => Statement.toJson s :: Statement.listJson ss

end

def Procedure.toJson (p : Procedure String) : Json :=
  .obj (("Statement", .str "Procedure") :: ("uuid", .str p.id) ::
    ("id", p.name.elim .null .str) :: typeMembers p.ty ++
    [("parameters", .arr (p.parameters.map Variable.toJson)),
      ("body", .arr (Statement.listJson p.body))])

def toJson (d : Document String) : Json :=
  .obj [("format", .str format), ("version", .str version),
    ("constants", .arr (Statement.listJson d.constants)),
    ("procedures", .arr (d.procedures.map Procedure.toJson))]

end TypedPseudocode.Document
