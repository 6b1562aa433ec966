import TypedPseudocode.Tree

/-!
Mentions: where names are looked up.

A name may be looked up for its value, to be called, as an array that is written to,
or as the target of an augmented assignment.  Any other target is declared if it is
new, and is no mention.
-/

namespace TypedPseudocode

namespace Tree

inductive Use where
  | value (ctx : Context)
  | callee
  | array
  | augmented
  deriving DecidableEq, Repr

structure Mention where
  name : String
  line : Nat
  use : Use
  deriving DecidableEq, Repr

/-! ## Mentions in the source -/

def Expr.arrayMentions : Expr → List Mention
  | .name line id _ => [⟨id, line, .array⟩]
  | _ => []

/-- The array that a method writes to.  The only such method is `append`. -/
def Expr.methodMentions (target : Expr) (method : String) : List Mention :=
  if method = "append" then target.arrayMentions else []

mutual

/--
The names that are looked up while an expression is lowered.  Unknown methods are
refused whatever they are called on.
-/
def Expr.mentions : Expr → List Mention
  | .name line id ctx => [⟨id, line, .value ctx⟩]
  | .list _ elements _ | .tuple _ elements _ => Expr.mentionsAll elements
  | .boolOp _ _ values => Expr.mentionsAll values
  | .binOp _ left _ right => left.mentions ++ right.mentions
  | .compare _ left _ comparators => left.mentions ++ Expr.mentionsAll comparators
  | .unaryOp _ _ operand => operand.mentions
  | .call _ (.name line id _) args _ => Expr.mentionsAll args ++ [⟨id, line, .callee⟩]
  | .call _ (.attribute _ target method _) args _ =>
      target.methodMentions method ++ Expr.mentionsAll args
  | .subscript _ base position _ => base.mentions ++ position.mentions
  | .index _ value => value.mentions
  | _ => []

def Expr.mentionsAll : List Expr → List Mention
  | [] => []
  | e :: es => e.mentions ++ Expr.mentionsAll es

end

mutual

def Expr.targetMentions : Expr → List Mention
  | .subscript _ base position _ => base.arrayMentions ++ position.mentions
  | .list _ elements _ | .tuple _ elements _ => Expr.targetMentionsAll elements
  | _ => []

def Expr.targetMentionsAll : List Expr → List Mention
  | [] => []
  | e :: es => e.targetMentions ++ Expr.targetMentionsAll es

end

def Expr.augmentedMentions : Expr → List Mention
  | .name line id _ => [⟨id, line, .augmented⟩]
  | e => e.targetMentions

mutual

/--
The names that are looked up while a statement is lowered.  The bodies of
functions are lowered later.
-/
def Stmt.mentions : Stmt → List Mention
  | .ret _ value => (value.map Expr.mentions).getD []
  | .assign _ targets value => Expr.targetMentionsAll targets ++ value.mentions
  | .augAssign _ target _ value => target.augmentedMentions ++ value.mentions
  | .annAssign _ _ _ value => (value.map Expr.mentions).getD []
  | .branch _ test body orelse =>
      test.mentions ++ (Stmt.mentionsAll body ++ Stmt.mentionsInside body) ++
        (Stmt.mentionsAll orelse ++ Stmt.mentionsInside orelse)
  | .whileLoop _ test body _ =>
      test.mentions ++ (Stmt.mentionsAll body ++ Stmt.mentionsInside body)
  | .forLoop _ _ iter body _ =>
      iter.mentions ++ (Stmt.mentionsAll body ++ Stmt.mentionsInside body)
  | .expression _ value => value.mentions
  | _ => []

def Stmt.mentionsAll : List Stmt → List Mention
  | [] => []
  | s :: rest => s.mentions ++ Stmt.mentionsAll rest

def Stmt.mentionsInside : List Stmt → List Mention
  | .functionDef _ _ _ body _ _ :: rest =>
      Stmt.mentionsAll body ++ Stmt.mentionsInside body ++ Stmt.mentionsInside rest
  | _ :: rest => Stmt.mentionsInside rest
  | [] => []

end

end Tree

end TypedPseudocode
