import TypedPseudocode.Proofs.Recasting

/-!
Nodes: the expressions of a tree, and the lines of all that stands in it.

A tree that is recast stays as it is if all words are kept and each of its lines stays;
in particular where nothing is to be replaced at all.
-/

namespace TypedPseudocode

open Code TypedPseudocode.Tree

/-! ## The nodes of a tree -/

namespace Tree

mutual

def Expr.within : Expr → List Expr
  | .boolOp _ _ values => Expr.nodesAll values
  | .binOp _ left _ right => (left :: left.within) ++ (right :: right.within)
  | .unaryOp _ _ operand => operand :: operand.within
  | .compare _ left _ comparators => (left :: left.within) ++ Expr.nodesAll comparators
  | .call _ func args _ => (func :: func.within) ++ Expr.nodesAll args
  | .attribute _ value _ _ => value :: value.within
  | .subscript _ value key _ => (value :: value.within) ++ (key :: key.within)
  | .list _ elements _ | .tuple _ elements _ => Expr.nodesAll elements
  | .slice _ lower upper step =>
      Expr.nodes? lower ++ Expr.nodes? upper ++ Expr.nodes? step
  | .index _ value => value :: value.within
  | _ => []

def Expr.nodesAll : List Expr → List Expr
  | [] => []
  | e :: es => (e :: e.within) ++ Expr.nodesAll es

def Expr.nodes? : Option Expr → List Expr
  | none => []
  | some e => e :: e.within

end

def Expr.nodes (e : Expr) : List Expr := e :: e.within

def Parameters.nodes (ps : Parameters) : List Expr :=
  (ps.positionalOnly ++ ps.positional ++ ps.variadic.toList ++ ps.keywordOnly
    ++ ps.keywordVariadic.toList).flatMap (fun p => Expr.nodes? p.typeHint)
    ++ Expr.nodesAll ps.defaults

mutual

def Stmt.nodes : Stmt → List Expr
  | .functionDef _ _ ps body decorators hint =>
      ps.nodes ++ Stmt.nodesAll body ++ Expr.nodesAll decorators ++ Expr.nodes? hint
  | .ret _ value => Expr.nodes? value
  | .assign _ targets value => Expr.nodesAll targets ++ value.nodes
  | .augAssign _ target _ value => target.nodes ++ value.nodes
  | .annAssign _ target hint value => target.nodes ++ hint.nodes ++ Expr.nodes? value
  | .forLoop _ target iter body orelse =>
      target.nodes ++ iter.nodes ++ Stmt.nodesAll body ++ Stmt.nodesAll orelse
  | .whileLoop _ test body orelse | .branch _ test body orelse =>
      test.nodes ++ Stmt.nodesAll body ++ Stmt.nodesAll orelse
  | .raise _ exception => Expr.nodes? exception
  | .expression _ value => value.nodes
  | .other _ _ => []

def Stmt.nodesAll : List Stmt → List Expr
  | [] => []
  | s :: rest => s.nodes ++ Stmt.nodesAll rest

end

def Root.nodes : Root → List Expr
  | .module body | .interactive body => Stmt.nodesAll body
  | .expression body => body.nodes
  | .functionType => []

end Tree

/-! ## The lines of a tree -/

namespace Tree

/-- The lines of the parameters themselves; their hints are nodes of the tree. -/
def Parameters.lines (ps : Parameters) : List Nat :=
  (ps.positionalOnly ++ ps.positional ++ ps.variadic.toList ++ ps.keywordOnly
    ++ ps.keywordVariadic.toList).map (·.line)

mutual

def Stmt.lines : Stmt → List Nat
  | .functionDef line _ ps body _ _ => line :: (ps.lines ++ Stmt.linesAll body)
  | .forLoop line _ _ body orelse | .whileLoop line _ body orelse
  | .branch line _ body orelse => line :: (Stmt.linesAll body ++ Stmt.linesAll orelse)
  | .ret line _ | .assign line _ _ | .augAssign line _ _ _ | .annAssign line _ _ _
  | .raise line _ | .expression line _ | .other line _ => [line]

def Stmt.linesAll : List Stmt → List Nat
  | [] => []
  | s :: rest => s.lines ++ Stmt.linesAll rest

end

def Root.lines (root : Root) : List Nat :=
  root.nodes.map (·.line) ++
    match root with
    | .module body | .interactive body => Stmt.linesAll body
    | .expression _ | .functionType => []

end Tree

/-! ## Trees that stay as they are -/

namespace Recasting.KeepsWords

variable {M : Recasting}

theorem literal (hM : M.KeepsWords) (line : Nat) (value : Constant) (fits : Bool) (older : Expr) :
    M.literal line value fits older = older := by
  simp [Recasting.literal, hM.modern]

theorem unwrap (hM : M.KeepsWords) (e : Expr) : M.unwrap e = e := by
  cases e with
  | index => simp [Recasting.unwrap, hM.modern]
  | _ => rfl

mutual

theorem recast_expr (hM : M.KeepsWords) (e : Expr)
    (h : ∀ n ∈ e.nodes, M.lines n.line = n.line) : e.recast M = e := by
  obtain ⟨hline, hinner⟩ := List.forall_mem_cons.mp h
  simp only [Expr.line] at hline
  cases e with
  | boolOp line op values => rw [Expr.recast, hline, hM.recast_exprs values hinner]
  | binOp line left op right =>
      obtain ⟨hleft, hright⟩ := List.forall_mem_append.mp hinner
      rw [Expr.recast, hline, hM.recast_expr left hleft, hM.recast_expr right hright]
  | unaryOp line op operand => rw [Expr.recast, hline, hM.recast_expr operand hinner]
  | compare line left ops comparators =>
      obtain ⟨hleft, hrest⟩ := List.forall_mem_append.mp hinner
      rw [Expr.recast, hline, hM.recast_expr left hleft, hM.recast_exprs comparators hrest]
  | call line func args keywords =>
      obtain ⟨hfunc, hargs⟩ := List.forall_mem_append.mp hinner
      rw [Expr.recast, hline, hM.recast_expr func hfunc, hM.recast_exprs args hargs]
  | constant line value => rw [Expr.recast, hline]
  | num line value | nameConstant line value | str line value =>
      rw [Expr.recast, hM.literal, hline]
  | «attribute» line value attr ctx => rw [Expr.recast, hline, hM.recast_expr value hinner]
  | subscript line value key ctx =>
      obtain ⟨hvalue, hkey⟩ := List.forall_mem_append.mp hinner
      rw [Expr.recast, hline, hM.recast_expr value hvalue, hM.recast_expr key hkey, hM.unwrap]
  | name line id ctx => rw [Expr.recast, hline, hM.names]
  | list line elements ctx | tuple line elements ctx =>
      rw [Expr.recast, hline, hM.recast_exprs elements hinner]
  | slice line lower upper step =>
      obtain ⟨hbounds, hstep⟩ := List.forall_mem_append.mp hinner
      obtain ⟨hlower, hupper⟩ := List.forall_mem_append.mp hbounds
      rw [Expr.recast, hline, hM.recast_expr? lower hlower, hM.recast_expr? upper hupper,
        hM.recast_expr? step hstep]
  | index line value => rw [Expr.recast, hline, hM.recast_expr value hinner]
  | other line kind => rw [Expr.recast, hline]

theorem recast_exprs (hM : M.KeepsWords) (es : List Expr)
    (h : ∀ n ∈ Expr.nodesAll es, M.lines n.line = n.line) : Expr.recastAll M es = es := by
  cases es with
  | nil => rfl
  | cons e es =>
      obtain ⟨hfirst, hrest⟩ := List.forall_mem_append.mp h
      rw [Expr.recastAll, hM.recast_expr e hfirst, hM.recast_exprs es hrest]

theorem recast_expr? (hM : M.KeepsWords) (e : Option Expr)
    (h : ∀ n ∈ Expr.nodes? e, M.lines n.line = n.line) : Expr.recast? M e = e := by
  cases e with
  | none => rfl
  | some e => rw [Expr.recast?, hM.recast_expr e h]

end

theorem recast_parameters (hM : M.KeepsWords) (ps : Parameters)
    (h : ∀ n ∈ ps.nodes, M.lines n.line = n.line)
    (hlines : ∀ line ∈ ps.lines, M.lines line = line) : ps.recast M = ps := by
  obtain ⟨hhints, hdefaults⟩ := List.forall_mem_append.mp h
  have hparameter : ∀ p ∈ ps.positionalOnly ++ ps.positional ++ ps.variadic.toList
      ++ ps.keywordOnly ++ ps.keywordVariadic.toList, p.recast M = p := by
    intro p hp
    have hhint := hM.recast_expr? p.typeHint fun n hn =>
      hhints n (List.mem_flatMap.mpr ⟨p, hp, hn⟩)
    rw [Parameter.recast, hM.names, hhint, hlines p.line (List.mem_map_of_mem hp)]
  simp only [List.forall_mem_append, Option.mem_toList] at hparameter
  obtain ⟨⟨⟨⟨honly, hpositional⟩, hvariadic⟩, hkeyword⟩, hkeywordVariadic⟩ := hparameter
  have hlist {ps : List Parameter} (hps : ∀ p ∈ ps, p.recast M = p) :
      ps.map (·.recast M) = ps :=
    (List.map_congr_left hps).trans (List.map_id ps)
  have hoption {p : Option Parameter} (hp : ∀ q ∈ p, q.recast M = q) :
      p.map (·.recast M) = p :=
    (Option.map_congr hp).trans Option.map_id'
  rw [Parameters.recast, hlist honly, hlist hpositional, hoption hvariadic, hlist hkeyword,
    hoption hkeywordVariadic, hM.recast_exprs ps.defaults hdefaults]

mutual

theorem recast_stmt (hM : M.KeepsWords) (s : Stmt)
    (h : ∀ n ∈ s.nodes, M.lines n.line = n.line)
    (hlines : ∀ line ∈ s.lines, M.lines line = line) : s.recast M = s := by
  cases s with
  | functionDef line name ps body decorators hint =>
      simp only [Stmt.nodes, List.forall_mem_append] at h
      simp only [Stmt.lines, List.forall_mem_cons, List.forall_mem_append] at hlines
      obtain ⟨⟨⟨hps, hbody⟩, hdecorators⟩, hhint⟩ := h
      obtain ⟨hline, hpsLines, hbodyLines⟩ := hlines
      rw [Stmt.recast, hline, hM.names, hM.recast_parameters ps hps hpsLines,
        hM.recast_stmts body hbody hbodyLines, hM.recast_exprs decorators hdecorators,
        hM.recast_expr? hint hhint]
  | ret line value =>
      rw [Stmt.recast, hlines line List.mem_cons_self, hM.recast_expr? value h]
  | assign line targets value =>
      obtain ⟨htargets, hvalue⟩ := List.forall_mem_append.mp h
      rw [Stmt.recast, hlines line List.mem_cons_self, hM.recast_exprs targets htargets,
        hM.recast_expr value hvalue]
  | augAssign line target op value =>
      obtain ⟨htarget, hvalue⟩ := List.forall_mem_append.mp h
      rw [Stmt.recast, hlines line List.mem_cons_self, hM.recast_expr target htarget,
        hM.recast_expr value hvalue]
  | annAssign line target hint value =>
      simp only [Stmt.nodes, List.forall_mem_append] at h
      obtain ⟨⟨htarget, hhint⟩, hvalue⟩ := h
      rw [Stmt.recast, hlines line List.mem_cons_self, hM.recast_expr target htarget,
        hM.recast_expr hint hhint, hM.recast_expr? value hvalue]
  | forLoop line target iter body orelse =>
      simp only [Stmt.nodes, List.forall_mem_append] at h
      simp only [Stmt.lines, List.forall_mem_cons, List.forall_mem_append] at hlines
      obtain ⟨⟨⟨htarget, hiter⟩, hbody⟩, horelse⟩ := h
      obtain ⟨hline, hbodyLines, horelseLines⟩ := hlines
      rw [Stmt.recast, hline, hM.recast_expr target htarget, hM.recast_expr iter hiter,
        hM.recast_stmts body hbody hbodyLines, hM.recast_stmts orelse horelse horelseLines]
  | whileLoop line test body orelse | branch line test body orelse =>
      simp only [Stmt.nodes, List.forall_mem_append] at h
      simp only [Stmt.lines, List.forall_mem_cons, List.forall_mem_append] at hlines
      obtain ⟨⟨htest, hbody⟩, horelse⟩ := h
      obtain ⟨hline, hbodyLines, horelseLines⟩ := hlines
      rw [Stmt.recast, hline, hM.recast_expr test htest, hM.recast_stmts body hbody hbodyLines,
        hM.recast_stmts orelse horelse horelseLines]
  | raise line exception =>
      rw [Stmt.recast, hlines line List.mem_cons_self, hM.recast_expr? exception h]
  | expression line value =>
      rw [Stmt.recast, hlines line List.mem_cons_self, hM.recast_expr value h]
  | other line kind => rw [Stmt.recast, hlines line List.mem_cons_self]

theorem recast_stmts (hM : M.KeepsWords) (ss : List Stmt)
    (h : ∀ n ∈ Stmt.nodesAll ss, M.lines n.line = n.line)
    (hlines : ∀ line ∈ Stmt.linesAll ss, M.lines line = line) : Stmt.recastAll M ss = ss := by
  cases ss with
  | nil => rfl
  | cons s ss =>
      obtain ⟨hfirst, hrest⟩ := List.forall_mem_append.mp h
      obtain ⟨hfirstLines, hrestLines⟩ := List.forall_mem_append.mp hlines
      rw [Stmt.recastAll, hM.recast_stmt s hfirst hfirstLines,
        hM.recast_stmts ss hrest hrestLines]

end

theorem recast_root (hM : M.KeepsWords) (root : Root)
    (h : ∀ line ∈ root.lines, M.lines line = line) : root.recast M = root := by
  obtain ⟨hnodes, hlines⟩ := List.forall_mem_append.mp h
  rw [List.forall_mem_map] at hnodes
  cases root with
  | module body | interactive body =>
      rw [Root.recast, hM.recast_stmts body hnodes hlines]
  | expression body => rw [Root.recast, hM.recast_expr body hnodes]
  | functionType => rfl

end Recasting.KeepsWords

/-! ## Nothing replaced -/

namespace Tree

theorem Expr.recast_identity (e : Expr) : e.recast .identity = e :=
  Recasting.keepsWords_identity.recast_expr e fun _ _ => rfl

theorem Stmt.recast_identity (s : Stmt) : s.recast .identity = s :=
  Recasting.keepsWords_identity.recast_stmt s (fun _ _ => rfl) fun _ _ => rfl

theorem Stmt.recastAll_identity (ss : List Stmt) : Stmt.recastAll .identity ss = ss :=
  Recasting.keepsWords_identity.recast_stmts ss (fun _ _ => rfl) fun _ _ => rfl

theorem Root.recast_identity (root : Root) : root.recast .identity = root :=
  Recasting.keepsWords_identity.recast_root root fun _ _ => rfl

end Tree

end TypedPseudocode
