import TypedPseudocode.Proofs.Blame
import TypedPseudocode.Proofs.Dialects

/-!
Missing names.

Some names in a tree have to stand for something: those that are read or called, the
arrays that are written to, and the targets of augmented assignments.  Other targets
need not, as they are declared if they are new.  Where lowering fails for a missing name
it is one of the former, and nothing goes by that name in any scope that is still open
when the failure is reported, unless only the innermost scope was asked.
-/

namespace TypedPseudocode

open TypedPseudocode.Tree

/-! ## Mentions are nodes -/

namespace Tree

variable {mentions mentions' : List Mention} {nodes nodes' : List Expr}

def Located (mentions : List Mention) (nodes : List Expr) : Prop :=
  ∀ m ∈ mentions, ∃ ctx, .name m.line m.name ctx ∈ nodes

theorem located_nil : Located [] nodes := by
  intro m hm
  cases hm

theorem Located.mono (h : Located mentions nodes) (hsubset : nodes ⊆ nodes') :
    Located mentions nodes' := by
  intro m hm
  obtain ⟨ctx, hctx⟩ := h m hm
  exact ⟨ctx, hsubset hctx⟩

theorem Located.cons (e : Expr) (h : Located mentions nodes) : Located mentions (e :: nodes) :=
  h.mono (List.subset_cons_self e nodes)

theorem Located.left (h : Located mentions nodes) : Located mentions (nodes ++ nodes') :=
  h.mono (List.subset_append_left nodes nodes')

theorem Located.right (h : Located mentions nodes') : Located mentions (nodes ++ nodes') :=
  h.mono (List.subset_append_right nodes nodes')

theorem Located.both (h : Located mentions nodes) (h' : Located mentions' nodes) :
    Located (mentions ++ mentions') nodes := by
  intro m hm
  rcases List.mem_append.mp hm with hm | hm
  · exact h m hm
  · exact h' m hm

theorem Located.append (h : Located mentions nodes) (h' : Located mentions' nodes') :
    Located (mentions ++ mentions') (nodes ++ nodes') :=
  h.left.both h'.right

theorem located_name (line : Nat) (id : String) (ctx : Context) (use : Use) :
    Located [⟨id, line, use⟩] (Expr.name line id ctx).nodes := by
  intro m hm
  obtain rfl := List.mem_singleton.mp hm
  exact ⟨ctx, List.mem_cons_self⟩

theorem located_arrayMentions (e : Expr) : Located e.arrayMentions e.nodes := by
  cases e with
  | name line id ctx => exact located_name line id ctx .array
  | _ => exact located_nil

theorem located_methodMentions (e : Expr) (method : String) :
    Located (e.methodMentions method) e.nodes := by
  unfold Expr.methodMentions
  split
  · exact located_arrayMentions e
  · exact located_nil

mutual

theorem located_mentions (e : Expr) : Located e.mentions e.nodes := by
  cases e with
  | name line id ctx => exact located_name line id ctx (.value ctx)
  | list line elements ctx | tuple line elements ctx | boolOp line op elements =>
      exact (located_mentionsAll elements).cons _
  | binOp line left op right =>
      exact ((located_mentions left).append (located_mentions right)).cons _
  | compare line left ops comparators =>
      exact ((located_mentions left).append (located_mentionsAll comparators)).cons _
  | unaryOp line op operand => exact (located_mentions operand).cons _
  | index line value => exact (located_mentions value).cons _
  | subscript line base position ctx =>
      exact ((located_mentions base).append (located_mentions position)).cons _
  | call line func args keywords =>
      refine Located.cons _ ?_
      cases func with
      | name line id ctx =>
          exact (located_mentionsAll args).right.both (located_name line id ctx .callee).left
      | «attribute» line target method ctx =>
          exact ((located_methodMentions target method).cons _).append (located_mentionsAll args)
      | _ => exact located_nil
  | _ => exact located_nil

theorem located_mentionsAll (es : List Expr) :
    Located (Expr.mentionsAll es) (Expr.nodesAll es) := by
  cases es with
  | nil => exact located_nil
  | cons e es => exact (located_mentions e).append (located_mentionsAll es)

end

mutual

theorem located_targetMentions (e : Expr) : Located e.targetMentions e.nodes := by
  cases e with
  | subscript line base position ctx =>
      exact ((located_arrayMentions base).append (located_mentions position)).cons _
  | list line elements ctx | tuple line elements ctx =>
      exact (located_targetMentionsAll elements).cons _
  | _ => exact located_nil

theorem located_targetMentionsAll (es : List Expr) :
    Located (Expr.targetMentionsAll es) (Expr.nodesAll es) := by
  cases es with
  | nil => exact located_nil
  | cons e es => exact (located_targetMentions e).append (located_targetMentionsAll es)

end

theorem located_augmentedMentions (e : Expr) : Located e.augmentedMentions e.nodes := by
  cases e with
  | name line id ctx => exact located_name line id ctx .augmented
  | _ => exact located_targetMentions _

mutual

theorem located_stmt (s : Stmt) : Located s.mentions s.nodes := by
  cases s with
  | ret line value =>
      cases value with
      | none => exact located_nil
      | some value => exact located_mentions value
  | assign line targets value =>
      exact (located_targetMentionsAll targets).append (located_mentions value)
  | augAssign line target op value =>
      exact (located_augmentedMentions target).append (located_mentions value)
  | annAssign line target hint value =>
      cases value with
      | none => exact located_nil
      | some value => exact (located_mentions value).right
  | branch line test body orelse =>
      refine ((located_mentions test).append ?_).append ?_
      · exact (located_stmts body).both (located_bodies body)
      · exact (located_stmts orelse).both (located_bodies orelse)
  | whileLoop line test body orelse =>
      refine ((located_mentions test).append ?_).left
      exact (located_stmts body).both (located_bodies body)
  | forLoop line target iter body orelse =>
      refine ((located_mentions iter).right.append ?_).left
      exact (located_stmts body).both (located_bodies body)
  | expression line value => exact located_mentions value
  | functionDef | raise | other => exact located_nil

theorem located_stmts (ss : List Stmt) : Located (Stmt.mentionsAll ss) (Stmt.nodesAll ss) := by
  cases ss with
  | nil => exact located_nil
  | cons s ss => exact (located_stmt s).append (located_stmts ss)

theorem located_bodies (ss : List Stmt) :
    Located (Stmt.mentionsInside ss) (Stmt.nodesAll ss) := by
  cases ss with
  | nil => exact located_nil
  | cons s ss =>
      cases s with
      | functionDef line name ps body decorators hint =>
          have hbody := (located_stmts body).both (located_bodies body)
          exact hbody.right.left.left.append (located_bodies ss)
      | _ => exact (located_bodies ss).right

end

end Tree

namespace Lowering

/-! ## What is missing -/

theorem reachOfUse_eq_enclosing {use : Use} (hstore : use ≠ .value .store)
    (haugmented : use ≠ .augmented) : reachOfUse use = .enclosing := by
  cases use with
  | value ctx =>
      cases ctx with
      | store => exact absurd rfl hstore
      | _ => rfl
  | callee | array => rfl
  | augmented => exact absurd rfl haugmented

/--
If a list cannot be lowered for want of a name, the name is needed on the line that is
reported: it is read or called there, or an element of it is written, or it is the target
of an augmented assignment.  Let no name that is read be marked as one that is stored.
Then, if no augmented assignment of the list has the name for its target, the name is in
none of the scopes that are left.
-/
theorem missing_name_is_needed (t : Table) (body : List Stmt) (name : String) (line : Nat)
    (hfails : (lowerBlock body t).result = .error ⟨.missingName name, line⟩) :
    let needed := Stmt.mentionsAll body ++ Stmt.mentionsInside body
    (∃ m ∈ needed, m.name = name ∧ m.line = line ∧
        ∃ ctx, .name line name ctx ∈ Stmt.nodesAll body) ∧
      ((∀ m ∈ needed, m.use ≠ .value .store) →
        (∀ m ∈ needed, m.use = .augmented → m.name ≠ name) →
          (lowerBlock body t).table.lookup name .enclosing = none) := by
  intro needed
  obtain ⟨m, hm, rfl, rfl, hnone⟩ := blames_lowerBlock body name line hfails
  have hlocated := (located_stmts body).both (located_bodies body)
  refine ⟨⟨m, hm, rfl, rfl, hlocated m hm⟩, fun hstore haugmented => ?_⟩
  apply hnone
  apply reachOfUse_eq_enclosing
  · exact hstore m hm
  · exact fun huse => haugmented m hm huse rfl

/--
A name that is missing two functions deep.  It is a target elsewhere, in a scope that is
closed by then.

```
def reset():
    limit = 0
def outer():
    total = 1
    total += 1
    def inner(n):
        return total + n + limit
    return inner(1)
```
-/
def unboundLimit : List Stmt :=
  [.functionDef 1 "reset" ⟨[], [], none, [], none, []⟩
      [.assign 2 [.name 2 "limit" .store] (.constant 2 (.int 0))] [] none,
    .functionDef 3 "outer" ⟨[], [], none, [], none, []⟩
      [.assign 4 [.name 4 "total" .store] (.constant 4 (.int 1)),
        .augAssign 5 (.name 5 "total" .store) .add (.constant 5 (.int 1)),
        .functionDef 6 "inner" ⟨[], [⟨"n", none, 6⟩], none, [], none, []⟩
          [.ret 7 (some (.binOp 7
            (.binOp 7 (.name 7 "total" .load) .add (.name 7 "n" .load)) .add
            (.name 7 "limit" .load)))] [] none,
        .ret 8 (some (.call 8 (.name 8 "inner" .load) [.constant 8 (.int 1)] []))] [] none]

theorem missing_limit_is_needed :
    let needed := Stmt.mentionsAll unboundLimit ++ Stmt.mentionsInside unboundLimit
    let outcome := lowerBlock unboundLimit (.empty OrderedMap.empty)
    outcome.result = .error ⟨.missingName "limit", 7⟩ ∧
      (∃ m ∈ needed, m.name = "limit" ∧ m.line = 7 ∧
        ∃ ctx, .name 7 "limit" ctx ∈ Stmt.nodesAll unboundLimit) ∧
      outcome.table.lookup "limit" .enclosing = none := by
  obtain ⟨hneeded, hnone⟩ :=
    missing_name_is_needed (.empty OrderedMap.empty) unboundLimit "limit" 7 rfl
  exact ⟨rfl, hneeded, hnone (by decide) (by decide)⟩

end Lowering

end TypedPseudocode
