import TypedPseudocode.Proofs.Carrying
import TypedPseudocode.Proofs.Nodes

/-!
Dialects: trees of older parsers.

Old parsers tell numbers, texts and named constants apart by kinds of their own, and
wrap the index of a subscript.  In the modern dialect all of these are plain constants
and bare indices.  A tree of an old parser has nothing left of the older kinds once it
is modernised, and both trees are translated alike.
-/

namespace TypedPseudocode

open Code TypedPseudocode.Tree

/-! ## Nodes that are recast -/

namespace Recasting

variable {M : Recasting} {nodes nodes' later later' : List Expr}

def Covers (M : Recasting) (nodes nodes' : List Expr) : Prop :=
  ∀ e' ∈ nodes', ∃ e ∈ nodes, e.recast M = e'

theorem Covers.nil : M.Covers [] [] := fun _ h => absurd h List.not_mem_nil

theorem Covers.append (h : M.Covers nodes nodes') (h' : M.Covers later later') :
    M.Covers (nodes ++ later) (nodes' ++ later') := by
  intro e' he'
  rcases List.mem_append.mp he' with he' | he'
  · obtain ⟨e, he, heq⟩ := h e' he'
    exact ⟨e, List.mem_append_left _ he, heq⟩
  · obtain ⟨e, he, heq⟩ := h' e' he'
    exact ⟨e, List.mem_append_right _ he, heq⟩

theorem Covers.cons (e : Expr) (h : M.Covers nodes nodes') :
    M.Covers (e :: nodes) (e.recast M :: nodes') := by
  have hhead : M.Covers [e] [e.recast M] := by
    intro e' he'
    exact ⟨e, List.mem_singleton_self e, (List.mem_singleton.mp he').symm⟩
  exact hhead.append h

theorem nodes_unwrap (e : Expr) : (M.unwrap e).nodes ⊆ e.nodes := by
  cases e with
  | index line value =>
      simp only [unwrap]
      split
      · exact List.subset_cons_self _ _
      · exact List.Subset.refl _
  | _ => exact List.Subset.refl _

mutual

theorem covers_within (e : Expr) : M.Covers e.within (e.recast M).within := by
  cases e with
  | num | str | nameConstant =>
      simp only [Expr.recast, literal]
      split <;> exact Covers.nil
  | boolOp line op values => exact covers_nodesAll values
  | binOp line left op right =>
      exact ((covers_within left).cons left).append ((covers_within right).cons right)
  | unaryOp line op operand => exact (covers_within operand).cons operand
  | compare line left ops comparators =>
      exact ((covers_within left).cons left).append (covers_nodesAll comparators)
  | call line func args keywords =>
      exact ((covers_within func).cons func).append (covers_nodesAll args)
  | «attribute» line value attr ctx => exact (covers_within value).cons value
  | subscript line value key ctx =>
      refine ((covers_within value).cons value).append fun e' he' => ?_
      exact ((covers_within key).cons key) e' (nodes_unwrap _ he')
  | list line elements ctx | tuple line elements ctx => exact covers_nodesAll elements
  | slice line lower upper step =>
      exact ((covers_nodes? lower).append (covers_nodes? upper)).append (covers_nodes? step)
  | index line value => exact (covers_within value).cons value
  | _ => exact Covers.nil

theorem covers_nodesAll (es : List Expr) :
    M.Covers (Expr.nodesAll es) (Expr.nodesAll (Expr.recastAll M es)) := by
  cases es with
  | nil => exact Covers.nil
  | cons e es => exact ((covers_within e).cons e).append (covers_nodesAll es)

theorem covers_nodes? (e : Option Expr) :
    M.Covers (Expr.nodes? e) (Expr.nodes? (Expr.recast? M e)) := by
  cases e with
  | none => exact Covers.nil
  | some e => exact (covers_within e).cons e

end

theorem covers_nodes (e : Expr) : M.Covers e.nodes (e.recast M).nodes := (covers_within e).cons e

theorem covers_parameters (ps : Parameters) : M.Covers ps.nodes (ps.recast M).nodes := by
  have hhints (ps : List Parameter) : M.Covers (ps.flatMap fun p => Expr.nodes? p.typeHint)
      ((ps.map (·.recast M)).flatMap fun p => Expr.nodes? p.typeHint) := by
    induction ps with
    | nil => exact Covers.nil
    | cons p ps ih => exact (covers_nodes? p.typeHint).append ih
  refine Covers.append ?_ (covers_nodesAll ps.defaults)
  simpa [Parameters.recast, Option.toList_map] using hhints (ps.positionalOnly ++ ps.positional
    ++ ps.variadic.toList ++ ps.keywordOnly ++ ps.keywordVariadic.toList)

mutual

theorem covers_stmt (s : Stmt) : M.Covers s.nodes (s.recast M).nodes := by
  cases s with
  | functionDef line name ps body decorators hint =>
      exact (((covers_parameters ps).append (covers_stmts body)).append
        (covers_nodesAll decorators)).append (covers_nodes? hint)
  | ret line value => exact covers_nodes? value
  | assign line targets value => exact (covers_nodesAll targets).append (covers_nodes value)
  | augAssign line target op value => exact (covers_nodes target).append (covers_nodes value)
  | annAssign line target hint value =>
      exact ((covers_nodes target).append (covers_nodes hint)).append (covers_nodes? value)
  | forLoop line target iter body orelse =>
      exact (((covers_nodes target).append (covers_nodes iter)).append
        (covers_stmts body)).append (covers_stmts orelse)
  | whileLoop line test body orelse | branch line test body orelse =>
      exact ((covers_nodes test).append (covers_stmts body)).append (covers_stmts orelse)
  | raise line exception => exact covers_nodes? exception
  | expression line value => exact covers_nodes value
  | other => exact Covers.nil

theorem covers_stmts (ss : List Stmt) :
    M.Covers (Stmt.nodesAll ss) (Stmt.nodesAll (Stmt.recastAll M ss)) := by
  cases ss with
  | nil => exact Covers.nil
  | cons s ss => exact (covers_stmt s).append (covers_stmts ss)

end

theorem covers_root (root : Root) : M.Covers root.nodes (root.recast M).nodes := by
  cases root with
  | module body | interactive body => exact covers_stmts body
  | expression body => exact covers_nodes body
  | functionType => exact Covers.nil

end Recasting

/-! ## Old parsers -/

namespace Tree.Expr

/-- Whether a node is one that an old parser makes, or one of the current grammar. -/
def isRegular : Expr → Bool
  | .num _ value => value.isNumber
  | .nameConstant _ value => value.isNamed
  | .subscript _ _ (.index _ value) _ => value.standsBare
  | _ => true

def isModern : Expr → Bool
  | .num .. | .str .. | .nameConstant .. | .subscript _ _ (.index ..) _ => false
  | _ => true

end Tree.Expr

theorem Tree.Expr.isModern_subscript (line : Nat) (value : Expr) {key : Expr} (ctx : Context)
    (h : key.kind ≠ .index) : (Expr.subscript line value key ctx).isModern = true := by
  cases key with
  | index => exact absurd rfl h
  | _ => rfl

theorem Tree.Expr.isModern_modernize {e : Expr} (h : e.isRegular = true) :
    (e.recast .modernize).isModern = true := by
  cases e with
  | num line value | nameConstant line value =>
      simp only [isRegular] at h
      simp [recast, Recasting.literal, Recasting.modernize, h, isModern]
  | str line text => rfl
  | subscript line value key ctx =>
      rw [recast]
      refine isModern_subscript _ _ ctx ?_
      by_cases hkey : key.kind = .index
      · cases key with
        | index inner wrapped =>
            have hbare : (wrapped.recast .modernize).standsBare = true :=
              (wrapped.standsBare_recast _).trans h
            simp only [recast, Recasting.unwrap, hbare]
            exact (kind_of_standsBare hbare).1
        | _ => cases hkey
      · have hrecast := kind_recast_ne .modernize hkey (by decide)
        rwa [unwrap_of_kind _ hrecast]
  | _ => rfl

namespace Lowering

/--
Trees of old and new parsers are translated alike.  If all constants and wrapped indices
of a tree are such as old parsers make, none of them is left in the modern tree.  Both
trees yield the same declarations, called procedures and captured signatures, or both
fail with a diagnostic of the same kind on the same line.
-/
theorem modernized_runs_alike (signatures : SignatureTable) (root : Root) :
    let modern := root.recast .modernize
    ((∀ e ∈ root.nodes, e.isRegular = true) → ∀ e ∈ modern.nodes, e.isModern = true) ∧
      ((∃ lowered, (run signatures root).result = .ok lowered ∧
          (run signatures modern).result = .ok lowered) ∨
        ∃ d d', (run signatures root).result = .error d ∧
          (run signatures modern).result = .error d' ∧ d'.kind = d.kind ∧ d'.line = d.line) := by
  intro modern
  constructor
  · intro hregular e he
    obtain ⟨older, holder, rfl⟩ := Recasting.covers_root root e he
    exact Expr.isModern_modernize (hregular older holder)
  · have hruns := run_recast .modernize signatures root
    have hnames : Recasting.modernize.names = .identity := rfl
    simp only [hnames, SignatureTable.rename_identity, Lowered.rename_identity] at hruns
    rcases hruns with hdone | ⟨d, d', hfails, hfails', hblames⟩
    · exact .inl hdone
    · exact .inr ⟨d, d', hfails, hfails', hblames.words.kind, hblames.line⟩

/--
A function that writes to an array, and a call of it, with constants and indices as a
parser makes them:
```
def first(xs: List[int]) -> None:
    "Overwrites the first element."
    xs[0] = 1
first([2])
```
-/
def firstModule (number : Nat → Int → Expr) (text : Nat → String → Expr) (void : Nat → Expr)
    (wrap : Nat → Expr → Expr) : List Stmt :=
  let hint := Expr.subscript 1 (.name 1 "List" .load) (wrap 1 (.name 1 "int" .load)) .load
  [.functionDef 1 "first" ⟨[], [⟨"xs", some hint, 1⟩], none, [], none, []⟩
      [.expression 2 (text 2 "Overwrites the first element."),
        .assign 3 [.subscript 3 (.name 3 "xs" .load) (wrap 3 (number 3 0)) .store] (number 3 1)]
      [] (some (void 1)),
    .expression 4 (.call 4 (.name 4 "first" .load) [.list 4 [number 4 2] .load] [])]

theorem modernized_runs_alike_firstModule :
    let old := Root.module (firstModule (fun line n => .num line (.int n)) .str
      (fun line => .nameConstant line .null) .index)
    let modern := Root.module (firstModule (fun line n => .constant line (.int n))
      (fun line text => .constant line (.str text)) (fun line => .constant line .null)
      fun _ e => e)
    old.recast .modernize = modern ∧ (∀ e ∈ modern.nodes, e.isModern = true) ∧
      ∃ lowered, (run OrderedMap.empty old).result = .ok lowered ∧
        (run OrderedMap.empty modern).result = .ok lowered := by
  intro old modern
  have hmodern : old.recast .modernize = modern := rfl
  obtain ⟨hnodes, hruns⟩ := modernized_runs_alike OrderedMap.empty old
  rw [hmodern] at hnodes hruns
  refine ⟨hmodern, hnodes (by decide), ?_⟩
  rcases hruns with hdone | ⟨d, -, hfails, -⟩
  · exact hdone
  · cases hfails

end Lowering

end TypedPseudocode
