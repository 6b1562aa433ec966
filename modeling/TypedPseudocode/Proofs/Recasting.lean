import TypedPseudocode.Proofs.Renaming
import TypedPseudocode.Tree

/-!
Recasting: trees under other names, with other line numbers, or of another dialect.

Older parsers have node kinds of their own for constants, and wrap the index of a
subscript.  A tree that is recast has the same shape, but its names and lines may have
been replaced, and where the modern dialect is asked for, older nodes have given way to
the current ones.  Nodes that no parser makes are left as they are: a number that is
none, a named constant that has no name, and a wrapper that holds a slice or another
wrapper.
-/

namespace TypedPseudocode

open Code TypedPseudocode.Tree

structure Recasting where
  names : Renaming
  lines : Nat → Nat
  /-- A line that is not known stays unknown. -/
  lines_zero : lines 0 = 0
  modern : Bool

def Recasting.identity : Recasting := ⟨.identity, id, rfl, false⟩

def Recasting.ofRenaming (r : Renaming) : Recasting := ⟨r, id, rfl, false⟩

def Recasting.modernize : Recasting := ⟨.identity, id, rfl, true⟩

/-! ## Older nodes -/

def Constant.isNumber : Constant → Bool
  | .int _ | .double _ => true
  | _ => false

def Constant.isNamed : Constant → Bool
  | .null | .bool _ => true
  | _ => false

def Tree.Expr.standsBare : Expr → Bool
  | .slice .. | .index .. | .other _ .extSlice => false
  | _ => true

namespace Recasting

variable (M : Recasting)

/-- A constant of an older kind, which is replaced if it is what its kind stands for. -/
def literal (line : Nat) (value : Constant) (fits : Bool) (older : Expr) : Expr :=
  if M.modern && fits then .constant line value else older

def unwrap : Expr → Expr
  | .index line value => if M.modern && value.standsBare then value else .index line value
  | e => e

end Recasting

/-! ## Trees -/

namespace Tree

mutual

def Expr.recast (M : Recasting) : Expr → Expr
  | .boolOp line op values => .boolOp (M.lines line) op (Expr.recastAll M values)
  | .binOp line left op right => .binOp (M.lines line) (left.recast M) op (right.recast M)
  | .unaryOp line op operand => .unaryOp (M.lines line) op (operand.recast M)
  | .compare line left ops comparators =>
      .compare (M.lines line) (left.recast M) ops (Expr.recastAll M comparators)
  | .call line func args keywords =>
      .call (M.lines line) (func.recast M) (Expr.recastAll M args) keywords
  | .constant line value => .constant (M.lines line) value
  | .num line value => M.literal (M.lines line) value value.isNumber (.num (M.lines line) value)
  | .str line text => M.literal (M.lines line) (.str text) true (.str (M.lines line) text)
  | .nameConstant line value =>
      M.literal (M.lines line) value value.isNamed (.nameConstant (M.lines line) value)
  | .attribute line value attr ctx => .attribute (M.lines line) (value.recast M) attr ctx
  | .subscript line value key ctx =>
      .subscript (M.lines line) (value.recast M) (M.unwrap (key.recast M)) ctx
  | .name line id ctx => .name (M.lines line) (M.names id) ctx
  | .list line elements ctx => .list (M.lines line) (Expr.recastAll M elements) ctx
  | .tuple line elements ctx => .tuple (M.lines line) (Expr.recastAll M elements) ctx
  | .slice line lower upper step =>
      .slice (M.lines line) (Expr.recast? M lower) (Expr.recast? M upper) (Expr.recast? M step)
  | .index line value => .index (M.lines line) (value.recast M)
  | .other line kind => .other (M.lines line) kind

def Expr.recastAll (M : Recasting) : List Expr → List Expr
  | [] => []
  | e :: es => e.recast M :: Expr.recastAll M es

def Expr.recast? (M : Recasting) : Option Expr → Option Expr
  | none => none
  | some e => some (e.recast M)

end

def Parameter.recast (M : Recasting) (p : Parameter) : Parameter :=
  ⟨M.names p.name, Expr.recast? M p.typeHint, M.lines p.line⟩

def Parameters.recast (M : Recasting) (ps : Parameters) : Parameters where
  positionalOnly := ps.positionalOnly.map (·.recast M)
  positional := ps.positional.map (·.recast M)
  variadic := ps.variadic.map (·.recast M)
  keywordOnly := ps.keywordOnly.map (·.recast M)
  keywordVariadic := ps.keywordVariadic.map (·.recast M)
  defaults := Expr.recastAll M ps.defaults

mutual

def Stmt.recast (M : Recasting) : Stmt → Stmt
  | .functionDef line name ps body decorators hint =>
      .functionDef (M.lines line) (M.names name) (ps.recast M) (Stmt.recastAll M body)
        (Expr.recastAll M decorators) (Expr.recast? M hint)
  | .ret line value => .ret (M.lines line) (Expr.recast? M value)
  | .assign line targets value =>
      .assign (M.lines line) (Expr.recastAll M targets) (value.recast M)
  | .augAssign line target op value =>
      .augAssign (M.lines line) (target.recast M) op (value.recast M)
  | .annAssign line target hint value =>
      .annAssign (M.lines line) (target.recast M) (hint.recast M) (Expr.recast? M value)
  | .forLoop line target iter body orelse =>
      .forLoop (M.lines line) (target.recast M) (iter.recast M) (Stmt.recastAll M body)
        (Stmt.recastAll M orelse)
  | .whileLoop line test body orelse =>
      .whileLoop (M.lines line) (test.recast M) (Stmt.recastAll M body) (Stmt.recastAll M orelse)
  | .branch line test body orelse =>
      .branch (M.lines line) (test.recast M) (Stmt.recastAll M body) (Stmt.recastAll M orelse)
  | .raise line exception => .raise (M.lines line) (Expr.recast? M exception)
  | .expression line value => .expression (M.lines line) (value.recast M)
  | .other line kind => .other (M.lines line) kind

def Stmt.recastAll (M : Recasting) : List Stmt → List Stmt
  | [] => []
  | s :: rest => s.recast M :: Stmt.recastAll M rest

end

def Root.recast (M : Recasting) : Root → Root
  | .module body => .module (Stmt.recastAll M body)
  | .interactive body => .interactive (Stmt.recastAll M body)
  | .expression body => .expression (body.recast M)
  | .functionType => .functionType

end Tree

/-! ## What is left of a node -/

namespace Recasting

variable (M : Recasting)

/-- A recasting that leaves all words alone, and may change lines only. -/
structure KeepsWords : Prop where
  names : ∀ name, M.names name = name
  modern : M.modern = false

theorem keepsWords_identity : Recasting.identity.KeepsWords := ⟨fun _ => rfl, rfl⟩

end Recasting

namespace Tree.Expr

variable (M : Recasting)

theorem recastAll_eq_map (es : List Expr) : recastAll M es = es.map (recast M) := by
  induction es with
  | nil => rfl
  | cons e es ih => rw [recastAll, ih, List.map_cons]

@[simp] theorem length_recastAll (es : List Expr) : (recastAll M es).length = es.length := by
  rw [recastAll_eq_map, List.length_map]

@[simp] theorem line_recast (e : Expr) : (e.recast M).line = M.lines e.line := by
  cases e with
  | num | str | nameConstant =>
      simp only [recast, Recasting.literal]
      split <;> rfl
  | _ => rfl

theorem identifier?_recast (e : Expr) :
    (e.recast M).identifier? = e.identifier?.map M.names := by
  cases e with
  | num | str | nameConstant =>
      simp only [recast, Recasting.literal]
      split <;> rfl
  | _ => rfl

theorem elements?_recast (e : Expr) :
    (e.recast M).elements? = e.elements?.map (recastAll M) := by
  cases e with
  | num | str | nameConstant =>
      simp only [recast, Recasting.literal]
      split <;> rfl
  | _ => rfl

theorem standsBare_recast (e : Expr) : (e.recast M).standsBare = e.standsBare := by
  cases e with
  | num | str | nameConstant =>
      simp only [recast, Recasting.literal]
      split <;> rfl
  | other line kind => cases kind <;> rfl
  | _ => rfl

theorem kind_recast (e : Expr) : (e.recast M).kind = e.kind ∨
    M.modern = true ∧ (e.recast M).kind = .constant ∧
      e.kind ∈ [ExprKind.num, .str, .nameConstant] := by
  cases e with
  | num | str | nameConstant =>
      simp only [recast, Recasting.literal]
      split
      · rename_i h
        exact .inr ⟨(Bool.and_eq_true_iff.mp h).1, rfl, by simp [kind]⟩
      · exact .inl rfl
  | _ => exact .inl rfl

theorem label_recast {M : Recasting} (h : M.KeepsWords) (e : Expr) :
    (e.recast M).label = e.label := by
  rcases e.kind_recast M with hkind | ⟨hmodern, -⟩
  · rw [label, label, hkind]
  · rw [h.modern] at hmodern
    cases hmodern

theorem label_recast_eq_name_iff (e : Expr) :
    (e.recast M).label = "Name" ↔ e.label = "Name" := by
  rcases e.kind_recast M with hkind | ⟨-, hkind, holder⟩
  · rw [label, label, hkind]
  · have hconstant : (e.recast M).label ≠ "Name" := by
      rw [label, hkind]
      decide
    have holder : e.label ≠ "Name" := by
      simp only [List.mem_cons, List.not_mem_nil, or_false] at holder
      rcases holder with h | h | h <;> (rw [label, h]; decide)
    exact iff_of_false hconstant holder

theorem kind_recast_ne {e : Expr} {kind : ExprKind} (h : e.kind ≠ kind) (hkind : kind ≠ .constant) :
    (e.recast M).kind ≠ kind := by
  rcases e.kind_recast M with hsame | ⟨-, hconstant, -⟩
  · rwa [hsame]
  · rw [hconstant]
    exact hkind.symm

def isNull : Expr → Bool
  | .constant _ value | .nameConstant _ value => value = .null
  | _ => false

theorem isNull_recast (e : Expr) : (e.recast M).isNull = e.isNull := by
  cases e with
  | num line value =>
      simp only [recast, Recasting.literal]
      split
      · rename_i h
        cases value with
        | null => simp [Constant.isNumber] at h
        | _ => rfl
      · rfl
  | str | nameConstant =>
      simp only [recast, Recasting.literal]
      split <;> rfl
  | _ => rfl

def isText : Expr → Bool
  | .constant _ (.str _) | .str _ _ => true
  | _ => false

theorem isText_recast (e : Expr) : (e.recast M).isText = e.isText := by
  cases e with
  | num line value | nameConstant line value =>
      simp only [recast, Recasting.literal]
      split
      · rename_i h
        cases value with
        | str => simp [Constant.isNumber, Constant.isNamed] at h
        | _ => rfl
      · rfl
  | str =>
      simp only [recast, Recasting.literal]
      split <;> rfl
  | constant line value => cases value <;> rfl
  | _ => rfl

/-! ### Wrapped indices -/

def unwrapped : Expr → Expr
  | .index _ value => value
  | e => e

theorem unwrapped_of_kind {e : Expr} (h : e.kind ≠ .index) : e.unwrapped = e := by
  cases e with
  | index => exact absurd rfl h
  | _ => rfl

theorem unwrapped_recast (e : Expr) : (e.recast M).unwrapped = e.unwrapped.recast M := by
  by_cases h : e.kind = .index
  · cases e with
    | index line value => rfl
    | _ => cases h
  · rw [unwrapped_of_kind h, unwrapped_of_kind (kind_recast_ne M h (by decide))]

theorem unwrap_of_kind {e : Expr} (h : e.kind ≠ .index) : M.unwrap e = e := by
  cases e with
  | index => exact absurd rfl h
  | _ => rfl

theorem sizeOf_unwrapped_le (e : Expr) : sizeOf e.unwrapped ≤ sizeOf e := by
  cases e with
  | index line value =>
      simp only [unwrapped, index.sizeOf_spec]
      omega
  | _ => exact Nat.le_refl _

theorem kind_of_standsBare {e : Expr} (h : e.standsBare = true) :
    e.kind ≠ .index ∧ e.kind ≠ .slice := by
  cases e with
  | index | slice => cases h
  | _ => simp [kind]

theorem kind_unwrap_ne_slice {e : Expr} (h : e.kind ≠ .slice) : (M.unwrap e).kind ≠ .slice := by
  cases e with
  | index line value =>
      simp only [Recasting.unwrap]
      split
      · rename_i hbare
        exact (kind_of_standsBare (Bool.and_eq_true_iff.mp hbare).2).2
      · exact h
  | _ => exact h

theorem unwrapped_unwrap (e : Expr) : (M.unwrap e).unwrapped = e.unwrapped := by
  cases e with
  | index line value =>
      simp only [Recasting.unwrap]
      split
      · rename_i h
        exact unwrapped_of_kind (kind_of_standsBare (Bool.and_eq_true_iff.mp h).2).1
      · rfl
  | _ => rfl

end Tree.Expr

theorem Tree.Stmt.isEmpty_recastAll (M : Recasting) (ss : List Stmt) :
    (Stmt.recastAll M ss).isEmpty = ss.isEmpty := by
  cases ss <;> rfl

end TypedPseudocode
