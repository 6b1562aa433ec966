import TypedPseudocode.Proofs.Keeping

/-!
Renderings: the source beside what it is lowered to.

There is one rule for each construct.  The rules leave open what a name stands
for, since this changes while a scope is filled: they only insist that it is
something that the name may mean.  Types are left open as well, and a variable may
be declared wherever it is assigned to.
-/

namespace TypedPseudocode.Lowering

open Code TypedPseudocode.Tree

/-- What a name may stand for, or nothing if it may stand for what the language provides. -/
abbrev Meaning := String → Option Declaration → Prop

/-! ## Expressions -/

mutual

inductive Renders (m : Meaning) : Expr → TypedExpression → Prop
  | read {line : Nat} {id : String} {ctx : Context} {v : VarId} {ty : Ty}
      (h : m id (some (.variable v))) : Renders m (.name line id ctx) (.read v ty)
  | readBuiltin {line : Nat} {id : String} {ctx : Context} {ty : Ty} :
      Renders m (.name line id ctx) (.readBuiltin id ty)
  | constant {line : Nat} {value : Constant} : Renders m (.constant line value) (.constant value)
  | num {line : Nat} {value : Constant} : Renders m (.num line value) (.constant value)
  | nameConstant {line : Nat} {value : Constant} :
      Renders m (.nameConstant line value) (.constant value)
  | str {line : Nat} {text : String} : Renders m (.str line text) (.constant (.str text))
  | list {line : Nat} {elements : List Expr} {ctx : Context} {xs : List TypedExpression}
      {ty : Ty} (h : RendersAll m elements xs) :
      Renders m (.list line elements ctx) (.aggregate xs ty)
  | tuple {line : Nat} {elements : List Expr} {ctx : Context} {xs : List TypedExpression}
      {ty : Ty} (h : RendersAll m elements xs) :
      Renders m (.tuple line elements ctx) (.aggregate xs ty)
  | binOp {line : Nat} {left right : Expr} {op : Operator} {op' : BinOp}
      {x y : TypedExpression} {ty : Ty} (hop : op.StandsFor op') (hleft : Renders m left x)
      (hright : Renders m right y) : Renders m (.binOp line left op right) (.binary op' x y ty)
  | boolOp {line : Nat} {op : BoolOperator} {op' : BinOp} {values : List Expr}
      {xs : List TypedExpression} {x : TypedExpression} (hop : op.StandsFor op')
      (h : RendersAll m values xs) (hchain : Expression.chain? op' xs = some x) :
      Renders m (.boolOp line op values) x
  | compare {line : Nat} {left : Expr} {ops : List Comparison} {comparators : List Expr}
      {ops' : List BinOp} {x y : TypedExpression} {xs : List TypedExpression}
      (hops : List.Forall₂ Comparison.StandsFor ops ops')
      (hleft : Renders m left x) (hrest : RendersAll m comparators xs)
      (hchain : Expression.chain? .and (Expression.comparisons ops' (x :: xs)) = some y) :
      Renders m (.compare line left ops comparators) y
  | plus {line : Nat} {operand : Expr} {x : TypedExpression} (h : Renders m operand x) :
      Renders m (.unaryOp line .plus operand) x
  | not {line : Nat} {operand : Expr} {x : TypedExpression} {ty : Ty}
      (h : Renders m operand x) : Renders m (.unaryOp line .not operand) (.unary .not x ty)
  | minus {line : Nat} {operand : Expr} {x : TypedExpression} {ty : Ty}
      (h : Renders m operand x) : Renders m (.unaryOp line .minus operand) (.unary .neg x ty)
  | call {line nameLine : Nat} {id : String} {ctx : Context} {args : List Expr} {p : ProcId}
      {xs : List TypedExpression} {ty : Ty} (hp : m id (some (.procedure p)))
      (hargs : RendersAll m args xs) :
      Renders m (.call line (.name nameLine id ctx) args []) (.call p xs ty)
  | callBuiltin {line nameLine : Nat} {id : String} {ctx : Context} {args : List Expr}
      {xs : List TypedExpression} {ty : Ty} (hid : m id none) (hprovided : Builtin.isFunction id)
      (hargs : RendersAll m args xs) :
      Renders m (.call line (.name nameLine id ctx) args []) (.callBuiltin id xs ty)
  | len {line nameLine : Nat} {ctx : Context} {arg : Expr} {x : TypedExpression}
      (hid : m "len" none) (harg : Renders m arg x) :
      Renders m (.call line (.name nameLine "len" ctx) [arg] []) (.arrayLength x)
  | append {line attrLine nameLine : Nat} {id : String} {ctx attrCtx : Context} {value : Expr}
      {v : VarId} {x : TypedExpression} {ty ty' : Ty} (hv : m id (some (.variable v)))
      (hvalue : Renders m value x) :
      Renders m (.call line (.attribute attrLine (.name nameLine id ctx) "append" attrCtx)
        [value] []) (.callBuiltin "append" [.read v ty, x] ty')
  | arrayElement {line nameLine : Nat} {id : String} {ctx baseCtx : Context} {slice : Expr}
      {x i : TypedExpression} {ty : Ty} (hbase : Renders m (.name nameLine id baseCtx) x)
      (hindex : Renders m slice i) :
      Renders m (.subscript line (.name nameLine id baseCtx) slice ctx) (.arrayElement x i ty)
  | whole {line nameLine sliceLine : Nat} {id : String} {ctx baseCtx : Context}
      {x : TypedExpression} (hbase : Renders m (.name nameLine id baseCtx) x) :
      Renders m (.subscript line (.name nameLine id baseCtx)
        (.slice sliceLine none none none) ctx) x
  | index {line : Nat} {value : Expr} {x : TypedExpression} (h : Renders m value x) :
      Renders m (.index line value) x

inductive RendersAll (m : Meaning) : List Expr → List TypedExpression → Prop
  | nil : RendersAll m [] []
  | cons {e : Expr} {es : List Expr} {x : TypedExpression} {xs : List TypedExpression}
      (h : Renders m e x) (hs : RendersAll m es xs) : RendersAll m (e :: es) (x :: xs)

end

/-! ## Statements -/

def Declares (v : VarId) (code : List TypedStatement) : Prop := code = [] ∨ code = [.declare v]

mutual

inductive Assigns (m : Meaning) : Expr → Expr → List TypedStatement → Prop
  | name {line : Nat} {id : String} {ctx : Context} {value : Expr} {v : VarId}
      {declaration : List TypedStatement} {x : TypedExpression}
      (hv : m id (some (.variable v))) (hdeclares : Declares v declaration)
      (hvalue : Renders m value x) :
      Assigns m (.name line id ctx) value (declaration ++ [.assign v x])
  | element {line nameLine : Nat} {id : String} {ctx baseCtx : Context} {slice value : Expr}
      {v : VarId} {i x : TypedExpression} (hv : m id (some (.variable v)))
      (hindex : Renders m slice i) (hvalue : Renders m value x) :
      Assigns m (.subscript line (.name nameLine id baseCtx) slice ctx) value
        [.assignElement v [i] x]
  | list {line : Nat} {targets values : List Expr} {ctx : Context} {value : Expr}
      {code : List TypedStatement} (hvalues : value.elements? = some values)
      (h : AssignsEach m targets values code) : Assigns m (.list line targets ctx) value code
  | tuple {line : Nat} {targets values : List Expr} {ctx : Context} {value : Expr}
      {code : List TypedStatement} (hvalues : value.elements? = some values)
      (h : AssignsEach m targets values code) : Assigns m (.tuple line targets ctx) value code

inductive AssignsEach (m : Meaning) : List Expr → List Expr → List TypedStatement → Prop
  | nil : AssignsEach m [] [] []
  | cons {target value : Expr} {targets values : List Expr} {first rest : List TypedStatement}
      (h : Assigns m target value first) (hs : AssignsEach m targets values rest) :
      AssignsEach m (target :: targets) (value :: values) (first ++ rest)

end

inductive AssignsAll (m : Meaning) (value : Expr) : List Expr → List TypedStatement → Prop
  | nil : AssignsAll m value [] []
  | cons {target : Expr} {targets : List Expr} {first rest : List TypedStatement}
      (h : Assigns m target value first) (hs : AssignsAll m value targets rest) :
      AssignsAll m value (target :: targets) (first ++ rest)

mutual

/-- A statement and what it leaves in the list that it stands in. -/
inductive Emits (m : Meaning) : Stmt → List TypedStatement → Prop
  | functionDef {line : Nat} {name : String} {ps : Parameters} {body : List Stmt}
      {decorators : List Expr} {returns : Option Expr}
      (hplain : ps.names = ps.positional.map (·.name)) :
      Emits m (.functionDef line name ps body decorators returns) []
  | ret {line : Nat} : Emits m (.ret line none) [.ret none]
  | retValue {line : Nat} {value : Expr} {x : TypedExpression} (h : Renders m value x) :
      Emits m (.ret line (some value)) [.ret (some x)]
  | assign {line : Nat} {targets : List Expr} {value : Expr} {code : List TypedStatement}
      (h : AssignsAll m value targets code) : Emits m (.assign line targets value) code
  | augment {line nameLine : Nat} {id : String} {ctx : Context} {op : Operator} {value : Expr}
      {op' : BinOp} {v : VarId} {x : TypedExpression} {ty ty' : Ty}
      (hop : op.StandsFor op') (hv : m id (some (.variable v)))
      (hvalue : Renders m value x) :
      Emits m (.augAssign line (.name nameLine id ctx) op value)
        [.assign v (.binary op' (.read v ty) x ty')]
  | augmentElement {line targetLine nameLine : Nat} {id : String} {ctx baseCtx : Context}
      {op : Operator} {slice value : Expr} {op' : BinOp} {v : VarId} {i x : TypedExpression}
      {ty ty' ty'' : Ty} (hop : op.StandsFor op') (hv : m id (some (.variable v)))
      (hindex : Renders m slice i) (hvalue : Renders m value x) :
      Emits m (.augAssign line
          (.subscript targetLine (.name nameLine id baseCtx) slice ctx) op value)
        [.assignElement v [i] (.binary op' (.arrayElement (.read v ty) i ty') x ty'')]
  | hint {line nameLine : Nat} {id : String} {ctx : Context} {typeHint : Expr} {v : VarId}
      {declaration : List TypedStatement} (hv : m id (some (.variable v)))
      (hdeclares : Declares v declaration) :
      Emits m (.annAssign line (.name nameLine id ctx) typeHint none) declaration
  | hintValue {line nameLine : Nat} {id : String} {ctx : Context} {typeHint value : Expr}
      {v : VarId} {declaration : List TypedStatement} {x : TypedExpression}
      (hv : m id (some (.variable v))) (hdeclares : Declares v declaration)
      (hvalue : Renders m value x) :
      Emits m (.annAssign line (.name nameLine id ctx) typeHint (some value))
        (declaration ++ [.assign v x])
  | branch {line : Nat} {test : Expr} {body orelse : List Stmt} {guard : TypedExpression}
      {yes no : List TypedStatement} (hguard : Renders m test guard)
      (hbody : EmitsAll m body yes) (horelse : EmitsAll m orelse no) :
      Emits m (.branch line test body orelse) [.selection guard yes no]
  | whileLoop {line : Nat} {test : Expr} {body : List Stmt} {guard : TypedExpression}
      {code : List TypedStatement} (hguard : Renders m test guard)
      (hbody : EmitsAll m body code) :
      Emits m (.whileLoop line test body []) [.loop guard code]
  | forLoop {line nameLine : Nat} {id : String} {ctx : Context} {iter : Expr}
      {body : List Stmt} {v : VarId} {declaration code : List TypedStatement}
      {arguments : List TypedExpression} {range : Range} {ty ty₁ ty₂ ty₃ : Ty}
      (hv : m id (some (.variable v))) (hdeclares : Declares v declaration)
      (hiter : Renders m iter (.callBuiltin "range" arguments ty))
      (hrange : Bounds arguments range) (hbody : EmitsAll m body code) :
      Emits m (.forLoop line (.name nameLine id ctx) iter body [])
        (declaration ++ [.assign v range.start,
          .loop (.binary .different (.read v ty₁) range.stop .boolean)
            (code ++ [.assign v (.binary .add (.read v ty₂) range.step ty₃)])])
  | raise {line : Nat} : Emits m (.raise line none) []
  | text {line textLine : Nat} {text : String} :
      Emits m (.expression line (.constant textLine (.str text))) []
  | str {line textLine : Nat} {text : String} : Emits m (.expression line (.str textLine text)) []
  | dropped {line callLine nameLine : Nat} {id : String} {ctx : Context} {args : List Expr}
      {keywords : List Keyword} (hid : m id none) (hignored : Builtin.isIgnored id) :
      Emits m (.expression line (.call callLine (.name nameLine id ctx) args keywords)) []
  | call {line : Nat} {value : Expr} {p : ProcId} {arguments : List TypedExpression} {ty : Ty}
      (h : Renders m value (.call p arguments ty)) :
      Emits m (.expression line value) [.call p arguments]
  | append {line : Nat} {value : Expr} {arguments : List TypedExpression} {ty : Ty}
      (h : Renders m value (.callBuiltin "append" arguments ty)) :
      Emits m (.expression line value) [.callBuiltin "append" arguments]
  | breakLoop {line : Nat} : Emits m (.other line .breakLoop) [.breakLoop]
  | continueLoop {line : Nat} : Emits m (.other line .continueLoop) [.continueLoop]
  | ignored {line : Nat} {kind : OtherStmt} (h : isIgnoredKind kind) :
      Emits m (.other line kind) []

inductive EmitsAll (m : Meaning) : List Stmt → List TypedStatement → Prop
  | nil : EmitsAll m [] []
  | cons {s : Stmt} {ss : List Stmt} {here there : List TypedStatement} (h : Emits m s here)
      (hs : EmitsAll m ss there) : EmitsAll m (s :: ss) (here ++ there)

end

/-! ## Lowered expressions -/

section Expressions

variable {m : Meaning} {t t' : Table}

def Respects (m : Meaning) (t : Table) : Prop := ∀ name, m name (t.lookup name .enclosing)

theorem Yields.keeps {α : Type} {R : Table → Table → Prop} {step : Lowering α} {a : α}
    (h : Yields step t a t') (hkeeps : Keeps R step) : R t t' :=
  h.2 ▸ hkeeps t

theorem Respects.congr {opened : List ProcId} (hm : Respects m t) (h : Table.Grows [] opened t t') :
    Respects m t' := by
  intro name
  rw [h.lookup_eq]
  exact hm name

theorem Respects.lowerExpr {e : Expr} {place : Place} {x : TypedExpression} (hm : Respects m t)
    (h : Yields (lowerExpr place e) t x t') : Respects m t' :=
  hm.congr (h.keeps (assigning_grows.lowerExpr e place) : Table.Grows [] [] t t')

theorem Respects.lowerExprs {es : List Expr} {xs : List TypedExpression} (hm : Respects m t)
    (h : Yields (lowerExprs es) t xs t') : Respects m t' :=
  hm.congr (h.keeps (assigning_grows.lowerExprs es) : Table.Grows [] [] t t')

theorem renders_lowerName {line : Nat} {id : String} {ctx : Context} {x : TypedExpression}
    (h : Yields (lowerName line id ctx) t x t') (hm : Respects m t) :
    Renders m (.name line id ctx) x := by
  simp only [lowerName, yields_bind, yields_lookupVariable] at h
  obtain ⟨found, t₁, ⟨hfound, rfl⟩, h⟩ := h
  cases found with
  | some v =>
      obtain ⟨rfl, rfl⟩ := yields_readVariable.mp h
      have hvisible : t.lookup id .enclosing = some (.variable v) := by
        cases ctx with
        | store => exact Table.lookup_enclosing_of_innermost hfound
        | load => exact hfound
        | del => exact hfound
      exact .read (hvisible ▸ hm id)
  | none =>
      simp only at h
      split at h
      · obtain ⟨rfl, rfl⟩ := yields_pure.mp h
        exact .readBuiltin
      · exact absurd h yields_fail

theorem meaning_of_resolveArray {base : Expr} {v : VarId}
    (h : Yields (resolveArray base) t v t') (hm : Respects m t) :
    t' = t ∧ ∃ line id ctx, base = .name line id ctx ∧ m id (some (.variable v)) := by
  cases base with
  | name line id ctx =>
      simp only [resolveArray, yields_bind, yields_lookupVariable] at h
      obtain ⟨found, t₁, ⟨hfound, rfl⟩, h⟩ := h
      cases found with
      | some w =>
          obtain ⟨rfl, rfl⟩ := yields_pure.mp h
          have hid := hm id
          rw [hfound] at hid
          exact ⟨rfl, line, id, ctx, rfl, hid⟩
      | none =>
          simp only at h
          split at h
          · exact absurd h yields_refuse
          · exact absurd h yields_fail
  | _ => exact absurd h yields_fail

theorem renders_callName {line nameLine : Nat} {id : String} {ctx : Context} {args : List Expr}
    {arguments : List TypedExpression} {x : TypedExpression}
    (h : Yields (callName line nameLine id arguments) t x t') (hm : Respects m t)
    (hargs : RendersAll m args arguments) :
    Renders m (.call line (.name nameLine id ctx) args []) x := by
  simp only [callName, yields_bind, yields_lookupCalled] at h
  obtain ⟨found, t₁, ⟨hfound, rfl⟩, h⟩ := h
  have hid := hm id
  rw [hfound] at hid
  cases found with
  | some p =>
      simp only [yields_bind, yields_gets, yields_return] at h
      obtain ⟨ty, t₂, ⟨rfl, rfl⟩, rfl, rfl⟩ := h
      exact .call hid hargs
  | none =>
      simp only [callBuiltin] at h
      split at h
      · rename_i hlen
        subst hlen
        split at h
        · obtain ⟨rfl, rfl⟩ := yields_pure.mp h
          cases hargs with
          | cons harg hnone =>
              cases hnone
              exact .len hid harg
        · exact absurd h yields_fail
      · split at h
        · rename_i hprovided
          simp only [yields_bind, yields_ofExcept, yields_return] at h
          obtain ⟨ty, t₁, -, rfl, rfl⟩ := h
          exact .callBuiltin hid hprovided hargs
        · exact absurd h yields_fail

theorem kind_eq_name_of_label {kind : ExprKind}
    (h : Labelled.label kind = Labelled.label ExprKind.name) : kind = .name := by
  cases kind with
  | name => rfl
  | other kind => cases kind <;> exact absurd h (by decide)
  | _ => exact absurd h (by decide)

theorem requireName_yields {e : Expr} {u : Unit} (h : Yields (requireName e) t u t') :
    t' = t ∧ ∃ line id ctx, e = .name line id ctx := by
  obtain ⟨hrequired, rfl⟩ := yields_ofExcept.mp h
  refine ⟨rfl, ?_⟩
  unfold Diagnostic.requireKind at hrequired
  split at hrequired
  · rename_i hlabel
    have hkind := kind_eq_name_of_label (List.mem_singleton.mp hlabel)
    cases e with
    | name line id ctx => exact ⟨line, id, ctx, rfl⟩
    | _ => cases hkind
  · cases hrequired

theorem aggregate_yields {line : Nat} {elements : List TypedExpression} {x : TypedExpression}
    (h : Yields (aggregate line elements) t x t') : ∃ ty, x = .aggregate elements ty := by
  simp only [aggregate, yields_bind, yields_ofExcept, yields_return] at h
  obtain ⟨ty, t₁, -, rfl, -⟩ := h
  exact ⟨_, rfl⟩

theorem yields_connect {line : Nat} {op : BinOp} {operands : List TypedExpression}
    {e : TypedExpression} : Yields (connect line op operands) t e t' ↔
      Expression.chain? op operands = some e ∧ t = t' := by
  unfold connect
  cases Expression.chain? op operands <;> simp

theorem yields_compareAll {line : Nat} {ops : List BinOp} {operands : List TypedExpression}
    {e : TypedExpression} : Yields (compareAll line ops operands) t e t' ↔
      Expression.chain? .and (Expression.comparisons ops operands) = some e ∧ t = t' := by
  unfold compareAll
  cases Expression.chain? .and (Expression.comparisons ops operands) <;> simp

theorem lowerExprs_single {e : Expr} {x : TypedExpression} (h : Yields (lowerValue e) t x t') :
    Yields (lowerExprs [e]) t [x] t' := by
  simp only [lowerExprs, yields_bind, yields_return]
  exact ⟨x, t', h, [], t', yields_pure.mpr ⟨rfl, rfl⟩, rfl, rfl⟩

theorem renders_of_single {e : Expr} {x : TypedExpression} (h : RendersAll m [e] [x]) :
    Renders m e x := by
  cases h with
  | cons h _ => exact h

mutual

theorem renders_lowerExpr (e : Expr) {place : Place} {t t' : Table} {x : TypedExpression}
    (h : Yields (lowerExpr place e) t x t') (hm : Respects m t) : Renders m e x := by
  cases e with
  | name line id ctx => exact renders_lowerName (by simpa only [lowerExpr] using h) hm
  | constant line value =>
      obtain ⟨rfl, rfl⟩ := yields_pure.mp (by simpa only [lowerExpr] using h)
      exact .constant
  | num line value =>
      obtain ⟨rfl, rfl⟩ := yields_pure.mp (by simpa only [lowerExpr] using h)
      exact .num
  | nameConstant line value =>
      obtain ⟨rfl, rfl⟩ := yields_pure.mp (by simpa only [lowerExpr] using h)
      exact .nameConstant
  | str line text =>
      obtain ⟨rfl, rfl⟩ := yields_pure.mp (by simpa only [lowerExpr] using h)
      exact .str
  | list line elements ctx =>
      simp only [lowerExpr, yields_bind] at h
      obtain ⟨es, t₁, hes, h⟩ := h
      obtain ⟨ty, rfl⟩ := aggregate_yields h
      exact .list (renders_lowerExprs elements hes hm)
  | tuple line elements ctx =>
      simp only [lowerExpr, yields_bind] at h
      obtain ⟨es, t₁, hes, h⟩ := h
      obtain ⟨ty, rfl⟩ := aggregate_yields h
      exact .tuple (renders_lowerExprs elements hes hm)
  | binOp line left op right =>
      simp only [lowerExpr, yields_bind, yields_return] at h
      obtain ⟨op', t₁, hstep, l, t₂, hl, r, t₃, hr, rfl, rfl⟩ := h
      obtain ⟨hop, rfl⟩ := yields_lowerOperator.mp hstep
      exact .binOp hop (renders_lowerExpr left hl hm)
        (renders_lowerExpr right hr (hm.lowerExpr hl))
  | boolOp line op values =>
      simp only [lowerExpr, yields_bind] at h
      obtain ⟨es, t₁, hes, h⟩ := h
      exact .boolOp (connective_eq_iff.mp rfl) (renders_lowerExprs values hes hm)
        (yields_connect.mp h).1
  | compare line left ops comparators =>
      simp only [lowerExpr] at h
      split at h
      · exact absurd h yields_fail
      · simp only [yields_bind] at h
        obtain ⟨ops', t₁, hstep, first, t₂, hfirst, rest, t₃, hrest, h⟩ := h
        obtain ⟨hops, rfl⟩ := yields_lowerComparisons.mp hstep
        exact .compare hops (renders_lowerExpr left hfirst hm)
          (renders_lowerExprs comparators hrest (hm.lowerExpr hfirst)) (yields_compareAll.mp h).1
  | unaryOp line op operand =>
      simp only [lowerExpr, yields_bind] at h
      obtain ⟨x', t₁, hx, h⟩ := h
      have hoperand := renders_lowerExpr operand hx hm
      cases op with
      | plus =>
          obtain ⟨rfl, rfl⟩ := yields_return.mp h
          exact .plus hoperand
      | not =>
          obtain ⟨rfl, rfl⟩ := yields_return.mp h
          exact .not hoperand
      | minus =>
          obtain ⟨rfl, rfl⟩ := yields_return.mp h
          exact .minus hoperand
      | invert => exact absurd h yields_refuse
  | call line func args keywords =>
      have hargs {t t' : Table} {xs : List TypedExpression} (h : Yields (lowerExprs args) t xs t')
          (hm : Respects m t) : RendersAll m args xs := renders_lowerExprs args h hm
      unfold lowerExpr at h
      split at h
      · rename_i hkeywords
        obtain rfl := List.isEmpty_iff.mp hkeywords
        split at h
        · obtain ⟨xs, t₁, hxs, h⟩ := yields_bind.mp h
          exact renders_callName h (hm.lowerExprs hxs) (hargs hxs hm)
        · split at h
          · rename_i happend
            subst happend
            split at h
            · rename_i value
              simp only [yields_bind] at h
              obtain ⟨v, t₁, hv, x', t₂, hx, h⟩ := h
              obtain ⟨rfl, nameLine, id, ctx, rfl, hid⟩ := meaning_of_resolveArray hv hm
              have hvalue := renders_of_single (hargs (lowerExprs_single hx) hm)
              simp only [appendTo, yields_bind, yields_constrainVariable, yields_readVariable,
                yields_return] at h
              obtain ⟨ty, t₃, ⟨-, rfl⟩, target, t₄, ⟨rfl, rfl⟩, rfl, rfl⟩ := h
              exact .append hid hvalue
            · exact absurd h yields_fail
          · exact absurd h yields_refuse
        · exact absurd h yields_refuse
      · exact absurd h yields_refuse
  | subscript line base slice ctx =>
      simp only [lowerExpr, yields_bind] at h
      obtain ⟨_, t₁, hname, target, t₂, htarget, h⟩ := h
      obtain ⟨rfl, hnamed⟩ := requireName_yields hname
      have hbase := renders_lowerExpr base htarget hm
      obtain ⟨nameLine, id, baseCtx, rfl⟩ := hnamed
      split at h
      · obtain ⟨rfl, rfl⟩ := yields_return.mp h
        exact .whole hbase
      · exact absurd h yields_refuse
      · simp only [yields_bind, yields_return] at h
        obtain ⟨i, t₃, hi, rfl, rfl⟩ := h
        exact .arrayElement hbase (renders_lowerExpr slice hi (hm.lowerExpr htarget))
  | «attribute» line value attr ctx =>
      simp only [lowerExpr] at h
      exact absurd h yields_refuse
  | index line value =>
      simp only [lowerExpr] at h
      cases place with
      | index => exact .index (renders_lowerExpr value h hm)
      | operand => exact absurd h yields_refuse
  | slice line lower upper step =>
      simp only [lowerExpr] at h
      cases place <;> exact absurd h yields_refuse
  | other line kind =>
      simp only [lowerExpr] at h
      split at h <;> exact absurd h yields_refuse

theorem renders_lowerExprs (es : List Expr) {t t' : Table} {xs : List TypedExpression}
    (h : Yields (lowerExprs es) t xs t') (hm : Respects m t) : RendersAll m es xs := by
  cases es with
  | nil =>
      obtain ⟨rfl, rfl⟩ := yields_pure.mp (by simpa only [lowerExprs] using h)
      exact .nil
  | cons e es =>
      simp only [lowerExprs, yields_bind, yields_return] at h
      obtain ⟨x, t₁, hx, xs', t₂, hxs, rfl, rfl⟩ := h
      exact .cons (renders_lowerExpr e hx hm) (renders_lowerExprs es hxs (hm.lowerExpr hx))

end

end Expressions

end TypedPseudocode.Lowering
