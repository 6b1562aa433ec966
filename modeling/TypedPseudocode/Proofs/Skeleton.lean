import TypedPseudocode.Proofs.Isolation
import TypedPseudocode.Proofs.Translation

/-!
Control skeletons.

The skeleton of a procedure is what remains of it without its expressions and
without the declarations of its variables: returns, assignments, calls and the
statements around them.  The skeleton of a function is read off its source in the
same way, and the procedures of a module are the functions of its source, with
the same skeletons, whatever the expressions in them are.
-/

namespace TypedPseudocode

open scoped List
open Code TypedPseudocode.Tree

/-! ## Shapes -/

inductive Shape (V P : Type) where
  | ret (value : Bool)
  | assign (target : V)
  | assignElement (target : V)
  | call (procedure : P)
  | callBuiltin (name : String)
  | selection (body alternative : List (Shape V P))
  | loop (body : List (Shape V P))
  | breakLoop
  | continueLoop
  deriving Repr

namespace Code

section Shapes

variable {D V P T V' P' D' T' W Q : Type} (f : V → W) (g : P → Q)

mutual

/-- The shape of a statement under other references; declarations of variables have none. -/
def Statement.shapes : Statement D V P T → List (Shape W Q)
  | .declare _ => []
  | .call procedure _ => [.call (g procedure)]
  | .callBuiltin name _ => [.callBuiltin name]
  | .ret value => [.ret value.isSome]
  | .assign target _ => [.assign (f target)]
  | .assignElement target _ _ => [.assignElement (f target)]
  | .selection _ body alternative =>
      [.selection (Statement.shapesAll body) (Statement.shapesAll alternative)]
  | .loop _ body => [.loop (Statement.shapesAll body)]
  | .breakLoop => [.breakLoop]
  | .continueLoop => [.continueLoop]

def Statement.shapesAll : List (Statement D V P T) → List (Shape W Q)
  | [] => []
  | s :: ss => s.shapes ++ Statement.shapesAll ss

end

@[simp] theorem shapesAll_nil : Statement.shapesAll f g ([] : List (Statement D V P T)) = [] :=
  rfl

@[simp] theorem shapesAll_append (ss rs : List (Statement D V P T)) :
    Statement.shapesAll f g (ss ++ rs) =
      Statement.shapesAll f g ss ++ Statement.shapesAll f g rs := by
  induction ss with
  | nil => rfl
  | cons s ss ih => simp [Statement.shapesAll, ih]

variable (d : D → D') (f' : V → V') (g' : P → P') (h : T → T') (f : V' → W) (g : P' → Q)

mutual

theorem Statement.shapes_map (s : Statement D V P T) :
    (s.map d f' g' h).shapes f g = s.shapes (f ∘ f') (g ∘ g') := by
  cases s with
  | ret value => cases value <;> rfl
  | selection guard body alternative =>
      simp only [Statement.map, Statement.shapes, Statement.shapesAll_mapAll body,
        Statement.shapesAll_mapAll alternative]
  | loop guard body =>
      simp only [Statement.map, Statement.shapes, Statement.shapesAll_mapAll body]
  | _ => rfl

theorem Statement.shapesAll_mapAll (ss : List (Statement D V P T)) :
    Statement.shapesAll f g (Statement.mapAll d f' g' h ss) =
      Statement.shapesAll (f ∘ f') (g ∘ g') ss := by
  cases ss with
  | nil => rfl
  | cons s ss =>
      simp only [Statement.mapAll, Statement.shapesAll, Statement.shapes_map s,
        Statement.shapesAll_mapAll ss]

end

end Shapes

end Code

namespace Tree

abbrev SourceShape := Shape String (Option String)

mutual

def Expr.targetShapes : Expr → List SourceShape
  | .name _ id _ => [.assign id]
  | .subscript _ (.name _ id _) _ _ => [.assignElement id]
  | .list _ targets _ | .tuple _ targets _ => Expr.targetShapesAll targets
  | _ => []

def Expr.targetShapesAll : List Expr → List SourceShape
  | [] => []
  | target :: targets => target.targetShapes ++ Expr.targetShapesAll targets

end

def Expr.callShape? : Expr → Option SourceShape
  | .call _ (.name _ id _) _ _ => if Builtin.isIgnored id then none else some (.call (some id))
  | .call _ (.attribute _ _ method _) _ _ => some (.callBuiltin method)
  | .unaryOp _ .plus operand => operand.callShape?
  | .boolOp _ _ [value] => value.callShape?
  | .index _ value => value.callShape?
  | _ => none

mutual

def Stmt.shapes : Stmt → List SourceShape
  | .ret _ value => [.ret value.isSome]
  | .assign _ targets _ => Expr.targetShapesAll targets
  | .augAssign _ target _ _ | .annAssign _ target _ (some _) => target.targetShapes
  | .branch _ _ body orelse => [.selection (Stmt.shapesAll body) (Stmt.shapesAll orelse)]
  | .whileLoop _ _ body orelse => .loop (Stmt.shapesAll body) :: Stmt.shapesAll orelse
  | .forLoop _ target _ body orelse =>
      target.targetShapes ++ .loop (Stmt.shapesAll body ++ target.targetShapes) ::
        Stmt.shapesAll orelse
  | .expression _ value => value.callShape?.toList
  | .other _ .breakLoop => [.breakLoop]
  | .other _ .continueLoop => [.continueLoop]
  | _ => []

def Stmt.shapesAll : List Stmt → List SourceShape
  | [] => []
  | s :: rest => s.shapes ++ Stmt.shapesAll rest

end

/-- What a procedure is called, what it takes and what it does. -/
structure Skeleton where
  name : Option String
  parameters : List String
  body : List SourceShape

mutual

def Stmt.skeletons : Stmt → List Skeleton
  | .functionDef _ name ps body _ _ =>
      ⟨some name, ps.names, Stmt.shapesAll body⟩ :: Stmt.skeletonsAll body
  | .branch _ _ body orelse | .whileLoop _ _ body orelse | .forLoop _ _ _ body orelse =>
      Stmt.skeletonsAll body ++ Stmt.skeletonsAll orelse
  | _ => []

def Stmt.skeletonsAll : List Stmt → List Skeleton
  | [] => []
  | s :: rest => s.skeletons ++ Stmt.skeletonsAll rest

end

/-- A variable with a type but without a value is at least declared. -/
def Stmt.leaves : Stmt → Bool
  | .annAssign .. => true
  | s => !s.shapes.isEmpty

/-- The module has an entry procedure if its statements leave anything behind. -/
def entrySkeletons (body : List Stmt) : List Skeleton :=
  if body.any Stmt.leaves then [⟨none, [], Stmt.shapesAll body⟩] else []

def Region.skeleton (r : Region) : Skeleton :=
  ⟨r.name, r.parameters.map (·.name), Stmt.shapesAll r.body⟩

end Tree

namespace Declarations

variable (ds : Declarations)

def shapes (code : List TypedStatement) : List SourceShape :=
  Statement.shapesAll (fun v => (ds.varAt v).name) (fun p => (ds.procAt p).name) code

theorem shapes_append (code code' : List TypedStatement) :
    ds.shapes (code ++ code') = ds.shapes code ++ ds.shapes code' :=
  shapesAll_append _ _ code code'

def skeleton (p : Procedure) : Skeleton :=
  ⟨p.name, p.parameters.map fun v => (ds.varAt v).name, ds.shapes p.body⟩

end Declarations

namespace Lowering

variable {ds : Declarations} {m : Meaning}

/-! ## Code and source -/

def naming (ds : Declarations) : Meaning
  | _, none => True
  | name, some (.variable v) => (ds.varAt v).name = name ∧ ¬ Builtin.isIgnored name
  | name, some (.procedure p) => (ds.procAt p).name = some name ∧ ¬ Builtin.isIgnored name

theorem shapes_of_declares {v : VarId} {code : List TypedStatement} (h : Declares v code) :
    ds.shapes code = [] := by
  rcases h with rfl | rfl <;> rfl

def standAloneShape? (ds : Declarations) : TypedExpression → Option SourceShape
  | .call p _ _ => some (.call (ds.procAt p).name)
  | .callBuiltin name _ _ => if name = "append" then some (.callBuiltin name) else none
  | _ => none

theorem chain?_cases {op : BinOp} {xs : List TypedExpression} {x : TypedExpression}
    (h : Expression.chain? op xs = some x) :
    xs = [x] ∨ ∃ left right ty, x = .binary op left right ty := by
  match xs with
  | [] => cases h
  | [e] => exact .inl (by simpa [Expression.chain?] using h)
  | e :: e' :: es =>
      obtain ⟨rest, -, rfl⟩ := Option.map_eq_some_iff.mp h
      exact .inr ⟨_, _, _, rfl⟩

theorem mem_comparisons {ops : List BinOp} {xs : List TypedExpression} {x : TypedExpression}
    (h : x ∈ Expression.comparisons ops xs) : ∃ op left right ty, x = .binary op left right ty := by
  fun_induction Expression.comparisons ops xs with
  | case1 op ops left right rest ih =>
      rcases List.mem_cons.mp h with rfl | h
      · exact ⟨_, _, _, _, rfl⟩
      · exact ih h
  | case2 => cases h

theorem eq_singleton_of_rendersAll {es : List Expr} {x : TypedExpression}
    (h : RendersAll m es [x]) : ∃ e, es = [e] ∧ Renders m e x := by
  cases h with
  | cons h hs =>
      cases hs
      exact ⟨_, rfl, h⟩

theorem standAloneShape?_of_call {line nameLine : Nat} {id : String} {ctx : Context}
    {args : List Expr} {keywords : List Keyword} {x : TypedExpression} {shape : SourceShape}
    (h : Renders (naming ds) (.call line (.name nameLine id ctx) args keywords) x)
    (hx : standAloneShape? ds x = some shape) :
    ¬ Builtin.isIgnored id ∧ shape = .call (some id) := by
  cases h with
  | call hp hargs =>
      obtain ⟨hname, hkept⟩ := hp
      obtain rfl := Option.some.inj hx
      exact ⟨hkept, by rw [hname]⟩
  | callBuiltin hid hprovided hargs =>
      simp only [standAloneShape?] at hx
      split at hx
      · rename_i hname
        subst hname
        exact absurd hprovided (by decide)
      · cases hx
  | len hid harg => cases hx

theorem callShape?_of_renders {e : Expr} {x : TypedExpression} {shape : SourceShape}
    (h : Renders (naming ds) e x) (hx : standAloneShape? ds x = some shape) :
    e.callShape? = some shape := by
  fun_induction Expr.callShape? e with
  | case1 line nameLine id ctx args keywords hignored =>
      exact absurd hignored (standAloneShape?_of_call h hx).1
  | case2 line nameLine id ctx args keywords hkept =>
      rw [(standAloneShape?_of_call h hx).2]
  | case3 =>
      cases h with
      | append hv hvalue => exact hx
  | case4 line operand ih =>
      cases h with
      | plus h => exact ih h
  | case5 line op value ih =>
      cases h with
      | boolOp hop h hchain =>
          rcases chain?_cases hchain with rfl | ⟨left, right, ty, rfl⟩
          · exact ih (renders_of_single h)
          · cases hx
  | case6 line value ih =>
      cases h with
      | index h => exact ih h
  | case7 e hname hmethod hplus hsingle hindex =>
      cases h with
      | boolOp hop h hchain =>
          rcases chain?_cases hchain with rfl | ⟨left, right, ty, rfl⟩
          · obtain ⟨value, rfl, -⟩ := eq_singleton_of_rendersAll h
            exact (hsingle _ _ _ rfl).elim
          · cases hx
      | compare hops hleft hrest hchain =>
          rcases chain?_cases hchain with hone | ⟨left, right, ty, rfl⟩
          · obtain ⟨op, left, right, ty, rfl⟩ := mem_comparisons (hone ▸ List.mem_singleton_self _)
            cases hx
          · cases hx
      | plus => exact (hplus _ _ rfl).elim
      | index => exact (hindex _ _ rfl).elim
      | call | callBuiltin | len => exact (hname _ _ _ _ _ _ rfl).elim
      | append => exact (hmethod _ _ _ _ _ _ _ rfl).elim
      | whole hbase => cases hbase <;> cases hx
      | _ => cases hx

/-- Code of a given shape, with no declarations where there is nothing else. -/
structure Shaped (ds : Declarations) (code : List TypedStatement) (shapes : List SourceShape) :
    Prop where
  shapes_eq : ds.shapes code = shapes
  eq_nil : shapes = [] → code = []

theorem Shaped.append {first rest : List TypedStatement} {here there : List SourceShape}
    (h : Shaped ds first here) (h' : Shaped ds rest there) :
    Shaped ds (first ++ rest) (here ++ there) := by
  refine ⟨by rw [Declarations.shapes_append, h.shapes_eq, h'.shapes_eq], fun hempty => ?_⟩
  obtain ⟨hhere, hthere⟩ := List.append_eq_nil_iff.mp hempty
  rw [h.eq_nil hhere, h'.eq_nil hthere]
  rfl

mutual

theorem shaped_of_assigns (target : Expr) {value : Expr} {code : List TypedStatement}
    (h : Assigns (naming ds) target value code) : Shaped ds code target.targetShapes := by
  cases h with
  | name hv hdeclares hvalue =>
      refine ⟨?_, nofun⟩
      rw [Declarations.shapes_append, shapes_of_declares hdeclares, ← hv.1]
      rfl
  | element hv hindex hvalue =>
      refine ⟨?_, nofun⟩
      rw [Expr.targetShapes, ← hv.1]
      rfl
  | list hvalues h => exact shaped_of_assignsEach _ h
  | tuple hvalues h => exact shaped_of_assignsEach _ h

theorem shaped_of_assignsEach (targets : List Expr) {values : List Expr}
    {code : List TypedStatement} (h : AssignsEach (naming ds) targets values code) :
    Shaped ds code (Expr.targetShapesAll targets) := by
  cases h with
  | nil => exact ⟨rfl, fun _ => rfl⟩
  | cons h hs => exact (shaped_of_assigns _ h).append (shaped_of_assignsEach _ hs)

end

theorem shaped_of_assignsAll {value : Expr} {targets : List Expr} {code : List TypedStatement}
    (h : AssignsAll (naming ds) value targets code) :
    Shaped ds code (Expr.targetShapesAll targets) := by
  induction h with
  | nil => exact ⟨rfl, fun _ => rfl⟩
  | cons h _ ih => exact (shaped_of_assigns _ h).append ih

mutual

theorem shapes_of_emits (s : Stmt) {code : List TypedStatement}
    (h : Emits (naming ds) s code) : ds.shapes code = s.shapes := by
  cases h with
  | assign h => exact (shaped_of_assignsAll h).shapes_eq
  | augment hop hv hvalue =>
      rw [Stmt.shapes, Expr.targetShapes, ← hv.1]
      rfl
  | augmentElement hop hv hindex hvalue =>
      rw [Stmt.shapes, Expr.targetShapes, ← hv.1]
      rfl
  | hint hv hdeclares => exact shapes_of_declares hdeclares
  | hintValue hv hdeclares hvalue =>
      rw [Declarations.shapes_append, shapes_of_declares hdeclares, Stmt.shapes,
        Expr.targetShapes, ← hv.1]
      rfl
  | branch hguard hbody horelse =>
      rw [Stmt.shapes, ← shapes_of_emitsAll _ hbody, ← shapes_of_emitsAll _ horelse]
      rfl
  | whileLoop hguard hbody =>
      rw [Stmt.shapes, ← shapes_of_emitsAll _ hbody]
      rfl
  | forLoop hv hdeclares hiter hrange hbody =>
      rw [Declarations.shapes_append, shapes_of_declares hdeclares, Stmt.shapes,
        ← shapes_of_emitsAll _ hbody, Expr.targetShapes, ← hv.1]
      simp [Declarations.shapes, Statement.shapesAll, Statement.shapes, Stmt.shapesAll]
  | dropped hid hignored => simp [Stmt.shapes, Expr.callShape?, hignored, Declarations.shapes]
  | call h =>
      rw [Stmt.shapes, callShape?_of_renders h rfl]
      rfl
  | append h =>
      rw [Stmt.shapes, callShape?_of_renders h rfl]
      rfl
  | @ignored line kind hkind =>
      cases kind with
      | breakLoop | continueLoop => cases hkind
      | _ => rfl
  | _ => rfl

theorem shapes_of_emitsAll (ss : List Stmt) {code : List TypedStatement}
    (h : EmitsAll (naming ds) ss code) : ds.shapes code = Stmt.shapesAll ss := by
  cases h with
  | nil => rfl
  | cons h hs =>
      rw [Declarations.shapes_append, shapes_of_emits _ h, shapes_of_emitsAll _ hs,
        Stmt.shapesAll]

end

/-! ## Statements that leave nothing behind -/

theorem eq_nil_of_emits {s : Stmt} {code : List TypedStatement} (h : Emits (naming ds) s code)
    (hs : s.leaves = false) : code = [] := by
  cases h with
  | functionDef | raise | text | str | dropped | ignored => rfl
  | assign h => exact (shaped_of_assignsAll h).eq_nil (by simpa [Stmt.leaves, Stmt.shapes] using hs)
  | call h => simp [Stmt.leaves, Stmt.shapes, callShape?_of_renders h rfl] at hs
  | append h => simp [Stmt.leaves, Stmt.shapes, callShape?_of_renders h rfl] at hs
  | _ => simp [Stmt.leaves, Stmt.shapes, Expr.targetShapes] at hs

def Functional (t : Table) : Prop := ∀ name v, t.scope.get? name ≠ some (.variable v)

mutual

theorem targetNames_of_targetShapes (target : Expr) (h : target.targetShapes = []) :
    target.targetNames = [] := by
  cases target with
  | name => cases h
  | list line targets ctx => exact targetNamesAll_of_targetShapesAll targets h
  | tuple line targets ctx => exact targetNamesAll_of_targetShapesAll targets h
  | _ => rfl

theorem targetNamesAll_of_targetShapesAll (targets : List Expr)
    (h : Expr.targetShapesAll targets = []) : Expr.targetNamesAll targets = [] := by
  cases targets with
  | nil => rfl
  | cons target targets =>
      obtain ⟨hfirst, hrest⟩ := List.append_eq_nil_iff.mp h
      rw [Expr.targetNamesAll, targetNames_of_targetShapes target hfirst,
        targetNamesAll_of_targetShapesAll targets hrest]
      rfl

end

theorem assignHinted_ne_nil {target typeHint : Expr} {value : Option Expr} {t t' : Table}
    {code : List TypedStatement} (h : Yields (assignHinted target typeHint value) t code t')
    (ht : Functional t) : code ≠ [] := by
  simp only [assignHinted, yields_bind, yields_ofExcept] at h
  obtain ⟨ty, t₁, ⟨-, rfl⟩, h⟩ := h
  cases target with
  | name line id ctx =>
      rw [yields_bind] at h
      obtain ⟨⟨v, declaration⟩, t₁, hbind, h⟩ := h
      cases value with
      | none =>
          obtain ⟨rfl, rfl⟩ := yields_return.mp h
          cases binds_bindName hbind with
          | known hscope => exact absurd hscope (ht id v)
          | fresh => exact List.cons_ne_nil _ _
      | some value =>
          simp only [yields_bind, yields_return] at h
          obtain ⟨x, t₂, hx, unified, t₃, hty, rfl, rfl⟩ := h
          exact List.append_ne_nil_of_right_ne_nil _ (List.cons_ne_nil _ _)
  | _ => exact absurd h yields_refuse

theorem functional_lowerStmt {s : Stmt} {returns : Ty} {t t' : Table} {pass : FirstPass}
    (h : Yields (lowerStmt returns s) t pass t') (ht : Functional t)
    (hemits : Emits (naming ds) s pass.statements) (hempty : pass.statements = []) :
    s.leaves = false ∧ Functional t' := by
  -- A statement of no shape binds nothing, unless it declares a function or a variable.
  have hshapes : s.shapes = [] := by
    rw [← shapes_of_emits s hemits, hempty]
    rfl
  have hgrows := h.keeps (keeps_lowerStmt s returns)
  have hsame (hbinds : s.binds = []) : Functional t' := by
    intro name v
    rw [hgrows.scope name (by simp [hbinds])]
    exact ht name v
  cases s with
  | functionDef line name ps body decorators hint =>
      simp only [lowerStmt, yields_bind, yields_return] at h
      obtain ⟨p, t₁, hp, rfl, rfl⟩ := h
      obtain ⟨-, stated, -, rfl⟩ := declareFunction_yields hp
      refine ⟨rfl, fun other v => ?_⟩
      rw [Table.scope_withProcedure, OrderedMap.get?_insert]
      split
      · intro heq
        cases heq
      · exact ht other v
  | annAssign line target hint value =>
      simp only [lowerStmt, yields_bind, yields_return] at h
      obtain ⟨code, t₁, hcode, rfl, rfl⟩ := h
      exact absurd hempty (assignHinted_ne_nil hcode ht)
  | assign line targets value =>
      exact ⟨by simp [Stmt.leaves, hshapes],
        hsame (targetNamesAll_of_targetShapesAll targets hshapes)⟩
  | branch | whileLoop | forLoop => simp [Stmt.shapes] at hshapes
  | _ => exact ⟨by simp [Stmt.leaves, hshapes], hsame rfl⟩

theorem eq_nil_of_emitsAll {ss : List Stmt} {code : List TypedStatement}
    (h : EmitsAll (naming ds) ss code) (hss : ss.any Stmt.leaves = false) : code = [] := by
  induction ss generalizing code with
  | nil =>
      cases h
      rfl
  | cons s ss ih =>
      obtain ⟨hhere, hthere⟩ := Bool.or_eq_false_iff.mp hss
      cases h with
      | cons h hs => rw [eq_nil_of_emits h hhere, ih hs hthere, List.append_nil]

theorem nothing_of_emitsAll {s : Stmt} {ss : List Stmt} (h : EmitsAll m (s :: ss) []) :
    Emits m s [] ∧ EmitsAll m ss [] := by
  generalize hcode : ([] : List TypedStatement) = code at h
  cases h with
  | cons h hs =>
      obtain ⟨rfl, rfl⟩ := List.append_eq_nil_iff.mp hcode.symm
      exact ⟨h, hs⟩

theorem lowerStmts_eq_nil_iff {ss : List Stmt} {returns : Ty} {t t' : Table} {pass : FirstPass}
    (h : Yields (lowerStmts returns ss) t pass t') (ht : Functional t)
    (hemits : EmitsAll (naming ds) ss pass.statements) :
    pass.statements = [] ↔ ss.any Stmt.leaves = false := by
  refine ⟨fun hempty => ?_, eq_nil_of_emitsAll hemits⟩
  induction ss generalizing returns t pass with
  | nil => rfl
  | cons s ss ih =>
      simp only [lowerStmts, yields_bind, yields_tell, yields_return] at h
      obtain ⟨_, _, rfl, here, t₁, hhere, there, t₂, hthere, rfl, rfl⟩ := h
      obtain ⟨hempty, hempty'⟩ := List.append_eq_nil_iff.mp hempty
      rw [hempty, hempty'] at hemits
      obtain ⟨hs, hss⟩ := nothing_of_emitsAll hemits
      obtain ⟨hleaves, ht⟩ := functional_lowerStmt hhere ht (hempty ▸ hs) hempty
      rw [List.any_cons, hleaves, ih hthere ht (hempty' ▸ hss) hempty']
      rfl

/-! ## Functions and regions -/

def Emitted (m : Meaning) (rs : List Region) : Prop := ∀ r ∈ rs, ∃ code, EmitsAll m r.body code

theorem emitted_append {rs rs' : List Region} :
    Emitted m (rs ++ rs') ↔ Emitted m rs ∧ Emitted m rs' :=
  List.forall_mem_append

theorem perm_function_first (list inner after : List Region) (r : Region) :
    list ++ (inner ++ r :: after) ~ r :: (inner ++ (list ++ after)) :=
  calc list ++ (inner ++ r :: after)
    _ ~ list ++ r :: (inner ++ after) := List.perm_middle.append_left list
    _ ~ r :: (list ++ (inner ++ after)) := List.perm_middle
    _ ~ r :: (inner ++ (list ++ after)) := (List.perm_append_comm_assoc _ _ _).cons r

mutual

theorem perm_outline (s : Stmt) {code : List TypedStatement} (h : Emits m s code)
    (hother : s.functionName? = none) (around : List (Option ProcId)) (next : Nat)
    (hemitted : Emitted m (s.outline around next).regions) :
    (s.outline around next).regions.map Region.skeleton ~ s.skeletons := by
  cases s with
  | functionDef => cases hother
  | branch line test body orelse =>
      cases h with
      | branch hguard hbody horelse =>
          obtain ⟨hyes, hno⟩ := emitted_append.mp hemitted
          rw [Stmt.outline, Outline.append, List.map_append]
          exact (perm_passes body hbody around next (Stmt.names_outlineAll _ _ _) _ hyes).append
            (perm_passes orelse horelse around _ (Stmt.names_outlineAll _ _ _) _ hno)
  | whileLoop line test body orelse =>
      cases h with
      | whileLoop hguard hbody =>
          rw [Stmt.skeletons, Stmt.skeletonsAll, List.append_nil]
          exact perm_passes body hbody around next (Stmt.names_outlineAll _ _ _) _ hemitted
  | forLoop line target iter body orelse =>
      cases h with
      | forLoop hv hdeclares hiter hrange hbody =>
          rw [Stmt.skeletons, Stmt.skeletonsAll, List.append_nil]
          exact perm_passes body hbody around next (Stmt.names_outlineAll _ _ _) _ hemitted
  | _ => exact .refl _

theorem perm_passes (ss : List Stmt) {code : List TypedStatement} (h : EmitsAll m ss code)
    (around : List (Option ProcId)) (next : Nat) {places : List (ProcId × String)}
    (hnames : places.map Prod.snd = ss.filterMap Stmt.functionName?) (next' : Nat)
    (hemitted : Emitted m ((Stmt.outlineAll around next ss).regions ++
      (Stmt.outlineBodies around ss places next').regions)) :
    ((Stmt.outlineAll around next ss).regions ++
      (Stmt.outlineBodies around ss places next').regions).map Region.skeleton ~
        Stmt.skeletonsAll ss := by
  cases ss with
  | nil => exact .refl _
  | cons s ss =>
      cases h with
      | cons h hs =>
          cases s with
          | functionDef line name ps body decorators returns =>
              cases places with
              | nil => cases hnames
              | cons place places =>
                  obtain ⟨p, declared⟩ := place
                  obtain ⟨-, hothers⟩ := List.cons.inj hnames
                  obtain ⟨hlist, hrest⟩ := emitted_append.mp hemitted
                  obtain ⟨hinner, hrest⟩ := emitted_append.mp hrest
                  obtain ⟨⟨body', hbody⟩, hrest⟩ := List.forall_mem_cons.mp hrest
                  have hinside := perm_passes body hbody (some p :: around) next'
                    (Stmt.names_outlineAll _ _ _) _ hinner
                  have houtside := perm_passes ss hs around (next + 1) hothers _
                    (emitted_append.mpr ⟨hlist, hrest⟩)
                  cases h with
                  | functionDef hplain =>
                      rw [Stmt.skeletonsAll, Stmt.skeletons, hplain]
                      refine .trans ?_ ((hinside.append houtside).cons _)
                      rw [← List.map_append]
                      exact (perm_function_first _ _ _ _).map Region.skeleton
          | _ =>
              rw [Stmt.outlineAll, Outline.append, List.append_assoc] at hemitted ⊢
              obtain ⟨hhere, hthere⟩ := emitted_append.mp hemitted
              rw [List.map_append]
              exact (perm_outline _ h rfl around next hhere).append
                (perm_passes ss hs around _ hnames next' hthere)

end

/-! ## Whole modules -/

theorem respects_naming_empty (signatures : SignatureTable) :
    Respects (naming ds) (.empty signatures) :=
  fun _ => trivial

theorem admits_naming {names : List String} (hprint : "print" ∉ names) :
    Admits (naming ds) ds names := by
  have hkept (name : String) (hname : name ∈ names) : ¬ Builtin.isIgnored name := by
    rintro hignored
    obtain rfl := of_decide_eq_true hignored
    exact hprint hname
  refine ⟨fun name hname i hi => ⟨?_, hkept name hname⟩,
    fun name hname i hi => ⟨?_, hkept name hname⟩⟩
  · obtain ⟨v, hv, rfl⟩ := Option.map_eq_some_iff.mp hi
    rw [Declarations.varAt, hv]
    rfl
  · obtain ⟨p, hp, hp'⟩ := Option.map_eq_some_iff.mp hi
    rw [Declarations.procAt, hp]
    exact hp'

theorem precedes_wrapEntry {statements : List TypedStatement} {t t' : Table} {u : Unit}
    (h : Yields (wrapEntry statements) t u t') : t.Precedes t'.toDeclarations := by
  obtain ⟨hprocedures, hvars, -⟩ := wrapEntry_yields h
  refine ⟨hvars ▸ List.prefix_rfl, ?_⟩
  rw [hprocedures, List.map_append]
  exact List.prefix_append _ _

theorem skeleton_of_translates {r : Region} {p : Procedure}
    (h : Translates (naming ds) ds r p) : ds.skeleton p = r.skeleton := by
  rw [Declarations.skeleton, h.name, h.parameters, shapes_of_emitsAll r.body h.body]
  rfl

theorem perm_procedures {t : Table} {o : Outline} (hcovers : Covers 0 o) (hplaces : o.places = [])
    (hnext : t.procedures.length = o.next)
    (htranslated : ∀ r ∈ o.regions, Translated (naming ds) ds t r) :
    t.procedures.map ds.skeleton ~ o.regions.map Region.skeleton := by
  let skeletonAt (place : Option ProcId) : Skeleton := ds.skeleton (t.procAt (place.getD ⟨0⟩))
  have hregions : o.regions.map Region.skeleton = (filled o).map skeletonAt := by
    rw [filled, List.map_map]
    refine List.map_congr_left fun r hr => ?_
    obtain ⟨p, hplace, -, htranslates⟩ := htranslated r hr
    simp [skeletonAt, hplace, skeleton_of_translates htranslates]
  have hperm : filled o ~ placesFrom 0 o.next := by
    simpa [hplaces, awaited] using hcovers.perm
  have hprocedures : t.procedures.map ds.skeleton = (placesFrom 0 o.next).map skeletonAt := by
    rw [t.procedures_eq_map, hnext, placesFrom, Nat.sub_zero, ← List.range_eq_range']
    simp only [List.map_map]
    rfl
  rw [hregions, hprocedures]
  exact (hperm.map skeletonAt).symm

theorem map_skeleton_entryOf {body : List Stmt} {statements : List TypedStatement} {serial : Nat}
    (hshapes : ds.shapes statements = Stmt.shapesAll body)
    (hempty : statements = [] ↔ body.any Stmt.leaves = false) :
    (entryOf statements serial).map ds.skeleton = entrySkeletons body := by
  unfold entryOf entrySkeletons
  by_cases hleaves : body.any Stmt.leaves
  · rw [if_neg (by simp [hempty, hleaves]), if_pos hleaves, ← hshapes]
    rfl
  · rw [if_pos (hempty.mpr (by simpa using hleaves)), if_neg hleaves]
    rfl

theorem perm_skeletons {signatures : SignatureTable} {body : List Stmt} {lowered : Lowered}
    (h : (run signatures (.module body)).result = .ok lowered)
    (hprint : "print" ∉ Stmt.bindsDeepAll body) :
    lowered.declarations.procedures.map lowered.declarations.skeleton ~
      Stmt.skeletonsAll body ++ entrySkeletons body := by
  obtain ⟨block, t, t', hblock, hentry, rfl⟩ := run_yields h
  have hadmits : Admits (naming t'.toDeclarations) t'.toDeclarations (Stmt.bindsDeepAll body) :=
    admits_naming hprint
  have hrespects : Respects (naming t'.toDeclarations) (.empty signatures) :=
    respects_naming_empty signatures
  have hprecedes := precedes_wrapEntry hentry
  have htranslated := translatesAll hadmits hblock hrespects hprecedes none []
  obtain ⟨hemits, -⟩ := leaves_lowerBlock
    (hadmits.mono (Stmt.bindsAll_subset_bindsDeepAll body)) hblock hrespects hprecedes
  have hregions : t.procedures.map t'.toDeclarations.skeleton ~
      (blockOutline body [none] 0).regions.map Region.skeleton :=
    perm_procedures (covers_blockOutline body [none] 0) rfl (lowerBlock_next none [] hblock)
      htranslated
  have hemitted : Emitted (naming t'.toDeclarations) (blockOutline body [none] 0).regions := by
    intro r hr
    obtain ⟨p, -, -, htranslates⟩ := htranslated r hr
    exact ⟨_, htranslates.body⟩
  have hfunctions : (blockOutline body [none] 0).regions.map Region.skeleton ~
      Stmt.skeletonsAll body :=
    perm_passes body hemits [none] 0 (Stmt.names_outlineAll _ _ _) _ hemitted
  have hempty : block.statements = [] ↔ body.any Stmt.leaves = false := by
    simp only [lowerBlock, twoPasses, yields_bind, yields_return] at hblock
    obtain ⟨pass, t₁, hpass, _, _, -, rfl, -⟩ := hblock
    exact lowerStmts_eq_nil_iff hpass nofun hemits
  change t'.procedures.map t'.toDeclarations.skeleton ~ _
  rw [(wrapEntry_yields hentry).1, List.map_append,
    map_skeleton_entryOf (shapes_of_emitsAll body hemits) hempty]
  exact (hregions.trans hfunctions).append_right _

/--
The procedures of an accepted module are its functions, wherever they stand, and an
entry if its statements leave anything behind.  Each has the name, the parameters and
the statements of its source, in the same order, and it is published as it is.
-/
theorem skeletons_preserved {signatures : SignatureTable} {body : List Stmt} {lowered : Lowered}
    (ids : IdStream) (h : (run signatures (.module body)).result = .ok lowered)
    (hprint : "print" ∉ Stmt.bindsDeepAll body) :
    let ds := lowered.declarations
    let document := ds.publish.map ids
    ds.procedures.map ds.skeleton ~ Stmt.skeletonsAll body ++ entrySkeletons body ∧
      document.constants = [] ∧
      List.Forall₂ (fun p published => published.name = (ds.skeleton p).name ∧
        published.parameters.map (·.name) = (ds.skeleton p).parameters ∧
        Statement.shapesAll id id published.body =
          Statement.shapesAll (fun v => ids (ds.varAt v).id)
            (fun q => ids (ds.procAt q).id) p.body) ds.procedures document.procedures := by
  intro ds document
  refine ⟨perm_skeletons h hprint, rfl, ?_⟩
  rw [ds.procedures_publish ids, List.forall₂_map_right_iff]
  refine List.forall₂_same.mpr fun p _ => ⟨rfl, ?_, ?_⟩
  · simp [Declarations.published, Document.Procedure.map, Declarations.publishProcedure,
      Declarations.skeleton, Declarations.publishVariable, Document.Variable.map]
  · simp only [Declarations.published, Document.Procedure.map, Declarations.publishProcedure,
      Document.Statement.map, Declarations.publishBody, Statement.shapesAll_mapAll]
    rfl

theorem skeletons_preserved_nestedModule : ∃ lowered,
    (run OrderedMap.empty (.module nestedModule)).result = .ok lowered ∧
    lowered.declarations.procedures.map lowered.declarations.skeleton ~
      [⟨some "outer", ["a"], [.assign "b", .ret true]⟩,
        ⟨some "inner", ["c"], [.callBuiltin "append", .ret true]⟩,
        ⟨none, [], [.assign "i", .loop [.call (some "outer"), .assign "i"]]⟩] := by
  obtain ⟨lowered, h⟩ := nestedModule_lowered
  obtain ⟨hskeletons, -⟩ :=
    skeletons_preserved (IdStream.sequential IdStream.defaultStem) h (by decide)
  exact ⟨lowered, h, hskeletons⟩

end Lowering

end TypedPseudocode
