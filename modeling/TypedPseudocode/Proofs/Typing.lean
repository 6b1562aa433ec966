import TypedPseudocode.Proofs.Outcomes
import TypedPseudocode.Proofs.TypeOrder

/-!
Typing.

Every expression carries a type that was computed where the expression was made,
and it is put together with others later on, while the types of variables still
change.  The rules of `HasType` say which type an expression has by the types
that its operands carry.  In whatever is lowered, every expression carries the
type that it has.
-/

namespace TypedPseudocode

open Code TypedPseudocode.Tree

/-! ## Rules -/

namespace Code

/--
The type that an expression has by those of its operands.  Reads and calls have
the type that they carry: it is what was known when they were lowered.
-/
inductive HasType : TypedExpression → Ty → Prop
  | read (v : VarId) (ty : Ty) : HasType (.read v ty) ty
  | readBuiltin {name : String} {ty : Ty} (carried : Ty)
      (h : Builtin.variableTy? name = some ty) : HasType (.readBuiltin name carried) ty
  | call (p : ProcId) (arguments : List TypedExpression) (ty : Ty) :
      HasType (.call p arguments ty) ty
  | append {v : VarId} {known : Ty} {value : TypedExpression} (carried : Ty)
      (h : .array value.ty ≤ known) :
      HasType (.callBuiltin "append" [.read v known, value] carried) .void
  | callBuiltin {name : String} {arguments : List TypedExpression} {ty : Ty} (carried : Ty)
      (hname : name ≠ "len") (hfunction : Builtin.isFunction name)
      (h : Builtin.resultTy name (arguments.map (·.ty)) = .ok ty) :
      HasType (.callBuiltin name arguments carried) ty
  | arrayLength (target : TypedExpression) : HasType (.arrayLength target) .int
  | arrayElement (target index : TypedExpression) (carried : Ty) :
      HasType (.arrayElement target index carried) target.ty.element
  | null (carried : Ty) : HasType (.literal .null carried) .unknown
  | bool (value : Bool) (carried : Ty) : HasType (.literal (.bool value) carried) .boolean
  | int (value : Int) (carried : Ty) : HasType (.literal (.int value) carried) .int
  | double (value : Binary64) (carried : Ty) : HasType (.literal (.double value) carried) .double
  | str (text : String) (carried : Ty) : HasType (.literal (.str text) carried) .string
  | aggregate {elements : List TypedExpression} {ty : Ty} (carried : Ty)
      (h : Ty.unifyAll (elements.map (·.ty)) = .ok ty) :
      HasType (.aggregate elements carried) (.array ty)
  | arithmetic {op : BinOp} (left right : TypedExpression) (carried : Ty)
      (hcomparison : ¬ op.isComparison) (hlogical : ¬ op.isLogical) :
      HasType (.binary op left right carried) (op.resultTy left.ty right.ty)
  | condition {op : BinOp} (left right : TypedExpression) (carried : Ty)
      (h : op.isComparison ∨ op.isLogical) : HasType (.binary op left right carried) .boolean
  | unary (op : UnOp) (operand : TypedExpression) (carried : Ty) :
      HasType (.unary op operand carried) operand.ty

/-- An expression carries the type that it has. -/
def Expression.WellTyped (e : TypedExpression) : Prop := HasType e e.ty

theorem wellTyped_constant (value : Constant) :
    (Expression.constant value : TypedExpression).WellTyped := by
  cases value with
  | null => exact .null _
  | bool value => exact .bool value _
  | int value => exact .int value _
  | double value => exact .double value _
  | str text => exact .str text _

theorem wellTyped_binary (op : BinOp) (left right : TypedExpression) :
    (Expression.binary op left right (op.resultTy left.ty right.ty)).WellTyped := by
  by_cases h : op.isComparison ∨ op.isLogical
  · have hboolean : op.resultTy left.ty right.ty = .boolean := by
      simp [BinOp.resultTy, h]
    rw [hboolean]
    exact .condition left right .boolean h
  · rw [not_or] at h
    exact .arithmetic left right _ h.1 h.2

theorem resultTy_add_of_unify {known ty unified : Ty}
    (h : known.unify (BinOp.add.resultTy known ty) = some unified) :
    BinOp.add.resultTy unified ty = BinOp.add.resultTy known ty := by
  cases known with
  | unknown =>
      -- The left side becomes the sum's type, with which the sum has the same type.
      rw [Ty.unify_unknown_left] at h
      obtain rfl := Option.some.inj h
      cases ty <;> rfl
  | _ => cases ty <;> cases h <;> rfl

/-! ## Expressions of code -/

/--
The outermost expressions of a statement.  A call that stands alone is one as
well: nothing is known of what a procedure gives, and `append` gives nothing.
-/
def Statement.roots : TypedStatement → List TypedExpression
  | .call p arguments => [.call p arguments .unknown]
  | .callBuiltin name arguments => [.callBuiltin name arguments .void]
  | s => s.operands

def expressions (code : List TypedStatement) : List TypedExpression :=
  (Statement.partsAll code).flatMap fun s => Expression.partsAll s.roots

@[simp] theorem expressions_nil : expressions [] = [] := rfl

@[simp] theorem expressions_append (ss rs : List TypedStatement) :
    expressions (ss ++ rs) = expressions ss ++ expressions rs := by
  simp [expressions]

theorem expressions_cons (s : TypedStatement) (ss : List TypedStatement) :
    expressions (s :: ss) =
      Expression.partsAll s.roots ++ expressions s.inner ++ expressions ss := by
  simp [expressions, Statement.partsAll_cons]

theorem expressions_singleton {s : TypedStatement} (hinner : s.inner = []) :
    expressions [s] = Expression.partsAll s.roots := by
  rw [expressions_cons, hinner, expressions_nil, List.append_nil, List.append_nil]

theorem expressions_assign (v : VarId) (value : TypedExpression) :
    expressions [.assign v value] = Expression.partsAll [value] :=
  expressions_singleton rfl

theorem expressions_assignElement (v : VarId) (index value : TypedExpression) :
    expressions [.assignElement v [index] value] = Expression.partsAll [index, value] :=
  expressions_singleton rfl

theorem Expression.partsAll_singleton (e : TypedExpression) :
    Expression.partsAll [e] = e :: Expression.partsAll e.inner := by
  rw [Expression.partsAll_cons, Expression.partsAll, List.append_nil]

theorem Expression.mem_partsAll {x : TypedExpression} {es : List TypedExpression} :
    x ∈ Expression.partsAll es ↔ ∃ e ∈ es, x ∈ e.parts := by
  induction es with
  | nil => simp [Expression.partsAll]
  | cons e es ih => simp [Expression.partsAll, ih]

theorem Expression.partsAll_subset {es fs : List TypedExpression} (h : es ⊆ fs) :
    Expression.partsAll es ⊆ Expression.partsAll fs := by
  intro x hx
  obtain ⟨e, he, hx⟩ := Expression.mem_partsAll.mp hx
  exact Expression.mem_partsAll.mpr ⟨e, h he, hx⟩

theorem parts_operands_subset_roots (s : TypedStatement) :
    Expression.partsAll s.operands ⊆ Expression.partsAll s.roots := by
  intro e he
  cases s with
  | call p arguments =>
      rw [Statement.roots, Expression.partsAll_singleton]
      exact List.mem_cons_of_mem _ he
  | callBuiltin name arguments =>
      rw [Statement.roots, Expression.partsAll_singleton]
      exact List.mem_cons_of_mem _ he
  | _ => exact he

theorem parts_operands_subset {s : TypedStatement} {ss : List TypedStatement} (hs : s ∈ ss) :
    Expression.partsAll s.operands ⊆ expressions ss := by
  intro e he
  obtain ⟨before, after, rfl⟩ := List.append_of_mem hs
  simp [expressions_cons, parts_operands_subset_roots s he]

end Code

namespace Lowering

variable {s s' : State}

/-! ## Composed expressions -/

def Composed (es : List TypedExpression) (e : TypedExpression) : Prop :=
  e ∈ Expression.partsAll es ∨ e.isComposite ∧ e.WellTyped

theorem composed_chain {op : BinOp} (hop : op.isComparison ∨ op.isLogical)
    {es : List TypedExpression} {e x : TypedExpression}
    (h : Expression.chain? op es = some e) (hx : x ∈ Expression.partsAll [e]) :
    Composed es x := by
  induction es generalizing e with
  | nil => cases h
  | cons first rest ih =>
      cases rest with
      | nil =>
          obtain rfl := Option.some.inj h
          exact .inl hx
      | cons second rest =>
          obtain ⟨chained, hchained, rfl⟩ := Option.map_eq_some_iff.mp h
          rw [Expression.partsAll_singleton, Expression.inner, Expression.partsAll] at hx
          rcases List.mem_cons.mp hx with rfl | hx
          · exact .inr ⟨rfl, .condition first chained .boolean hop⟩
          · rcases List.mem_append.mp hx with hx | hx
            · exact .inl (List.mem_append_left _ hx)
            · rcases ih hchained hx with hx | hx
              · exact .inl (List.mem_append_right _ hx)
              · exact .inr hx

theorem composed_comparisons {ops : List BinOp} (hops : ∀ op ∈ ops, op.isComparison)
    {es : List TypedExpression} {x : TypedExpression}
    (hx : x ∈ Expression.partsAll (Expression.comparisons ops es)) : Composed es x := by
  induction ops generalizing es with
  | nil => cases hx
  | cons op ops ih =>
      match es with
      | [] | [_] => cases hx
      | left :: right :: rest =>
          rw [Expression.comparisons, Expression.partsAll_cons, Expression.inner] at hx
          rcases List.mem_cons.mp hx with rfl | hx
          · exact .inr ⟨rfl, .condition left right .boolean (.inl (hops op List.mem_cons_self))⟩
          · rcases List.mem_append.mp hx with hx | hx
            · exact .inl (Expression.partsAll_subset (by simp) hx)
            · rcases ih (fun op' hop' => hops op' (List.mem_cons_of_mem op hop')) hx with hx | hx
              · exact .inl (Expression.partsAll_subset (List.subset_cons_self left _) hx)
              · exact .inr hx

theorem Composes.composed {operands : List TypedExpression} {e x : TypedExpression}
    (h : Composes operands e) (hx : x ∈ Expression.partsAll [e]) : Composed operands x := by
  have hone (hinner : e.inner = operands) (hcomposite : e.isComposite) (hty : e.WellTyped) :
      Composed operands x := by
    rw [Expression.partsAll_singleton, hinner] at hx
    rcases List.mem_cons.mp hx with rfl | hx
    · exact .inr ⟨hcomposite, hty⟩
    · exact .inl hx
  cases h with
  | literal value => exact hone rfl rfl (wellTyped_constant value)
  | readBuiltin h => exact hone rfl rfl (.readBuiltin _ h)
  | aggregate h => exact hone rfl rfl (.aggregate _ h)
  | binary op left right => exact hone rfl rfl (wellTyped_binary op left right)
  | @connect op _ _ h =>
      refine composed_chain (.inr ?_) h hx
      cases op <;> rfl
  | compare hops hlength h =>
      rcases composed_chain (.inr rfl) h hx with hx | hx
      · exact composed_comparisons hops hx
      · exact .inr hx
  | unary op operand => exact hone rfl rfl (.unary op operand _)
  | arrayLength target => exact hone rfl rfl (.arrayLength target)
  | arrayElement target index => exact hone rfl rfl (.arrayElement target index _)
  | @callBuiltin name _ ty line hname hfunction hty =>
      have happend : name ≠ "append" := by
        rintro rfl
        exact absurd hfunction (by decide)
      have hresult : Builtin.resultTy name (operands.map (·.ty)) = .ok ty := by
        unfold Builtin.callTy at hty
        cases hresult : Builtin.resultTy name (operands.map (·.ty)) with
        | error d =>
            rw [hresult] at hty
            cases hty
        | ok result =>
            rw [hresult] at hty
            cases hty
            rfl
      exact hone rfl (by simpa [Expression.isComposite] using happend)
        (.callBuiltin _ hname hfunction hresult)

/-! ## Expressions of states -/

def Frame.expressions (f : Frame) : List TypedExpression :=
  Code.expressions f.code ++ Expression.partsAll f.operands

def State.expressions (s : State) : List TypedExpression := s.units.flatMap Frame.expressions

inductive Arises (s : State) (t : Table) : TypedExpression → Prop
  | composite {e : TypedExpression} (hcomposite : e.isComposite) (h : e.WellTyped) :
      Arises s t e
  | read {v : VarId} {ty : Ty} (h : ty = s.table.tyOf v ∨ ty = t.tyOf v) :
      Arises s t (.read v ty)
  | call {name : String} {p : ProcId} {arguments : List TypedExpression}
      (h : s.table.lookup name .enclosing = some (.procedure p))
      (ht : t = s.table.reach name p (arguments.map (·.ty))) :
      Arises s t (.call p arguments (t.procAt p).ty)
  | append {v : VarId} {known : Ty} {value : TypedExpression} (h : .array value.ty ≤ known) :
      Arises s t (.callBuiltin "append" [.read v known, value] .void)
  | callAlone {p : ProcId} {arguments : List TypedExpression} {ty : Ty}
      (h : .call p arguments ty ∈ s.expressions) : Arises s t (.call p arguments .unknown)
  | appendAlone {arguments : List TypedExpression} {ty : Ty}
      (h : .callBuiltin "append" arguments ty ∈ s.expressions) :
      Arises s t (.callBuiltin "append" arguments .void)

def Traced (s : State) (t : Table) (e : TypedExpression) : Prop :=
  e ∈ s.expressions ∨ Arises s t e

section Steps

variable {t : Table}

theorem mem_expressions_of_frame {e : TypedExpression} (he : e ∈ s.frame.expressions) :
    e ∈ s.expressions :=
  List.mem_flatMap.mpr ⟨s.frame, List.mem_cons_self, he⟩

theorem traced_of_code {e : TypedExpression} (he : e ∈ Code.expressions s.frame.code) :
    Traced s t e :=
  .inl (mem_expressions_of_frame (List.mem_append_left _ he))

theorem traced_of_operands {es : List TypedExpression} (h : es ⊆ s.frame.operands)
    {e : TypedExpression} (he : e ∈ Expression.partsAll es) : Traced s t e :=
  .inl (mem_expressions_of_frame (List.mem_append_right _ (Expression.partsAll_subset h he)))

theorem traced_of_frame {f : Frame} (h : ∀ e ∈ f.expressions, Traced s t e)
    {e : TypedExpression} (he : e ∈ State.expressions { s with table := t, frame := f }) :
    Traced s t e := by
  obtain ⟨g, hg, hmem⟩ := List.mem_flatMap.mp he
  rcases List.mem_cons.mp hg with rfl | hg
  · exact h e hmem
  · exact .inl (List.mem_flatMap.mpr ⟨g, List.mem_cons_of_mem _ hg, hmem⟩)

theorem traced_of_eval {operands : List TypedExpression}
    (h : Eval s.table s.frame.operands t operands) {e : TypedExpression}
    (he : e ∈ Expression.partsAll operands) : Traced s t e := by
  generalize hbefore : s.frame.operands = before at h
  have hold {below above : List TypedExpression} (hsplit : before = below ++ above)
      (he : e ∈ Expression.partsAll below ∨ e ∈ Expression.partsAll above) : Traced s t e := by
    rw [hsplit] at hbefore
    rcases he with he | he
    · exact traced_of_operands (hbefore ▸ List.subset_append_left below above) he
    · exact traced_of_operands (hbefore ▸ List.subset_append_right below above) he
  cases h with
  | @compose below operands x h =>
      rw [Expression.partsAll_append, List.mem_append] at he
      rcases he with he | he
      · exact hold rfl (.inl he)
      · rcases h.composed he with he | ⟨hcomposite, hty⟩
        · exact hold rfl (.inr he)
        · exact .inr (.composite hcomposite hty)
  | @read name v h =>
      rw [Expression.partsAll_append, List.mem_append, Expression.partsAll_singleton] at he
      rcases he with he | he
      · exact hold (List.append_nil _).symm (.inl he)
      · obtain rfl := List.mem_singleton.mp he
        exact .inr (.read (.inl rfl))
  | @call below arguments name p h =>
      rw [Expression.partsAll_append, List.mem_append, Expression.partsAll_singleton,
        List.mem_cons] at he
      rcases he with he | rfl | he
      · exact hold rfl (.inl he)
      · exact .inr (.call h rfl)
      · exact hold rfl (.inr he)
  | @append below value name v ty h hty =>
      have hknown : .array value.ty ≤ (s.table.raise v ty).tyOf v := by
        rw [Table.tyOf_raise, if_pos rfl]
        exact ((Ty.unify_le_iff hty ty).mp (le_refl ty)).2
      rw [Expression.partsAll_append, List.mem_append, Expression.partsAll_singleton,
        Expression.inner, Expression.partsAll_cons, List.mem_cons, List.mem_cons] at he
      rcases he with he | rfl | rfl | he
      · exact hold rfl (.inl he)
      · exact .inr (.append hknown)
      · exact .inr (.read (.inr rfl))
      · exact hold rfl (.inr he)

theorem traced_of_emit {operands : List TypedExpression} {code : List TypedStatement}
    {returns : Ty} (hoperands : ∀ e ∈ Expression.partsAll operands, Traced s t e)
    (hcode : ∀ e ∈ Code.expressions code, Traced s t e) {e : TypedExpression}
    (he : e ∈ State.expressions { s with
      table := t
      frame := { s.frame with
        operands
        block := ⟨s.frame.block.statements ++ code, returns⟩ } }) : Traced s t e := by
  refine traced_of_frame (fun x hx => ?_) he
  rw [Frame.expressions, Frame.code, Frame.codeOf_emit _ _ _ s.frame.block.returns,
    expressions_append, List.append_assoc, List.mem_append, List.mem_append] at hx
  rcases hx with hx | hx | hx
  · exact traced_of_code hx
  · exact hcode x hx
  · exact hoperands x hx

theorem Binds.expressions_eq {name : String} {ty : Ty} {v : VarId}
    {declaration : List TypedStatement} (h : Binds s.table name ty v declaration t) :
    Code.expressions declaration = [] := by
  cases h <;> rfl

theorem Bounds.mem_or_int {arguments : List TypedExpression} {range : Range}
    (h : Bounds arguments range) {e : TypedExpression}
    (he : e ∈ [range.step, range.stop, range.start]) : e ∈ arguments ∨ ∃ n, e = .int n := by
  cases h <;> simp at he ⊢ <;> grind

theorem mem_parts_binary_read {op : BinOp} {v : VarId} {ty ty' : Ty} {e x : TypedExpression} :
    x ∈ Expression.partsAll [.binary op (.read v ty) e ty'] ↔
      x = .binary op (.read v ty) e ty' ∨ x = .read v ty ∨ x ∈ Expression.partsAll [e] := by
  rw [Expression.partsAll_singleton, Expression.inner, Expression.partsAll_cons, List.mem_cons,
    List.mem_cons]
  rfl

theorem mem_parts_augmented {op : BinOp} {v : VarId} {ty : Ty}
    {index value x : TypedExpression}
    (hx : x ∈ Expression.partsAll [index, augmented op v ty index value]) :
    x = augmented op v ty index value ∨ x = .arrayElement (.read v ty) index ty.element ∨
      x = .read v ty ∨ x ∈ Expression.partsAll [index, value] := by
  simp only [augmented, Expression.partsAll, Expression.parts, List.append_nil, List.mem_append,
    List.mem_cons, List.not_mem_nil, or_false] at hx ⊢
  grind

theorem traced_of_close {below : List TypedExpression} {guard : TypedExpression}
    {before : Block} {around : List Block} {inside : List TypedStatement}
    {statement : TypedStatement} {returns : Ty}
    (hoperands : s.frame.operands = below ++ [guard])
    (hcode : s.frame.code = Frame.codeOf before around ++ inside)
    (hroots : statement.roots = [guard]) (hinner : statement.inner = inside)
    {e : TypedExpression}
    (he : e ∈ State.expressions { s with
      frame := { s.frame with
        operands := below
        block := ⟨before.statements ++ [statement], returns⟩
        around := around } }) : Traced s s.table e := by
  have hclosed : Frame.codeOf ⟨before.statements ++ [statement], returns⟩ around =
      Frame.codeOf before around ++ [statement] :=
    Frame.codeOf_emit _ _ _ _ _
  refine traced_of_frame (fun x hx => ?_) he
  rw [Frame.expressions, Frame.code, hclosed, expressions_append, expressions_cons, hroots,
    hinner, expressions_nil, List.append_nil] at hx
  have hsame : x ∈ s.frame.expressions := by
    rw [Frame.expressions, hcode, hoperands, expressions_append, Expression.partsAll_append]
    simp only [List.mem_append] at hx ⊢
    grind
  exact .inl (mem_expressions_of_frame hsame)

theorem Uses.traced {below operands : List TypedExpression} {statement : TypedStatement}
    {ty : Ty} (h : Uses operands statement ty) (hoperands : s.frame.operands = below ++ operands)
    {e : TypedExpression} (he : e ∈ Code.expressions [statement]) : Traced s t e := by
  have habove (x : TypedExpression) (hx : x ∈ Expression.partsAll operands) :
      x ∈ s.expressions := by
    refine mem_expressions_of_frame (List.mem_append_right _ ?_)
    rw [hoperands, Expression.partsAll_append]
    exact List.mem_append_right _ hx
  cases h with
  | retValue value =>
      rw [expressions_singleton rfl] at he
      exact .inl (habove e he)
  | call p arguments ty =>
      rw [expressions_singleton rfl, Statement.roots, Expression.partsAll_singleton,
        List.mem_cons] at he
      rw [Expression.partsAll_singleton] at habove
      rcases he with rfl | he
      · exact .inr (.callAlone (habove _ List.mem_cons_self))
      · exact .inl (habove e (List.mem_cons_of_mem _ he))
  | append arguments ty =>
      rw [expressions_singleton rfl, Statement.roots, Expression.partsAll_singleton,
        List.mem_cons] at he
      rw [Expression.partsAll_singleton] at habove
      rcases he with rfl | he
      · exact .inr (.appendAlone (habove _ List.mem_cons_self))
      · exact .inl (habove e (List.mem_cons_of_mem _ he))
  | _ => cases he

end Steps

theorem Step.traced (h : Step s s') {e : TypedExpression} (he : e ∈ s'.expressions) :
    Traced s s'.table e := by
  have hbelow {t : Table} {below above : List TypedExpression}
      (hsplit : s.frame.operands = below ++ above) (x : TypedExpression)
      (hx : x ∈ Expression.partsAll below) : Traced s t x :=
    traced_of_operands (hsplit ▸ List.subset_append_left below above) hx
  have habove {t : Table} {below above : List TypedExpression}
      (hsplit : s.frame.operands = below ++ above) (x : TypedExpression)
      (hx : x ∈ Expression.partsAll above) : Traced s t x :=
    traced_of_operands (hsplit ▸ List.subset_append_right below above) hx
  cases h with
  | eval h =>
      refine traced_of_frame (fun x hx => ?_) he
      rcases List.mem_append.mp hx with hx | hx
      · exact traced_of_code hx
      · exact traced_of_eval h hx
  | @again value h =>
      obtain ⟨assignment, hmem, huses⟩ := h
      refine traced_of_frame (fun x hx => ?_) he
      rw [Frame.expressions, Expression.partsAll_append, List.mem_append, List.mem_append] at hx
      rcases hx with hx | hx | hx
      · exact traced_of_code hx
      · exact traced_of_operands (List.Subset.refl _) hx
      · have hstatement : assignment ∈ s.frame.code := List.mem_append_right _ hmem
        refine traced_of_code (parts_operands_subset hstatement ?_)
        exact Expression.partsAll_subset (by simpa using huses) hx
  | @spread below arguments ty range hoperands hrange =>
      refine traced_of_frame (fun x hx => ?_) he
      rw [Frame.expressions, Expression.partsAll_append, List.mem_append, List.mem_append] at hx
      rcases hx with hx | hx | hx
      · exact traced_of_code hx
      · exact hbelow hoperands x hx
      · obtain ⟨bound, hbound, hx⟩ := Expression.mem_partsAll.mp hx
        rcases hrange.mem_or_int hbound with hbound | ⟨n, rfl⟩
        · refine habove hoperands x ?_
          rw [Expression.partsAll_singleton]
          exact List.mem_cons_of_mem _ (Expression.mem_partsAll.mpr ⟨bound, hbound, hx⟩)
        · obtain rfl := List.mem_singleton.mp hx
          exact .inr (.composite rfl (wellTyped_constant _))
  | @guard below stop name v hoperands hv =>
      refine traced_of_frame (fun x hx => ?_) he
      rw [Frame.expressions, Expression.partsAll_append, List.mem_append, List.mem_append,
        mem_parts_binary_read] at hx
      rcases hx with hx | hx | rfl | rfl | hx
      · exact traced_of_code hx
      · exact hbelow hoperands x hx
      · exact .inr (.composite rfl (.condition _ _ _ (.inl rfl)))
      · exact .inr (.read (.inl rfl))
      · exact habove hoperands x hx
  | use hoperands h _ =>
      exact traced_of_emit (hbelow hoperands) (fun _ => h.traced hoperands) he
  | @assign below value name v declaration t hoperands h =>
      refine traced_of_emit (hbelow hoperands) (fun x hx => habove hoperands x ?_) he
      rwa [expressions_append, h.expressions_eq, List.nil_append, expressions_assign] at hx
  | @hint name ty v declaration t h =>
      refine traced_of_emit (fun _ => traced_of_operands (List.Subset.refl _)) (fun x hx => ?_) he
      rw [h.expressions_eq] at hx
      cases hx
  | @assignElement below value index name v unified hoperands hv hty =>
      refine traced_of_emit (hbelow hoperands) (fun x hx => habove hoperands x ?_) he
      rw [expressions_assignElement] at hx
      exact Expression.partsAll_subset (by simp) hx
  | @augmentElement below index value name v op unified hoperands hv hty =>
      refine traced_of_emit (hbelow hoperands) (fun x hx => ?_) he
      rw [expressions_assignElement] at hx
      rcases mem_parts_augmented hx with rfl | rfl | rfl | hx
      · refine .inr (.composite rfl ?_)
        exact wellTyped_binary op
          (.arrayElement (.read v (s.table.tyOf v)) index (s.table.tyOf v).element) value
      · exact .inr (.composite rfl (.arrayElement (.read v (s.table.tyOf v)) index _))
      · exact .inr (.read (.inl rfl))
      · exact habove hoperands x hx
  | openBlock =>
      refine traced_of_frame (fun x hx => ?_) he
      rw [Frame.expressions, Frame.code, Frame.codeOf_nest] at hx
      exact .inl (mem_expressions_of_frame hx)
  | closeSelection hoperands haround _ _ =>
      refine traced_of_close hoperands ?_ rfl rfl he
      rw [Frame.code, haround, Frame.codeOf_cons, Frame.codeOf_cons, List.append_assoc]
      rfl
  | closeLoop hoperands haround _ =>
      refine traced_of_close hoperands ?_ rfl rfl he
      rw [Frame.code, haround, Frame.codeOf_cons]
      rfl
  | @advance below step guard start before around v unified hoperands haround hv hty =>
      have hkept : below ++ [guard] ⊆ s.frame.operands := by
        simp [hoperands]
      have hstep : [step] ⊆ s.frame.operands := by
        simp [hoperands]
      refine traced_of_emit (fun _ => traced_of_operands hkept) (fun x hx => ?_) he
      rw [expressions_assign, mem_parts_binary_read] at hx
      rcases hx with rfl | rfl | hx
      · refine .inr (.composite rfl ?_)
        have hsame : BinOp.add.resultTy ((s.table.raise v unified).tyOf v) step.ty =
            BinOp.add.resultTy (s.table.tyOf v) step.ty := by
          rw [Table.tyOf_raise, if_pos rfl]
          exact resultTy_add_of_unify hty
        rw [← hsame]
        exact wellTyped_binary .add (.read v ((s.table.raise v unified).tyOf v)) step
      · exact .inr (.read (.inr rfl))
      · exact traced_of_operands hstep hx
  | declareFunction => exact .inl he
  | openFunction h =>
      obtain ⟨g, hg, hmem⟩ := List.mem_flatMap.mp he
      rcases List.mem_cons.mp hg with rfl | hg
      · cases hmem
      · exact .inl (List.mem_flatMap.mpr ⟨g, hg, hmem⟩)
  | parameter hblock haround hhints =>
      exact traced_of_frame (fun x hx => .inl (mem_expressions_of_frame hx)) he
  | closeFunction hplace houter haround hoperands hty =>
      obtain ⟨g, hg, hmem⟩ := List.mem_flatMap.mp he
      have hunit := (units_closeFunction houter _).mem_iff.mp hg
      exact .inl (List.mem_flatMap.mpr ⟨g, hunit, hmem⟩)

/-! ## Runs -/

end Lowering

end TypedPseudocode
