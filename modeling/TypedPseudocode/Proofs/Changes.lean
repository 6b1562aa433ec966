import TypedPseudocode.Proofs.Progress

/-!
What a step can change.

Three kinds of steps declare, begin and complete functions.  Every other step is
local: it works on the innermost scope and on the current frame.  Of a local step
only a few things matter to the properties of documents: how the table changes,
which reads, calls and assignments are new in the frame, and why the variables
and procedures in them may be used there.
-/

namespace TypedPseudocode.Lowering

open Code TypedPseudocode.Tree

variable {β : Type}

/-! ## Views of operands -/

theorem Composes.mem_operands {operands : List TypedExpression} {e : TypedExpression}
    (h : Composes operands e) (w : View β) (x : β) :
    x ∈ w.operands [e] ↔ x ∈ w.operands operands := by
  cases h with
  | connect h => rw [w.operands_chain h]
  | @compare ops _ _ _ hlength h =>
      have hops : ops ≠ [] := by
        rintro rfl
        cases h
      rw [w.operands_chain h, w.mem_operands_comparisons hlength hops]
  | @callBuiltin name _ _ _ _ hfunction _ =>
      have hname : name ≠ "append" := by
        rintro rfl
        exact absurd hfunction (by decide)
      rw [w.operands_composite (by simpa [Expression.isComposite] using hname)]
      rfl
  | _ =>
      rw [w.operands_composite rfl]
      rfl

theorem Bounds.mem_operands {arguments : List TypedExpression} {range : Range}
    (h : Bounds arguments range) (w : View β) (x : β) :
    x ∈ w.operands [range.step, range.stop, range.start] ↔ x ∈ w.operands arguments := by
  have hint (n : Int) : w.operands [.int n] = [] := by
    rw [w.operands_composite rfl]
    rfl
  have hsplit (a b c : TypedExpression) : w.operands [a, b, c] =
      w.operands [a] ++ (w.operands [b] ++ w.operands [c]) := by
    rw [w.operands_split a [b, c], w.operands_pair]
  cases h with
  | stop stop => simp [hsplit, hint]
  | start start stop =>
      simp only [hsplit, hint, w.operands_pair, List.mem_append, List.not_mem_nil]
      grind
  | step start stop step =>
      simp only [hsplit, List.mem_append]
      grind

theorem operands_read (w : View β) (v : VarId) (ty : Ty) :
    w.operands [.read v ty] = (w.expression (.read v ty)).toList := by
  rw [w.operands_cons]
  simp [Expression.inner]

theorem operands_binary_read (w : View β) (op : BinOp) (v : VarId) (ty ty' : Ty)
    (e : TypedExpression) :
    w.operands [.binary op (.read v ty) e ty'] =
      (w.expression (.read v ty)).toList ++ w.operands [e] := by
  rw [w.operands_composite rfl, Expression.inner, w.operands_pair, operands_read]

theorem operands_augmented (w : View β) (op : BinOp) (v : VarId) (ty : Ty)
    (index value : TypedExpression) :
    w.operands [augmented op v ty index value] =
      (w.expression (.read v ty)).toList ++ (w.operands [index] ++ w.operands [value]) := by
  have helement : w.operands [.arrayElement (.read v ty) index ty.element] =
      (w.expression (.read v ty)).toList ++ w.operands [index] := by
    rw [w.operands_composite rfl, Expression.inner, w.operands_pair, operands_read]
  rw [augmented, w.operands_composite rfl, Expression.inner, w.operands_pair, helement,
    List.append_assoc]

/-! ## Code of frames -/

namespace Frame

theorem codeOf_emit (statements more : List TypedStatement) (returns returns' : Ty)
    (around : List Block) :
    codeOf ⟨statements ++ more, returns⟩ around = codeOf ⟨statements, returns'⟩ around ++ more := by
  simp [codeOf]

theorem codeOf_nest (block : Block) (around : List Block) (returns : Ty) :
    codeOf ⟨[], returns⟩ (block :: around) = codeOf block around := by
  simp [codeOf]

theorem codeOf_cons (block before : Block) (around : List Block) :
    codeOf block (before :: around) = codeOf before around ++ block.statements := by
  simp [codeOf]

end Frame

/-! ## Local steps -/

inductive Made where
  | statement (s : TypedStatement)
  | expression (e : TypedExpression)

def Made.seen (w : View β) : Made → Option β
  | .statement s => w.statement s
  | .expression e => w.expression e

@[simp] theorem seen_statement (w : View β) (s : TypedStatement) :
    (Made.statement s).seen w = w.statement s := rfl

@[simp] theorem seen_expression (w : View β) (e : TypedExpression) :
    (Made.expression e).seen w = w.expression e := rfl

@[simp] theorem seen_singleton (w : View β) (m : Made) (x : β) :
    (∃ n ∈ [m], n.seen w = some x) ↔ m.seen w = some x := by
  simp

@[simp] theorem seen_pair (w : View β) (m n : Made) (x : β) :
    (∃ k ∈ [m, n], k.seen w = some x) ↔ m.seen w = some x ∨ n.seen w = some x := by
  simp

/-- A variable may be used: it is visible, or the frame has assigned to it before. -/
def State.Sees (s : State) (v : VarId) : Prop :=
  v ∈ s.frame.view View.assignments ∨ ∃ name, s.table.lookup name .enclosing = some (.variable v)

/-- Why something new may stand in a frame. -/
inductive Justified (s : State) (t : Table) : Made → Prop
  | read {v : VarId} {ty : Ty} (h : s.Sees v) : Justified s t (.expression (.read v ty))
  | call {p : ProcId} {arguments : List TypedExpression} {ty : Ty} {name : String}
      (h : s.table.lookup name .enclosing = some (.procedure p))
      (ht : t = s.table.reach name p (arguments.map (·.ty))) :
      Justified s t (.expression (.call p arguments ty))
  | append (arguments : List TypedExpression) :
      Justified s t (.expression (.callBuiltin "append" arguments .void))
  | assign {v : VarId} {value : TypedExpression}
      (h : v ∈ s.frame.view View.assignments ∨
        ∃ name, t.scope.get? name = some (.variable v)) :
      Justified s t (.statement (.assign v value))
  | assignElement {v : VarId} {index value : TypedExpression} (h : s.Sees v) :
      Justified s t (.statement (.assignElement v [index] value))

inductive Changes (s : State) : Table → List VarId → List (VarId × Ty) → Prop
  | same : Changes s s.table [] []
  | reach (name : String) (p : ProcId) (arguments : List Ty) :
      Changes s (s.table.reach name p arguments) [] []
  | raise {v : VarId} {ty unified : Ty} (hv : s.Sees v)
      (hty : (s.table.tyOf v).unify ty = some unified) :
      Changes s (s.table.raise v unified) [] [(v, ty)]
  | declare (name : String) (stated : Option Ty) (slot : Option Slot)
      (hname : s.table.scope.get? name = none ∨ s.frame.hints = []) :
      Changes s (s.table.withVariable name stated slot) [⟨s.table.vars.length⟩]
        [(⟨s.table.vars.length⟩, s.table.variableSeed name stated slot)]

structure Local (s s' : State) (new : List VarId) (told : List (VarId × Ty))
    (made : List Made) : Prop where
  changes : Changes s s'.table new told
  outer : s'.outer = s.outer
  finished : s'.finished = s.finished
  pending : s'.pending = s.pending
  place : s'.frame.place = s.frame.place
  enclosing : s'.frame.enclosing = s.frame.enclosing
  name : s'.frame.name = s.frame.name
  parameters : ∀ hint ∈ s'.frame.parameters,
    hint ∈ s.frame.parameters ∨ (s'.table.varAt hint.target).name = hint.name
  locals : s'.frame.locals = s.frame.locals ++ new
  view : ∀ {β : Type} (w : View β) (x : β),
    x ∈ s'.frame.view w ↔ x ∈ s.frame.view w ∨ ∃ m ∈ made, m.seen w = some x
  justified : ∀ m ∈ made, Justified s s'.table m
  told : ∀ x, x ∈ s'.frame.told ↔ x ∈ s.frame.told ∨ x ∈ told
  hints : ∀ hint ∈ s'.frame.hints,
    hint ∈ s.frame.hints ∨ s'.table.scope.get? hint.name = some (.variable hint.target)

section Local

variable {s : State} {t : Table} {told : List (VarId × Ty)} {made : List Made}

theorem local_of_code {block : Block} {around : List Block} {operands : List TypedExpression}
    {new : List VarId} (hchanges : Changes s t new told)
    (htold : made.filterMap (Made.seen View.types) = told)
    (hdeclared : declared (Frame.codeOf block around) = declared s.frame.code ++ new)
    (hview : ∀ {β : Type} (w : View β) (x : β),
      x ∈ w.code (Frame.codeOf block around) ++ w.operands operands ↔
        x ∈ s.frame.view w ∨ ∃ m ∈ made, m.seen w = some x)
    (hjustified : ∀ m ∈ made, Justified s t m) :
    Local s { s with table := t, frame := { s.frame with block, around, operands } } new told
      made where
  changes := hchanges
  outer := rfl
  finished := rfl
  pending := rfl
  place := rfl
  enclosing := rfl
  name := rfl
  parameters _ hmem := .inl hmem
  locals := by
    simp only [Frame.locals, List.append_assoc]
    rw [← hdeclared]
    rfl
  view := hview
  justified := hjustified
  told x := by
    have htypes := hview View.types x
    rw [← htold]
    simp only [Frame.told, List.mem_append, List.mem_filterMap]
    change _ ∨ x ∈ View.types.code (Frame.codeOf block around) ++ View.types.operands operands ↔ _
    rw [htypes]
    grind
  hints _ hmem := .inl hmem

theorem local_of_operands {operands : List TypedExpression} (hchanges : Changes s t [] told)
    (htold : made.filterMap (Made.seen View.types) = told)
    (hview : ∀ {β : Type} (w : View β) (x : β),
      x ∈ w.operands operands ∨ x ∈ w.code s.frame.code ↔
        (x ∈ w.operands s.frame.operands ∨ x ∈ w.code s.frame.code) ∨
          ∃ m ∈ made, m.seen w = some x)
    (hjustified : ∀ m ∈ made, Justified s t m) :
    Local s { s with table := t, frame := { s.frame with operands } } [] told made := by
  refine local_of_code hchanges htold (List.append_nil _).symm ?_ hjustified
  intro β w x
  rw [List.mem_append, or_comm, Frame.view, List.mem_append, or_comm (a := x ∈ w.code _)]
  exact hview w x

theorem sees_of_scope {name : String} {v : VarId}
    (h : s.table.scope.get? name = some (.variable v)) : s.Sees v :=
  .inr ⟨name, Table.lookup_enclosing_of_innermost h⟩

theorem local_of_eval {operands : List TypedExpression}
    (h : Eval s.table s.frame.operands t operands) :
    ∃ told made, Local s { s with table := t, frame := { s.frame with operands } } [] told
      made := by
  generalize hbefore : s.frame.operands = before at h
  cases h with
  | compose h =>
      refine ⟨[], [], local_of_operands .same rfl ?_ (by simp)⟩
      intro β w x
      simp [hbefore, h.mem_operands w x]
  | @read _ name v h =>
      refine ⟨[], [.expression (.read v (s.table.tyOf v))], local_of_operands .same rfl ?_ ?_⟩
      · intro β w x
        simp only [hbefore, w.operands_append, operands_read, seen_singleton, seen_expression,
          List.mem_append, Option.mem_toList]
        grind
      · simpa using .read (.inr ⟨name, h⟩)
  | @call below arguments name p h =>
      let reached := s.table.reach name p (arguments.map (·.ty))
      refine ⟨[], [.expression (.call p arguments (reached.procAt p).ty)],
        local_of_operands (.reach name p _) rfl ?_ ?_⟩
      · intro β w x
        simp only [hbefore, w.operands_append, w.operands_cons, w.operands_nil, Expression.inner,
          seen_singleton, seen_expression, List.mem_append, List.append_nil, Option.mem_toList,
          reached]
        grind
      · simpa using .call h rfl
  | @append below value name v ty h hty =>
      let raised := s.table.raise v ty
      refine ⟨[(v, .array value.ty)],
        [.expression (.callBuiltin "append" [.read v (raised.tyOf v), value] .void),
          .expression (.read v (raised.tyOf v))],
        local_of_operands (.raise (.inr ⟨name, h⟩) hty) rfl ?_ ?_⟩
      · intro β w x
        simp only [hbefore, w.operands_append, w.operands_cons, w.operands_nil, Expression.inner,
          seen_pair, seen_expression, List.mem_append, List.append_nil, Option.mem_toList,
          raised]
        grind
      · simpa using ⟨.append _, .read (.inr ⟨name, h⟩)⟩

theorem local_of_emit {operands : List TypedExpression} {code : List TypedStatement}
    {returns : Ty} {new : List VarId} (hchanges : Changes s t new told)
    (htold : made.filterMap (Made.seen View.types) = told) (hdeclared : declared code = new)
    (hview : ∀ {β : Type} (w : View β) (x : β),
      x ∈ w.code code ∨ x ∈ w.operands operands ↔
        x ∈ w.operands s.frame.operands ∨ ∃ m ∈ made, m.seen w = some x)
    (hjustified : ∀ m ∈ made, Justified s t m) :
    Local s { s with
      table := t
      frame := { s.frame with
        operands
        block := ⟨s.frame.block.statements ++ code, returns⟩ } } new told made := by
  have hcode : Frame.codeOf ⟨s.frame.block.statements ++ code, returns⟩ s.frame.around =
      s.frame.code ++ code :=
    Frame.codeOf_emit _ _ _ _ _
  refine local_of_code hchanges htold ?_ ?_ hjustified
  · rw [hcode, declared_append, hdeclared]
  · intro β w x
    rw [hcode, w.code_append, List.append_assoc, List.mem_append, List.mem_append, hview w x,
      Frame.view, List.mem_append, or_assoc]

theorem local_of_again {value : TypedExpression}
    (h : ∃ assignment ∈ s.frame.block.statements, value ∈ assignment.operands) :
    Local s { s with frame := { s.frame with operands := s.frame.operands ++ [value] } } [] []
      [] := by
  obtain ⟨assignment, hmem, huses⟩ := h
  refine local_of_operands .same rfl ?_ (by simp)
  intro β w x
  have hseen : x ∈ w.operands [value] → x ∈ w.code s.frame.code := fun hx =>
    w.operands_subset_code (List.mem_append_right _ hmem) huses hx
  rw [w.operands_append, List.mem_append]
  grind

theorem local_of_uses {below operands : List TypedExpression} {statement : TypedStatement}
    {ty returns : Ty} (hoperands : s.frame.operands = below ++ operands)
    (h : Uses operands statement ty) :
    Local s { s with
      frame := { s.frame with
        operands := below
        block := ⟨s.frame.block.statements ++ [statement], returns⟩ } } [] [] [] := by
  refine local_of_emit .same rfl (by cases h <;> rfl) ?_ (by simp)
  intro β w x
  have hsame : w.code [statement] = w.operands operands := by
    cases h with
    | call p arguments ty =>
        rw [w.code_cons, w.operands_cons, w.ofCall p arguments ty]
        simp [Statement.operands, Statement.inner, Expression.inner]
    | append arguments ty =>
        rw [w.code_cons, w.operands_cons, w.ofAppend arguments ty]
        simp [Statement.operands, Statement.inner, Expression.inner]
    | _ =>
        rw [w.code_composite rfl]
        simp [Statement.operands, Statement.inner]
  rw [hoperands, hsame, w.operands_append, List.mem_append]
  grind

theorem Binds.changes {name : String} {ty : Ty} {v : VarId} {declaration : List TypedStatement}
    (h : Binds s.table name ty v declaration t) :
    ∃ new, Changes s t new [(v, ty)] ∧ declared declaration = new ∧
      ∀ {β : Type} (w : View β), w.code declaration = [] := by
  cases h with
  | known h hty => exact ⟨[], .raise (sees_of_scope h) hty, rfl, fun w => w.code_nil⟩
  | fresh h =>
      refine ⟨[_], .declare name (some ty) none (.inl h), rfl, fun w => ?_⟩
      rw [w.code_composite rfl]
      rfl

theorem local_of_assign {below : List TypedExpression} {value : TypedExpression}
    {name : String} {v : VarId} {declaration : List TypedStatement}
    (hoperands : s.frame.operands = below ++ [value])
    (h : Binds s.table name value.ty v declaration t) :
    ∃ new told made, Local s { s with
      table := t
      frame := { s.frame with
        operands := below
        block := ⟨s.frame.block.statements ++ (declaration ++ [.assign v value]),
          s.frame.block.returns⟩ } } new told made := by
  obtain ⟨new, hchanges, hdeclared, hnothing⟩ := h.changes
  refine ⟨new, _, [.statement (.assign v value)], local_of_emit hchanges rfl ?_ ?_ ?_⟩
  · simp [hdeclared, declared_cons, Statement.declaration?, Statement.inner]
  · intro β w x
    simp only [w.code_append, hnothing w, hoperands, w.code_cons, w.code_nil, w.operands_append,
      Statement.operands, Statement.inner, seen_singleton, seen_statement, List.mem_append,
      List.append_nil, List.nil_append, Option.mem_toList]
    grind
  · simpa using .assign (.inr ⟨name, h.get?⟩)

theorem local_of_hint {name : String} {ty : Ty} {v : VarId}
    {declaration : List TypedStatement} (h : Binds s.table name ty v declaration t) :
    ∃ new told, Local s { s with
      table := t
      frame := { s.frame with
        block := ⟨s.frame.block.statements ++ declaration, s.frame.block.returns⟩
        hints := s.frame.hints ++ [⟨name, ty, v⟩] } } new told [] := by
  obtain ⟨new, hchanges, hdeclared, hnothing⟩ := h.changes
  have hcode : Frame.codeOf ⟨s.frame.block.statements ++ declaration, s.frame.block.returns⟩
      s.frame.around = s.frame.code ++ declaration :=
    Frame.codeOf_emit _ _ _ _ _
  have hview {β : Type} (w : View β) :
      w.code (Frame.codeOf ⟨s.frame.block.statements ++ declaration, s.frame.block.returns⟩
        s.frame.around) = w.code s.frame.code := by
    rw [hcode, w.code_append, hnothing w, List.append_nil]
  refine ⟨new, _, ⟨hchanges, rfl, rfl, rfl, rfl, rfl, rfl, fun _ => .inl, ?_, ?_, by simp, ?_,
    ?_⟩⟩
  · simp only [Frame.locals, Frame.code, hcode, declared_append, hdeclared, List.append_assoc]
  · intro β w x
    simp [Frame.view, Frame.code, hview w]
  · intro x
    simp only [Frame.told, Frame.view, Frame.code, hview View.types, List.map_append,
      List.mem_append, List.map_cons, List.map_nil]
    grind
  · intro hint hmem
    rcases List.mem_append.mp hmem with hmem | hmem
    · exact .inl hmem
    · obtain rfl := List.mem_singleton.mp hmem
      exact .inr h.get?

theorem local_of_parameter {name : String} {stated : Option Ty} {slot : Option Slot}
    (hblock : s.frame.block.statements = []) (haround : s.frame.around = [])
    (hhints : s.frame.hints = []) :
    ∃ new told, Local s { s with
      table := s.table.withVariable name stated slot
      frame := { s.frame with
        parameters := s.frame.parameters ++
          [⟨name, s.table.variableSeed name stated slot, ⟨s.table.vars.length⟩⟩] } } new told
      [] := by
  have hcode : s.frame.code = [] := by
    simp [Frame.code, Frame.codeOf, hblock, haround]
  refine ⟨_, _, ⟨.declare name stated slot (.inr hhints), rfl, rfl, rfl, rfl, rfl, rfl, ?_, ?_,
    ?_, by simp, ?_, fun hint hmem => .inl hmem⟩⟩
  · intro hint hmem
    rcases List.mem_append.mp hmem with hmem | hmem
    · exact .inl hmem
    · obtain rfl := List.mem_singleton.mp hmem
      exact .inr (by simp [Declarations.varAt])
  · have hsame : Frame.codeOf s.frame.block s.frame.around = [] := hcode
    simp [Frame.locals, Frame.code, hsame]
  · intro β w x
    simp [Frame.view, Frame.code]
  · intro x
    simp only [Frame.told, Frame.view, Frame.code, List.mem_append, List.mem_singleton]
    grind

theorem local_of_assignElement {below : List TypedExpression} {value index : TypedExpression}
    {name : String} {v : VarId} {unified : Ty}
    (hoperands : s.frame.operands = below ++ [value, index])
    (hv : s.table.lookup name .enclosing = some (.variable v))
    (hty : (s.table.tyOf v).unify (.array value.ty) = some unified) :
    ∃ told made, Local s { s with
      table := s.table.raise v unified
      frame := { s.frame with
        operands := below
        block := ⟨s.frame.block.statements ++ [.assignElement v [index] value],
          s.frame.block.returns⟩ } } [] told made := by
  refine ⟨_, [.statement (.assignElement v [index] value)],
    local_of_emit (.raise (.inr ⟨name, hv⟩) hty) rfl rfl ?_ ?_⟩
  · intro β w x
    simp only [hoperands, w.code_cons, w.code_nil, w.operands_append, w.operands_pair,
      Statement.operands, Statement.inner, seen_singleton, seen_statement, List.mem_append,
      List.append_nil, Option.mem_toList]
    grind
  · simpa using .assignElement (.inr ⟨name, hv⟩)

theorem local_of_augmentElement {below : List TypedExpression}
    {index value : TypedExpression} {name : String} {v : VarId} {op : BinOp} {unified : Ty}
    (hoperands : s.frame.operands = below ++ [index, value])
    (hv : s.table.lookup name .enclosing = some (.variable v))
    (hty : (s.table.tyOf v).unify
      (.array (op.resultTy (s.table.tyOf v).element value.ty)) = some unified) :
    ∃ told made, Local s { s with
      table := s.table.raise v unified
      frame := { s.frame with
        operands := below
        block := ⟨s.frame.block.statements ++
          [.assignElement v [index] (augmented op v (s.table.tyOf v) index value)],
          s.frame.block.returns⟩ } } [] told made := by
  refine ⟨_, [.statement (.assignElement v [index] (augmented op v (s.table.tyOf v) index value)),
    .expression (.read v (s.table.tyOf v))],
    local_of_emit (.raise (.inr ⟨name, hv⟩) hty) rfl rfl ?_ ?_⟩
  · intro β w x
    simp only [hoperands, w.code_cons, w.code_nil, w.operands_append, w.operands_pair,
      operands_augmented, Statement.operands, Statement.inner, seen_pair, seen_statement,
      seen_expression, List.mem_append, List.append_nil, Option.mem_toList]
    grind
  · simpa using ⟨.assignElement (.inr ⟨name, hv⟩), .read (.inr ⟨name, hv⟩)⟩

theorem local_of_spread {below arguments : List TypedExpression} {ty : Ty} {range : Range}
    (hoperands : s.frame.operands = below ++ [.callBuiltin "range" arguments ty])
    (hrange : Bounds arguments range) :
    Local s { s with
      frame := { s.frame with
        operands := below ++ [range.step, range.stop, range.start] } } [] [] [] := by
  refine local_of_operands .same rfl ?_ (by simp)
  intro β w x
  have hcall : w.operands [.callBuiltin "range" arguments ty] = w.operands arguments := by
    rw [w.operands_composite rfl, Expression.inner]
  rw [hoperands, w.operands_append, w.operands_append, hcall, List.mem_append, List.mem_append,
    hrange.mem_operands w x]
  simp

theorem local_of_guard {below : List TypedExpression} {stop : TypedExpression} {name : String}
    {v : VarId} (hoperands : s.frame.operands = below ++ [stop])
    (hv : s.table.scope.get? name = some (.variable v)) :
    ∃ made, Local s { s with
      frame := { s.frame with
        operands :=
          below ++ [.binary .different (.read v (s.table.tyOf v)) stop .boolean] } } [] []
      made := by
  refine ⟨[.expression (.read v (s.table.tyOf v))], local_of_operands .same rfl ?_ ?_⟩
  · intro β w x
    simp only [hoperands, w.operands_append, operands_binary_read, seen_singleton,
      seen_expression, List.mem_append, Option.mem_toList]
    grind
  · simpa using .read (sees_of_scope hv)

theorem local_of_close {below : List TypedExpression} {guard : TypedExpression}
    {before : Block} {around : List Block} {inside : List TypedStatement}
    {statement : TypedStatement} {returns : Ty}
    (hoperands : s.frame.operands = below ++ [guard])
    (hcode : s.frame.code = Frame.codeOf before around ++ inside)
    (hcomposite : statement.isComposite) (hguard : statement.operands = [guard])
    (hinner : statement.inner = inside) (hdeclaration : statement.declaration? = none) :
    Local s { s with
      frame := { s.frame with
        operands := below
        block := ⟨before.statements ++ [statement], returns⟩
        around := around } } [] [] [] := by
  have hclosed : Frame.codeOf ⟨before.statements ++ [statement], returns⟩ around =
      Frame.codeOf before around ++ [statement] :=
    Frame.codeOf_emit _ _ _ _ _
  refine local_of_code .same rfl ?_ ?_ (by simp)
  · rw [hclosed, hcode, declared_append, declared_append, declared_cons, hinner, hdeclaration]
    simp
  · intro β w x
    rw [hclosed, w.code_append, w.code_composite hcomposite, hguard, hinner, Frame.view, hcode,
      w.code_append, hoperands, w.operands_append]
    simp only [List.mem_append, List.not_mem_nil, false_and, exists_false, or_false]
    grind

theorem local_of_openBlock :
    Local s { s with
      frame := { s.frame with
        block := ⟨[], .unknown⟩
        around := s.frame.block :: s.frame.around } } [] [] [] := by
  refine local_of_code .same rfl ?_ ?_ (by simp)
  · rw [Frame.codeOf_nest, List.append_nil]
    rfl
  · intro β w x
    rw [Frame.codeOf_nest]
    simp [Frame.view, Frame.code]

theorem local_of_advance {below : List TypedExpression} {step guard start : TypedExpression}
    {before : Block} {around : List Block} {v : VarId} {unified : Ty}
    (hoperands : s.frame.operands = below ++ [step, guard])
    (haround : s.frame.around = before :: around) (hv : .assign v start ∈ before.statements)
    (hty : (s.table.tyOf v).unify (BinOp.add.resultTy (s.table.tyOf v) step.ty) =
      some unified) :
    ∃ told made, Local s { s with
      table := s.table.raise v unified
      frame := { s.frame with
        operands := below ++ [guard]
        block := ⟨s.frame.block.statements ++
          [.assign v (.binary .add (.read v ((s.table.raise v unified).tyOf v)) step
            (BinOp.add.resultTy (s.table.tyOf v) step.ty))],
          s.frame.block.returns⟩ } } [] told made := by
  have hassigned : v ∈ s.frame.view View.assignments := by
    have hcode : .assign v start ∈ s.frame.code := by
      rw [Frame.code, haround, Frame.codeOf_cons]
      exact List.mem_append_left _ (List.mem_append_right _ hv)
    obtain ⟨left, right, hsplit⟩ := List.append_of_mem hcode
    have hone : v ∈ View.assignments.code s.frame.code := by
      rw [hsplit, View.code_append, View.code_cons]
      simp [View.assignments, Statement.assigned?]
    exact List.mem_append_left _ hone
  refine ⟨_, [.statement (.assign v (.binary .add (.read v ((s.table.raise v unified).tyOf v))
      step (BinOp.add.resultTy (s.table.tyOf v) step.ty))),
    .expression (.read v ((s.table.raise v unified).tyOf v))],
    local_of_emit (.raise (.inl hassigned) hty) rfl rfl ?_ ?_⟩
  · intro β w x
    simp only [hoperands, w.code_cons, w.code_nil, w.operands_append, w.operands_pair,
      operands_binary_read, Statement.operands, Statement.inner, seen_pair, seen_statement,
      seen_expression, List.mem_append, List.append_nil, Option.mem_toList]
    grind
  · simpa using ⟨.assign (.inl hassigned), .read (.inl hassigned)⟩

end Local

/-! ## All steps -/

/-- What a step can do, as far as properties of documents are concerned. -/
inductive Moves : State → State → Prop
  | inside {s s' : State} {new : List VarId} {told : List (VarId × Ty)} {made : List Made}
      (h : Local s s' new told made) : Moves s s'
  | declareFunction {s : State} {name : String} {stated : Option Ty} :
      Moves s { s with
        table := s.table.withProcedure name stated
        pending := s.pending ++ [⟨⟨s.table.procedures.length⟩, name, s.frame.lineage⟩] }
  | openFunction {s : State} {p : ProcId} {name : String} {before after : List Waiting}
      (h : s.pending = before ++ ⟨p, name, s.frame.lineage⟩ :: after) :
      Moves s { s with
        table := s.table.enter
        frame := .start (some p) s.frame.lineage (some name)
        outer := s.frame :: s.outer
        pending := before ++ after }
  | closeFunction {s : State} {p : ProcId} {f : Frame} {outer : List Frame} {unified : Ty}
      (hplace : s.frame.place = some p) (houter : s.outer = f :: outer)
      (haround : s.frame.around = []) (hoperands : s.frame.operands = [])
      (hty : (s.table.leave.procAt p).ty.unify s.frame.block.returns = some unified) :
      Moves s { s with
        table := s.table.leave.complete p unified (s.frame.parameters.map (·.target))
          s.frame.block.statements
        frame := f
        outer := outer
        finished := s.finished ++ [s.frame] }

theorem Step.moves {s s' : State} (h : Step s s') : Moves s s' := by
  cases h with
  | eval h =>
      obtain ⟨told, made, hlocal⟩ := local_of_eval h
      exact .inside hlocal
  | again h => exact .inside (local_of_again h)
  | spread hoperands hrange => exact .inside (local_of_spread hoperands hrange)
  | guard hoperands hv =>
      obtain ⟨made, hlocal⟩ := local_of_guard hoperands hv
      exact .inside hlocal
  | use hoperands h _ => exact .inside (local_of_uses hoperands h)
  | assign hoperands h =>
      obtain ⟨new, told, made, hlocal⟩ := local_of_assign hoperands h
      exact .inside hlocal
  | hint h =>
      obtain ⟨new, told, hlocal⟩ := local_of_hint h
      exact .inside hlocal
  | assignElement hoperands hv hty =>
      obtain ⟨told, made, hlocal⟩ := local_of_assignElement hoperands hv hty
      exact .inside hlocal
  | augmentElement hoperands hv hty =>
      obtain ⟨told, made, hlocal⟩ := local_of_augmentElement hoperands hv hty
      exact .inside hlocal
  | openBlock => exact .inside local_of_openBlock
  | closeSelection hoperands haround _ _ =>
      refine .inside (local_of_close hoperands ?_ rfl rfl rfl rfl)
      rw [Frame.code, haround, Frame.codeOf_cons, Frame.codeOf_cons, List.append_assoc]
      rfl
  | closeLoop hoperands haround _ =>
      refine .inside (local_of_close hoperands ?_ rfl rfl rfl rfl)
      rw [Frame.code, haround, Frame.codeOf_cons]
      rfl
  | advance hoperands haround hv hty =>
      obtain ⟨told, made, hlocal⟩ := local_of_advance hoperands haround hv hty
      exact .inside hlocal
  | declareFunction => exact .declareFunction
  | openFunction h => exact .openFunction h
  | parameter hblock haround hhints =>
      obtain ⟨new, told, hlocal⟩ := local_of_parameter hblock haround hhints
      exact .inside hlocal
  | closeFunction hplace houter haround hoperands hty =>
      exact .closeFunction hplace houter haround hoperands hty

theorem runs_induction {P : State → Prop} {initial s : State} (h : Runs initial s)
    (hinitial : P initial)
    (hkeep : ∀ {s s' : State}, Runs initial s → Moves s s' → P s → P s') : P s := by
  induction h with
  | refl => exact hinitial
  | tail hrun step ih => exact hkeep hrun step.moves ih

end TypedPseudocode.Lowering
