import TypedPseudocode.Code

/-!
Everything that stands in a piece of code, at any depth.

`parts` lists an expression or a statement together with all that is nested in
it, outside before inside and left before right.  What code declares, assigns,
refers to and tells of types is read off its parts, so it splits over lists of
statements and does not change when references and types are replaced.
-/

namespace TypedPseudocode.Code

variable {D V P T D' V' P' T' : Type}

/-! ## Parts -/

mutual

/-- An expression and every expression inside it. -/
def Expression.parts : Expression V P T → List (Expression V P T)
  | .read target ty => [.read target ty]
  | .readBuiltin name ty => [.readBuiltin name ty]
  | .call procedure arguments ty =>
      .call procedure arguments ty :: Expression.partsAll arguments
  | .callBuiltin name arguments ty =>
      .callBuiltin name arguments ty :: Expression.partsAll arguments
  | .arrayLength target => .arrayLength target :: target.parts
  | .arrayElement target index ty =>
      .arrayElement target index ty :: (target.parts ++ index.parts)
  | .literal value ty => [.literal value ty]
  | .aggregate elements ty => .aggregate elements ty :: Expression.partsAll elements
  | .binary op left right ty => .binary op left right ty :: (left.parts ++ right.parts)
  | .unary op operand ty => .unary op operand ty :: operand.parts

def Expression.partsAll : List (Expression V P T) → List (Expression V P T)
  | [] => []
  | e :: es => e.parts ++ Expression.partsAll es

end

mutual

def Statement.parts : Statement D V P T → List (Statement D V P T)
  | .selection guard body alternative =>
      .selection guard body alternative ::
        (Statement.partsAll body ++ Statement.partsAll alternative)
  | .loop guard body => .loop guard body :: Statement.partsAll body
  | s => [s]

def Statement.partsAll : List (Statement D V P T) → List (Statement D V P T)
  | [] => []
  | s :: ss => s.parts ++ Statement.partsAll ss

end

def Expression.inner : Expression V P T → List (Expression V P T)
  | .read .. | .readBuiltin .. | .literal .. => []
  | .call _ arguments _ | .callBuiltin _ arguments _ => arguments
  | .arrayLength target => [target]
  | .arrayElement target index _ => [target, index]
  | .aggregate elements _ => elements
  | .binary _ left right _ => [left, right]
  | .unary _ operand _ => [operand]

def Statement.inner : Statement D V P T → List (Statement D V P T)
  | .selection _ body alternative => body ++ alternative
  | .loop _ body => body
  | _ => []

def Statement.operands : Statement D V P T → List (Expression V P T)
  | .declare _ | .ret none | .breakLoop | .continueLoop => []
  | .call _ arguments | .callBuiltin _ arguments => arguments
  | .ret (some value) => [value]
  | .assign _ value => [value]
  | .assignElement _ indexes value => indexes ++ [value]
  | .selection guard _ _ | .loop guard _ => [guard]

@[simp] theorem Expression.partsAll_append (es fs : List (Expression V P T)) :
    Expression.partsAll (es ++ fs) = Expression.partsAll es ++ Expression.partsAll fs := by
  induction es with
  | nil => rfl
  | cons e es ih => simp [Expression.partsAll, ih]

@[simp] theorem Statement.partsAll_append (ss rs : List (Statement D V P T)) :
    Statement.partsAll (ss ++ rs) = Statement.partsAll ss ++ Statement.partsAll rs := by
  induction ss with
  | nil => rfl
  | cons s ss ih => simp [Statement.partsAll, ih]

theorem Expression.parts_eq (e : Expression V P T) :
    e.parts = e :: Expression.partsAll e.inner := by
  cases e <;> simp [Expression.parts, Expression.inner, Expression.partsAll]

theorem Expression.partsAll_cons (e : Expression V P T) (es : List (Expression V P T)) :
    Expression.partsAll (e :: es) =
      e :: (Expression.partsAll e.inner ++ Expression.partsAll es) := by
  rw [Expression.partsAll, Expression.parts_eq, List.cons_append]

theorem Statement.parts_eq (s : Statement D V P T) :
    s.parts = s :: Statement.partsAll s.inner := by
  cases s <;> simp [Statement.parts, Statement.inner, Statement.partsAll]

theorem Statement.partsAll_cons (s : Statement D V P T) (ss : List (Statement D V P T)) :
    Statement.partsAll (s :: ss) =
      s :: (Statement.partsAll s.inner ++ Statement.partsAll ss) := by
  rw [Statement.partsAll, Statement.parts_eq, List.cons_append]

/-! ## Declarations and references -/

def Statement.declaration? : Statement D V P T → Option D
  | .declare declaration => some declaration
  | _ => none

def Statement.assigned? : Statement D V P T → Option V
  | .assign target _ => some target
  | _ => none

def Statement.array? : Statement D V P T → Option V
  | .assignElement target _ _ => some target
  | _ => none

def declared (code : List (Statement D V P T)) : List D :=
  (Statement.partsAll code).filterMap Statement.declaration?

def assigned (code : List (Statement D V P T)) : List V :=
  (Statement.partsAll code).filterMap Statement.assigned?

def Expression.gather {β : Type} (view : Expression V P T → Option β)
    (es : List (Expression V P T)) : List β :=
  (Expression.partsAll es).filterMap view

/-- The variables read in expressions, the targets of `append` among them. -/
def Expression.reads (es : List (Expression V P T)) : List V :=
  Expression.gather Expression.target? es

/-- The variables that are read, or whose elements are assigned to. -/
def referenced (code : List (Statement D V P T)) : List V :=
  (Statement.partsAll code).flatMap fun s => s.array?.toList ++ Expression.reads s.operands

@[simp] theorem declared_nil : declared ([] : List (Statement D V P T)) = [] := rfl

@[simp] theorem declared_append (ss rs : List (Statement D V P T)) :
    declared (ss ++ rs) = declared ss ++ declared rs := by
  simp [declared]

theorem declared_cons (s : Statement D V P T) (ss : List (Statement D V P T)) :
    declared (s :: ss) = s.declaration?.toList ++ declared s.inner ++ declared ss := by
  simp only [declared, Statement.partsAll_cons, List.filterMap_cons, List.filterMap_append]
  cases s.declaration? <;> simp

section Gather

variable {β : Type} (view : Expression V P T → Option β)

@[simp] theorem Expression.gather_nil : Expression.gather view [] = [] := rfl

@[simp] theorem Expression.gather_append (es fs : List (Expression V P T)) :
    Expression.gather view (es ++ fs) =
      Expression.gather view es ++ Expression.gather view fs := by
  simp [Expression.gather]

theorem Expression.gather_cons (e : Expression V P T) (es : List (Expression V P T)) :
    Expression.gather view (e :: es) =
      (view e).toList ++ Expression.gather view e.inner ++ Expression.gather view es := by
  simp only [Expression.gather, Expression.partsAll_cons, List.filterMap_cons,
    List.filterMap_append]
  cases view e <;> simp

end Gather

/-! ## Calls -/

@[simp] theorem Expression.callsAll_append (es fs : List (Expression V P T)) :
    Expression.callsAll (es ++ fs) = Expression.callsAll es ++ Expression.callsAll fs := by
  induction es with
  | nil => rfl
  | cons e es ih => simp [Expression.callsAll, ih]

@[simp] theorem Statement.callsAll_append (ss rs : List (Statement D V P T)) :
    Statement.callsAll (ss ++ rs) = Statement.callsAll ss ++ Statement.callsAll rs := by
  induction ss with
  | nil => rfl
  | cons s ss ih => simp [Statement.callsAll, ih]

def Statement.callee? : Statement D V P T → Option P
  | .call procedure _ => some procedure
  | _ => none

theorem Statement.callsAll_cons (s : Statement D V P T) (ss : List (Statement D V P T)) :
    Statement.callsAll (s :: ss) =
      (s.callee?.toList ++ Expression.callsAll s.operands) ++ Statement.callsAll s.inner ++
        Statement.callsAll ss := by
  cases s with
  | ret value =>
      cases value <;> simp [Statement.callsAll, Statement.calls, Statement.operands,
        Statement.inner, Statement.callee?, Expression.callsAll]
  | _ =>
      simp [Statement.callsAll, Statement.calls, Statement.operands, Statement.inner,
        Statement.callee?, Expression.callsAll]

def Expression.callee? : Expression V P T → Option P
  | .call procedure _ _ => some procedure
  | _ => none

theorem Expression.calls_eq (e : Expression V P T) :
    e.calls = e.callee?.toList ++ Expression.callsAll e.inner := by
  cases e <;> simp [Expression.calls, Expression.callee?, Expression.inner,
    Expression.callsAll]

mutual

theorem Expression.calls_eq_gather (e : Expression V P T) :
    e.calls = Expression.gather Expression.callee? [e] := by
  rw [Expression.calls_eq, Expression.gather_cons]
  cases e with
  | call procedure arguments ty =>
      simp [Expression.inner, Expression.callsAll_eq_gather arguments]
  | callBuiltin name arguments ty =>
      simp [Expression.inner, Expression.callsAll_eq_gather arguments]
  | arrayLength target =>
      simp [Expression.inner, Expression.callsAll, Expression.calls_eq_gather target]
  | arrayElement target index ty =>
      have hsplit := Expression.gather_append Expression.callee? [target] [index]
      simp only [List.cons_append, List.nil_append] at hsplit
      simp [Expression.inner, Expression.callsAll, Expression.calls_eq_gather target,
        Expression.calls_eq_gather index, hsplit]
  | aggregate elements ty => simp [Expression.inner, Expression.callsAll_eq_gather elements]
  | binary op left right ty =>
      have hsplit := Expression.gather_append Expression.callee? [left] [right]
      simp only [List.cons_append, List.nil_append] at hsplit
      simp [Expression.inner, Expression.callsAll, Expression.calls_eq_gather left,
        Expression.calls_eq_gather right, hsplit]
  | unary op operand ty =>
      simp [Expression.inner, Expression.callsAll, Expression.calls_eq_gather operand]
  | _ => rfl

theorem Expression.callsAll_eq_gather (es : List (Expression V P T)) :
    Expression.callsAll es = Expression.gather Expression.callee? es := by
  cases es with
  | nil => rfl
  | cons e es =>
      rw [Expression.callsAll, Expression.calls_eq_gather e, Expression.callsAll_eq_gather es,
        ← Expression.gather_append, List.singleton_append]

end

/-! ## What code tells of types -/

/-- Appending to a variable tells that it is an array of what is appended. -/
def Expression.appended? : TypedExpression → Option (VarId × Ty)
  | .callBuiltin "append" [.read target _, value] _ => some (target, .array value.ty)
  | _ => none

def Statement.told? : TypedStatement → Option (VarId × Ty)
  | .assign target value => some (target, value.ty)
  | .assignElement target _ value => some (target, .array value.ty)
  | .callBuiltin "append" [.read target _, value] => some (target, .array value.ty)
  | _ => none

def Expression.told (es : List TypedExpression) : List (VarId × Ty) :=
  Expression.gather Expression.appended? es

def told (code : List TypedStatement) : List (VarId × Ty) :=
  (Statement.partsAll code).flatMap fun s => s.told?.toList ++ Expression.told s.operands

/-! ## Replaced references and types -/

theorem Expression.mapAll_eq_map (f : V → V') (g : P → P') (h : T → T')
    (es : List (Expression V P T)) :
    Expression.mapAll f g h es = es.map (Expression.map f g h) := by
  induction es with
  | nil => rfl
  | cons e es ih => rw [Expression.mapAll, ih, List.map_cons]

theorem Statement.mapAll_eq_map (d : D → D') (f : V → V') (g : P → P') (h : T → T')
    (ss : List (Statement D V P T)) :
    Statement.mapAll d f g h ss = ss.map (Statement.map d f g h) := by
  induction ss with
  | nil => rfl
  | cons s ss ih => rw [Statement.mapAll, ih, List.map_cons]

section MapMap

variable {D'' V'' P'' T'' : Type} (d : D → D') (f : V → V') (g : P → P') (h : T → T')
  (d' : D' → D'') (f' : V' → V'') (g' : P' → P'') (h' : T' → T'')

mutual

theorem Expression.map_map (e : Expression V P T) :
    (e.map f g h).map f' g' h' = e.map (f' ∘ f) (g' ∘ g) (h' ∘ h) := by
  cases e with
  | read | readBuiltin | literal => rfl
  | call | callBuiltin | aggregate => simp [Expression.map, Expression.mapAll_mapAll]
  | arrayLength target => simp [Expression.map, target.map_map]
  | arrayElement target index =>
      simp [Expression.map, target.map_map, index.map_map]
  | binary op left right => simp [Expression.map, left.map_map, right.map_map]
  | unary op operand => simp [Expression.map, operand.map_map]

theorem Expression.mapAll_mapAll (es : List (Expression V P T)) :
    Expression.mapAll f' g' h' (Expression.mapAll f g h es) =
      Expression.mapAll (f' ∘ f) (g' ∘ g) (h' ∘ h) es := by
  cases es with
  | nil => rfl
  | cons e es => simp [Expression.mapAll, e.map_map, Expression.mapAll_mapAll]

end

mutual

theorem Statement.map_map (s : Statement D V P T) :
    (s.map d f g h).map d' f' g' h' = s.map (d' ∘ d) (f' ∘ f) (g' ∘ g) (h' ∘ h) := by
  cases s with
  | declare | breakLoop | continueLoop => rfl
  | call | callBuiltin => simp [Statement.map, Expression.mapAll_mapAll]
  | ret value =>
      cases value <;> simp [Statement.map, Expression.map_map]
  | assign | assignElement =>
      simp [Statement.map, Expression.map_map, Expression.mapAll_mapAll]
  | selection guard body alternative =>
      simp [Statement.map, Expression.map_map, Statement.mapAll_mapAll]
  | loop guard body => simp [Statement.map, Expression.map_map, Statement.mapAll_mapAll]

theorem Statement.mapAll_mapAll (ss : List (Statement D V P T)) :
    Statement.mapAll d' f' g' h' (Statement.mapAll d f g h ss) =
      Statement.mapAll (d' ∘ d) (f' ∘ f) (g' ∘ g) (h' ∘ h) ss := by
  cases ss with
  | nil => rfl
  | cons s ss => simp [Statement.mapAll, s.map_map, Statement.mapAll_mapAll]

end

end MapMap

mutual

theorem Expression.map_id (e : Expression V P T) : e.map id id id = e := by
  cases e with
  | read | readBuiltin | literal => rfl
  | call | callBuiltin | aggregate => simp [Expression.map, Expression.mapAll_id]
  | arrayLength target => simp [Expression.map, target.map_id]
  | arrayElement target index => simp [Expression.map, target.map_id, index.map_id]
  | binary op left right => simp [Expression.map, left.map_id, right.map_id]
  | unary op operand => simp [Expression.map, operand.map_id]

theorem Expression.mapAll_id (es : List (Expression V P T)) :
    Expression.mapAll id id id es = es := by
  cases es with
  | nil => rfl
  | cons e es => simp [Expression.mapAll, e.map_id, Expression.mapAll_id]

end

mutual

theorem Statement.map_id (s : Statement D V P T) : s.map id id id id = s := by
  cases s with
  | declare | breakLoop | continueLoop => rfl
  | call | callBuiltin => simp [Statement.map, Expression.mapAll_id]
  | ret value => cases value <;> simp [Statement.map, Expression.map_id]
  | assign | assignElement => simp [Statement.map, Expression.map_id, Expression.mapAll_id]
  | selection guard body alternative =>
      simp [Statement.map, Expression.map_id, Statement.mapAll_id]
  | loop guard body => simp [Statement.map, Expression.map_id, Statement.mapAll_id]

theorem Statement.mapAll_id (ss : List (Statement D V P T)) :
    Statement.mapAll id id id id ss = ss := by
  cases ss with
  | nil => rfl
  | cons s ss => simp [Statement.mapAll, s.map_id, Statement.mapAll_id]

end

section Map

variable (d : D → D') (f : V → V') (g : P → P') (h : T → T')

mutual

theorem Expression.parts_map (e : Expression V P T) :
    (e.map f g h).parts = e.parts.map (Expression.map f g h) := by
  cases e with
  | read target ty => simp [Expression.map, Expression.parts]
  | readBuiltin name ty => simp [Expression.map, Expression.parts]
  | call procedure arguments ty =>
      simp [Expression.map, Expression.parts, Expression.partsAll_mapAll arguments]
  | callBuiltin name arguments ty =>
      simp [Expression.map, Expression.parts, Expression.partsAll_mapAll arguments]
  | arrayLength target => simp [Expression.map, Expression.parts, Expression.parts_map target]
  | arrayElement target index ty =>
      simp [Expression.map, Expression.parts, Expression.parts_map target,
        Expression.parts_map index]
  | literal value => simp [Expression.map, Expression.parts]
  | aggregate elements ty =>
      simp [Expression.map, Expression.parts, Expression.partsAll_mapAll elements]
  | binary op left right ty =>
      simp [Expression.map, Expression.parts, Expression.parts_map left,
        Expression.parts_map right]
  | unary op operand ty => simp [Expression.map, Expression.parts, Expression.parts_map operand]

theorem Expression.partsAll_mapAll (es : List (Expression V P T)) :
    Expression.partsAll (Expression.mapAll f g h es) =
      (Expression.partsAll es).map (Expression.map f g h) := by
  cases es with
  | nil => rfl
  | cons e es =>
      simp [Expression.mapAll, Expression.partsAll, Expression.parts_map e,
        Expression.partsAll_mapAll es]

end

mutual

theorem Statement.parts_map (s : Statement D V P T) :
    (s.map d f g h).parts = s.parts.map (Statement.map d f g h) := by
  cases s with
  | selection guard body alternative =>
      simp [Statement.map, Statement.parts, Statement.partsAll_mapAll body,
        Statement.partsAll_mapAll alternative]
  | loop guard body => simp [Statement.map, Statement.parts, Statement.partsAll_mapAll body]
  | _ => simp [Statement.map, Statement.parts]

theorem Statement.partsAll_mapAll (ss : List (Statement D V P T)) :
    Statement.partsAll (Statement.mapAll d f g h ss) =
      (Statement.partsAll ss).map (Statement.map d f g h) := by
  cases ss with
  | nil => rfl
  | cons s ss =>
      simp [Statement.mapAll, Statement.partsAll, Statement.parts_map s,
        Statement.partsAll_mapAll ss]

end

theorem Expression.target?_map (e : Expression V P T) :
    (e.map f g h).target? = e.target?.map f := by
  cases e <;> rfl

theorem Expression.reads_mapAll (es : List (Expression V P T)) :
    Expression.reads (Expression.mapAll f g h es) = (Expression.reads es).map f := by
  simp only [Expression.reads, Expression.gather, Expression.partsAll_mapAll,
    List.filterMap_map, List.map_filterMap]
  congr 1
  funext e
  exact Expression.target?_map f g h e

theorem Statement.operands_map (s : Statement D V P T) :
    (s.map d f g h).operands = Expression.mapAll f g h s.operands := by
  cases s with
  | ret value => cases value <;> rfl
  | assignElement target indexes value =>
      simp [Statement.map, Statement.operands, Expression.mapAll_eq_map]
  | _ => rfl

theorem declared_mapAll (code : List (Statement D V P T)) :
    declared (Statement.mapAll d f g h code) = (declared code).map d := by
  simp only [declared, Statement.partsAll_mapAll, List.filterMap_map, List.map_filterMap]
  congr 1
  funext s
  cases s <;> rfl

theorem assigned_mapAll (code : List (Statement D V P T)) :
    assigned (Statement.mapAll d f g h code) = (assigned code).map f := by
  simp only [assigned, Statement.partsAll_mapAll, List.filterMap_map, List.map_filterMap]
  congr 1
  funext s
  cases s <;> rfl

theorem referenced_mapAll (code : List (Statement D V P T)) :
    referenced (Statement.mapAll d f g h code) = (referenced code).map f := by
  simp only [referenced, Statement.partsAll_mapAll, List.flatMap_map, List.map_flatMap,
    Statement.operands_map, Expression.reads_mapAll, List.map_append]
  congr 1
  funext s
  cases s <;> rfl

theorem Expression.callsAll_mapAll (es : List (Expression V P T)) :
    Expression.callsAll (Expression.mapAll f g h es) = (Expression.callsAll es).map g := by
  simp only [Expression.callsAll_eq_gather, Expression.gather, Expression.partsAll_mapAll,
    List.filterMap_map, List.map_filterMap]
  congr 1
  funext e
  cases e <;> rfl

theorem Expression.calls_map (e : Expression V P T) :
    (e.map f g h).calls = e.calls.map g := by
  have hone := Expression.callsAll_mapAll f g h [e]
  simpa [Expression.mapAll, Expression.callsAll] using hone

mutual

theorem Statement.calls_map (s : Statement D V P T) :
    (s.map d f g h).calls = s.calls.map g := by
  cases s with
  | ret value => cases value <;> simp [Statement.map, Statement.calls, Expression.calls_map]
  | selection guard body alternative =>
      simp [Statement.map, Statement.calls, Expression.calls_map,
        Statement.callsAll_mapAll body, Statement.callsAll_mapAll alternative]
  | loop guard body =>
      simp [Statement.map, Statement.calls, Expression.calls_map,
        Statement.callsAll_mapAll body]
  | _ => simp [Statement.map, Statement.calls, Expression.calls_map, Expression.callsAll_mapAll]

theorem Statement.callsAll_mapAll (ss : List (Statement D V P T)) :
    Statement.callsAll (Statement.mapAll d f g h ss) = (Statement.callsAll ss).map g := by
  cases ss with
  | nil => rfl
  | cons s ss =>
      simp [Statement.mapAll, Statement.callsAll, Statement.calls_map s,
        Statement.callsAll_mapAll ss]

end

end Map

end TypedPseudocode.Code
