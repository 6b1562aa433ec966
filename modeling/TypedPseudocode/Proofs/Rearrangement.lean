import Mathlib.Data.List.Perm.Basic
import Mathlib.Logic.Relation
import TypedPseudocode.Tree.Reader

/-!
Values that read as the same tree.

What a part of a JSON value is read as depends on where it stands: the role of
a member follows from its name and from the kind of the node it belongs to, and
a member that this kind does not use has no role at all.  A change rearranges
the members of an object anywhere in the value, or adds a member that has no
role there.  No reader of a role tells a value from a changed one.
-/

namespace TypedPseudocode.Tree

/-! ## Roles -/

inductive Role where
  | root
  | stmt
  | expr
  | label
  | parameters
  | parameter
  | keyword
  | scalar
  | list (role : Role)
  | ignored
  deriving DecidableEq, Repr

abbrev Roles := List (String × Role)

def Roles.of (fields : Roles) (name : String) : Role := (fields.lookup name).getD .ignored

def RootKind.roles : RootKind → Roles
  | .module | .interactive => [("_type", .scalar), ("body", .list .stmt)]
  | .expression => [("_type", .scalar), ("body", .expr)]
  | .functionType => [("_type", .scalar)]

def labelRoles : Roles := [("_type", .scalar)]

def Keyword.roles : Roles := [("arg", .scalar)]

def Parameter.roles : Roles := [("arg", .scalar), ("annotation", .expr), ("lineno", .scalar)]

def Parameters.roles : Roles :=
  [("posonlyargs", .list .parameter), ("args", .list .parameter), ("vararg", .parameter),
    ("kwonlyargs", .list .parameter), ("kwarg", .parameter), ("defaults", .list .expr)]

def nodeRoles (own : Roles) : Roles := ("_type", .scalar) :: ("lineno", .scalar) :: own

def ExprKind.roles (kind : ExprKind) : Roles :=
  nodeRoles <| match kind with
    | .boolOp => [("op", .label), ("values", .list .expr)]
    | .binOp => [("left", .expr), ("op", .label), ("right", .expr)]
    | .unaryOp => [("op", .label), ("operand", .expr)]
    | .compare => [("left", .expr), ("ops", .list .label), ("comparators", .list .expr)]
    | .call => [("func", .expr), ("args", .list .expr), ("keywords", .list .keyword)]
    | .constant => [("value", .scalar)]
    | .num => [("n", .scalar)]
    | .str => [("s", .scalar)]
    | .nameConstant => [("value", .scalar)]
    | .attribute => [("value", .expr), ("attr", .scalar), ("ctx", .label)]
    | .subscript => [("value", .expr), ("slice", .expr), ("ctx", .label)]
    | .name => [("id", .scalar), ("ctx", .label)]
    | .list => [("elts", .list .expr), ("ctx", .label)]
    | .tuple => [("elts", .list .expr), ("ctx", .label)]
    | .slice => [("lower", .expr), ("upper", .expr), ("step", .expr)]
    | .index => [("value", .expr)]
    | .other _ => []

def StmtKind.roles (kind : StmtKind) : Roles :=
  nodeRoles <| match kind with
    | .functionDef =>
        [("name", .scalar), ("args", .parameters), ("body", .list .stmt),
          ("decorator_list", .list .expr), ("returns", .expr)]
    | .ret => [("value", .expr)]
    | .assign => [("targets", .list .expr), ("value", .expr)]
    | .augAssign => [("target", .expr), ("op", .label), ("value", .expr)]
    | .annAssign => [("target", .expr), ("annotation", .expr), ("value", .expr)]
    | .forLoop =>
        [("target", .expr), ("iter", .expr), ("body", .list .stmt), ("orelse", .list .stmt)]
    | .whileLoop => [("test", .expr), ("body", .list .stmt), ("orelse", .list .stmt)]
    | .branch => [("test", .expr), ("body", .list .stmt), ("orelse", .list .stmt)]
    | .raise => [("exc", .expr)]
    | .expression => [("value", .expr)]
    | .other _ => []

/-- The fields that follow from a label; without one the label is all that is looked for. -/
def rolesOf {κ : Type} (roles : κ → Roles) (kind : Option κ) : Roles :=
  kind.elim [("_type", .scalar)] roles

def Role.fields (ms : Members) : Role → Roles
  | .root => rolesOf RootKind.roles (Json.required ms "_type" Reading.name?)
  | .stmt => rolesOf StmtKind.roles (Json.required ms "_type" Reading.nameOrIndex?)
  | .expr => rolesOf ExprKind.roles (Json.required ms "_type" Reading.nameOrIndex?)
  | .label => labelRoles
  | .parameters => Parameters.roles
  | .parameter => Parameter.roles
  | .keyword => Keyword.roles
  | .scalar | .list _ | .ignored => []

def Role.order : Role → List String
  | .root => ["_type", "body"]
  | .label => ["_type"]
  | .parameters => Parameters.fields
  | .parameter => Parameter.fields
  | .keyword => Keyword.fields
  | .stmt | .expr | .scalar | .list _ | .ignored => []

def Role.member (role : Role) (ms : List (String × Json)) (name : String) : Role :=
  (role.fields (Reading.ofMembers ms)).of name

def Role.element (vs : List Json) (i : Nat) : Role → Role
  | .list role => role
  | role => role.order[i]?.elim .ignored (role.member (role.order.zip vs))

/-! ## Changes -/

/-- One change somewhere in a value that has a given role. -/
inductive Change : Role → Json → Json → Prop
  | permute {role : Role} {ms ms' : List (String × Json)} :
      ms.Perm ms' → Change role (.obj ms) (.obj ms')
  | insert {role : Role} {ms : List (String × Json)} (name : String) (v : Json) :
      role.member ms name = .ignored → Change role (.obj ms) (.obj ((name, v) :: ms))
  | member {role : Role} {name : String} {v w : Json} (before after : List (String × Json)) :
      Change (role.member (before ++ (name, v) :: after) name) v w →
      Change role (.obj (before ++ (name, v) :: after)) (.obj (before ++ (name, w) :: after))
  | element {role : Role} {v w : Json} (before after : List Json) :
      Change (role.element (before ++ v :: after) before.length) v w →
      Change role (.arr (before ++ v :: after)) (.arr (before ++ w :: after))

/-! ## Readers of a role -/

/-- The readers that are used on parts of a given role. -/
inductive Reads : Role → {α : Type} → (Reading → Option α) → Prop
  | root : Reads .root Root.read
  | stmt : Reads .stmt Reading.stmt?
  | expr : Reads .expr Reading.expr?
  | label {α : Type} [Labelled α] : Reads .label (Reading.inner? (α := α))
  | parameters : Reads .parameters Parameters.read
  | parameter : Reads .parameter Parameter.read
  | keyword : Reads .keyword Keyword.read
  | text : Reads .scalar Reading.text?
  | line : Reads .scalar Reading.line?
  | constant : Reads .scalar Reading.constant?
  | name {α : Type} [Labelled α] : Reads .scalar (Reading.name? (α := α))
  | nameOrIndex {α : Type} [Labelled α] : Reads .scalar (Reading.nameOrIndex? (α := α))
  | list {role : Role} {α : Type} {read : Reading → Option α} :
      Reads role read → Reads (.list role) (Reading.list? read)
  | nullable {role : Role} {α : Type} {read : Reading → Option α} :
      Reads role read → Reads role (Reading.nullable? read)

def Alike (role : Role) (r r' : Reading) : Prop :=
  ∀ ⦃α : Type⦄ ⦃read : Reading → Option α⦄, Reads role read → read r = read r'

def Members.Agree (fields : Roles) (ms ms' : Members) : Prop :=
  ∀ (name : String) ⦃α : Type⦄ ⦃read : Reading → Option α⦄, Reads (fields.of name) read →
    ((Json.valuesOf ms name).map read).Perm ((Json.valuesOf ms' name).map read)

theorem not_reads_ignored {α : Type} {read : Reading → Option α} :
    ¬ Reads .ignored read := by
  intro h
  generalize hrole : Role.ignored = role at h
  induction h with
  | nullable _ ih => exact ih hrole
  | _ => cases hrole

/-! ## Members that agree -/

section Json

variable {α β : Type} {ms ms' : List (String × β)} {name : String} {read : β → Option α}

theorem required_of_perm
    (h : ((Json.valuesOf ms name).map read).Perm ((Json.valuesOf ms' name).map read)) :
    Json.required ms name read = Json.required ms' name read := by
  have hlength := h.length_eq
  unfold Json.required
  rcases hms : Json.valuesOf ms name with _ | ⟨v, _ | _⟩ <;>
    rcases hms' : Json.valuesOf ms' name with _ | ⟨w, _ | _⟩ <;>
    simp_all

theorem defaulted_of_perm {default : α}
    (h : ((Json.valuesOf ms name).map read).Perm ((Json.valuesOf ms' name).map read)) :
    Json.defaulted ms name read default = Json.defaulted ms' name read default := by
  have hlength := h.length_eq
  unfold Json.defaulted
  rcases hms : Json.valuesOf ms name with _ | ⟨v, _ | _⟩ <;>
    rcases hms' : Json.valuesOf ms' name with _ | ⟨w, _ | _⟩ <;>
    simp_all

end Json

namespace Members.Agree

variable {fields : Roles} {ms ms' : Members} {field : String} {role : Role}

section

variable {α : Type} {read : Reading → Option α}

theorem required (h : Agree fields ms ms') (hf : fields.of field = role)
    (hread : Reads role read) :
    Json.required ms field read = Json.required ms' field read :=
  required_of_perm (h field (hf ▸ hread))

theorem defaulted (h : Agree fields ms ms') (hf : fields.of field = role)
    (hread : Reads role read) (default : α) :
    Json.defaulted ms field read default = Json.defaulted ms' field read default :=
  defaulted_of_perm (h field (hf ▸ hread))

end

theorem text? (h : Agree fields ms ms') (hf : fields.of field = .scalar) :
    ms.text? field = ms'.text? field :=
  h.required hf .text

theorem line? (h : Agree fields ms ms') (hf : fields.of "lineno" = .scalar) :
    ms.line? = ms'.line? :=
  h.defaulted hf .line _

theorem maybeConstant? (h : Agree fields ms ms') (hf : fields.of field = .scalar) :
    ms.maybeConstant? field = ms'.maybeConstant? field :=
  h.defaulted hf .constant _

theorem expr? (h : Agree fields ms ms') (hf : fields.of field = .expr) :
    ms.expr? field = ms'.expr? field :=
  h.required hf .expr

theorem maybeExpr? (h : Agree fields ms ms') (hf : fields.of field = .expr) :
    ms.maybeExpr? field = ms'.maybeExpr? field :=
  h.defaulted hf (.nullable .expr) _

theorem exprs? (h : Agree fields ms ms') (hf : fields.of field = .list .expr) :
    ms.exprs? field = ms'.exprs? field :=
  h.required hf (.list .expr)

theorem maybeExprs? (h : Agree fields ms ms') (hf : fields.of field = .list .expr) :
    ms.maybeExprs? field = ms'.maybeExprs? field :=
  h.defaulted hf (.list .expr) _

theorem stmts? (h : Agree fields ms ms') (hf : fields.of field = .list .stmt) :
    ms.stmts? field = ms'.stmts? field :=
  h.required hf (.list .stmt)

theorem maybeStmts? (h : Agree fields ms ms') (hf : fields.of field = .list .stmt) :
    ms.maybeStmts? field = ms'.maybeStmts? field :=
  h.defaulted hf (.list .stmt) _

theorem operator? (h : Agree fields ms ms') (hf : fields.of field = .label)
    {α : Type} [Labelled α] : (ms.operator? field : Option α) = ms'.operator? field :=
  h.required hf .label

theorem context? (h : Agree fields ms ms') (hf : fields.of "ctx" = .label) :
    ms.context? = ms'.context? :=
  h.defaulted hf .label _

end Members.Agree

/-! ## Readers on members that agree -/

section Readers

variable {ms ms' : Members}

theorem exprFields_agree {kind : ExprKind} (line : Nat) (h : ms.Agree kind.roles ms') :
    Expr.ofFields? ms line kind = Expr.ofFields? ms' line kind := by
  cases kind <;>
    simp (disch := decide) only [Expr.ofFields?, h.text?, h.maybeConstant?, h.expr?,
      h.maybeExpr?, h.exprs?, h.maybeExprs?, h.operator?, h.context?]
  case compare => rw [h.required (by decide) (.list .label)]
  case call => rw [h.defaulted (by decide) (.list .keyword)]
  case num => rw [h.required (by decide) .constant]

theorem stmtFields_agree {kind : StmtKind} (line : Nat) (h : ms.Agree kind.roles ms') :
    Stmt.ofFields? ms line kind = Stmt.ofFields? ms' line kind := by
  cases kind <;>
    simp (disch := decide) only [Stmt.ofFields?, h.text?, h.expr?, h.maybeExpr?, h.exprs?,
      h.maybeExprs?, h.stmts?, h.maybeStmts?, h.operator?]
  case functionDef => rw [h.required (by decide) .parameters]

theorem nodeRoles_type (own : Roles) : (nodeRoles own).of "_type" = .scalar := by
  simp [Roles.of, nodeRoles]

theorem nodeRoles_line (own : Roles) : (nodeRoles own).of "lineno" = .scalar := by
  simp [Roles.of, nodeRoles, List.lookup_cons]

theorem rolesOf_type {κ : Type} {roles : κ → Roles}
    (hroles : ∀ kind, (roles kind).of "_type" = .scalar) (kind : Option κ) :
    (rolesOf roles kind).of "_type" = .scalar := by
  cases kind with
  | none => rfl
  | some kind => exact hroles kind

theorem node_agree {κ α : Type} [Labelled κ] {roles : κ → Roles}
    {build : Members → Nat → κ → Option α}
    (htype : ∀ kind, (roles kind).of "_type" = .scalar)
    (hline : ∀ kind, (roles kind).of "lineno" = .scalar)
    (hbuild : ∀ kind line, ms.Agree (roles kind) ms' →
      build ms line kind = build ms' line kind)
    (h : ms.Agree (rolesOf roles (Json.required ms "_type" Reading.nameOrIndex?)) ms') :
    (do build ms (← ms.line?) (← Json.required ms "_type" Reading.nameOrIndex?)) =
      (do build ms' (← ms'.line?) (← Json.required ms' "_type" Reading.nameOrIndex?)) := by
  have hkind : Json.required ms "_type" (Reading.nameOrIndex? (α := κ)) =
      Json.required ms' "_type" Reading.nameOrIndex? :=
    h.required (rolesOf_type htype _) .nameOrIndex
  rw [← hkind]
  cases hk : Json.required ms "_type" (Reading.nameOrIndex? (α := κ)) with
  | none => simp
  | some kind =>
      rw [hk] at h
      simp only [h.line? (hline kind), Option.bind_eq_bind, Option.bind_some]
      exact congrArg _ (funext fun line => hbuild kind line h)

theorem exprMembers_agree (h : ms.Agree (Role.expr.fields ms) ms') :
    Expr.ofMembers? ms = Expr.ofMembers? ms' :=
  node_agree (fun _ => nodeRoles_type _) (fun _ => nodeRoles_line _)
    (fun _ line => exprFields_agree line) h

theorem stmtMembers_agree (h : ms.Agree (Role.stmt.fields ms) ms') :
    Stmt.ofMembers? ms = Stmt.ofMembers? ms' :=
  node_agree (fun _ => nodeRoles_type _) (fun _ => nodeRoles_line _)
    (fun _ line => stmtFields_agree line) h

end Readers

/-! ## Records given as objects or as lists -/

section Records

abbrev Members.Agree? (fields : Roles) : Option Members → Option Members → Prop :=
  Option.Rel (Members.Agree fields)

theorem bind_agree {fields : Roles} {o o' : Option Members} {α : Type}
    {build : Members → Option α} (h : Members.Agree? fields o o')
    (hbuild : ∀ ms ms' : Members, ms.Agree fields ms' → build ms = build ms') :
    (o >>= build) = (o' >>= build) := by
  cases h with
  | none => rfl
  | some h => exact hbuild _ _ h

variable {r r' : Reading}

theorem inner_agree {α : Type} [Labelled α]
    (h : Members.Agree? labelRoles (r.members? ["_type"]) (r'.members? ["_type"])) :
    (r.inner? : Option α) = r'.inner? :=
  bind_agree h fun _ _ h => h.required rfl .nameOrIndex

theorem keyword_agree
    (h : Members.Agree? Keyword.roles (r.members? Keyword.fields) (r'.members? Keyword.fields)) :
    Keyword.read r = Keyword.read r' :=
  bind_agree h fun _ _ h => by rw [h.defaulted (by decide) (.nullable .text)]

theorem parameter_agree
    (h : Members.Agree? Parameter.roles (r.members? Parameter.fields)
      (r'.members? Parameter.fields)) :
    Parameter.read r = Parameter.read r' :=
  bind_agree h fun _ _ h => by
    rw [h.required (by decide) .text, h.defaulted (by decide) (.nullable .expr),
      h.defaulted (by decide) .line]

theorem parameters_agree
    (h : Members.Agree? Parameters.roles (r.members? Parameters.fields)
      (r'.members? Parameters.fields)) :
    Parameters.read r = Parameters.read r' :=
  bind_agree h fun ms ms' h => by
    have hseveral (field : String) (hf : Parameters.roles.of field = .list .parameter) :=
      h.defaulted hf (.list .parameter) []
    have hsingle (field : String) (hf : Parameters.roles.of field = .parameter) :=
      h.defaulted hf (.nullable .parameter) none
    simp (disch := decide) only [hseveral, hsingle]
    rw [h.defaulted (by decide) (.list .expr)]

theorem rootFields_agree {kind : RootKind} {given given' : List String → Option Members}
    (h : ∀ names ∈ [[], ["body"]], Members.Agree? kind.roles (given names) (given' names)) :
    Root.ofFields? given kind = Root.ofFields? given' kind := by
  have hbody := h ["body"] (by simp)
  cases kind with
  | module | interactive =>
      exact bind_agree hbody fun _ _ h => by rw [h.stmts? (by decide)]
  | expression => exact bind_agree hbody fun _ _ h => by rw [h.expr? (by decide)]
  | functionType => exact bind_agree (h [] (by simp)) fun _ _ _ => rfl

end Records

/-! ## What one change keeps -/

section Steps

variable {fields : Roles} {ms ms' : Members} {name : String} {r r' : Reading}

theorem agree_of_perm (h : ms.Perm ms') : ms.Agree fields ms' := fun _ _ _ _ =>
  ((h.filter _).map _).map _

theorem agree_insert (hname : fields.of name = .ignored) :
    ms.Agree fields ((name, r) :: ms) := by
  intro asked α read hread
  have hne : name ≠ asked := by
    rintro rfl
    rw [hname] at hread
    exact not_reads_ignored hread
  simp [Json.valuesOf, hne]

theorem agree_member (before after : Members) (h : Alike (fields.of name) r r') :
    Members.Agree fields (before ++ (name, r) :: after) (before ++ (name, r') :: after) := by
  intro asked α read hread
  by_cases heq : name = asked
  · subst heq
    simp [Json.valuesOf, h hread]
  · simp [Json.valuesOf, heq]

theorem agree_positional {names : List String} (before after : List Reading)
    (h : ∀ name, names[before.length]? = some name → Alike (fields.of name) r r') :
    Members.Agree? fields (Json.positional names (before ++ r :: after))
      (Json.positional names (before ++ r' :: after)) := by
  unfold Json.positional
  simp only [List.length_append, List.length_cons]
  split
  next hlength =>
    have hlt : before.length < names.length := by omega
    have hnames : names =
        names.take before.length ++ names[before.length] :: names.drop (before.length + 1) := by
      simp
    have hzip (x : Reading) : names.zip (before ++ x :: after) =
        (names.take before.length).zip before ++
          (names[before.length], x) :: (names.drop (before.length + 1)).zip after := by
      conv_lhs => rw [hnames]
      rw [List.zip_append (by simp; omega), List.zip_cons_cons]
    rw [hzip, hzip]
    exact .some (agree_member _ _ (h _ (List.getElem?_eq_getElem hlt)))
  next => exact .none

end Steps

/-! ## No reader sees a change -/

theorem rootRoles_type (kind : RootKind) : kind.roles.of "_type" = .scalar := by
  cases kind <;> rfl

theorem root_agree {rs rs' : Members} (h : rs.Agree (Role.root.fields rs) rs')
    (e e' : Option Expr) (s s' : Option Stmt) :
    Root.read (.object rs e s) = Root.read (.object rs' e' s') := by
  have hkind : Json.required rs "_type" (Reading.name? (α := RootKind)) =
      Json.required rs' "_type" Reading.name? :=
    h.required (rolesOf_type rootRoles_type _) .name
  simp only [Root.read, ← hkind]
  cases hk : Json.required rs "_type" (Reading.name? (α := RootKind)) with
  | none => rfl
  | some kind =>
      rw [Role.fields, hk] at h
      exact rootFields_agree fun _ _ => .some h

theorem alike_object {role : Role} {rs rs' : Members} (h : rs.Agree (role.fields rs) rs') :
    Alike role (.object rs (Expr.ofMembers? rs) (Stmt.ofMembers? rs))
      (.object rs' (Expr.ofMembers? rs') (Stmt.ofMembers? rs')) := by
  intro α read hread
  induction hread with
  | root => exact root_agree h _ _ _ _
  | stmt => exact stmtMembers_agree h
  | expr => exact exprMembers_agree h
  | label => exact inner_agree (.some h)
  | parameters => exact parameters_agree (.some h)
  | parameter => exact parameter_agree (.some h)
  | keyword => exact keyword_agree (.some h)
  | text | line | constant | name | nameOrIndex | list => rfl
  | nullable _ ih => exact congrArg (Option.map some) (ih h)

theorem element_named {role : Role} {vs : List Json} {i : Nat} {name : String}
    (hname : role.order[i]? = some name) :
    role.element vs i = role.member (role.order.zip vs) name := by
  cases role with
  | list => cases hname
  | _ => simp only [Role.element, hname, Option.elim_some]

theorem ofElements_append (vs ws : List Json) :
    Reading.ofElements (vs ++ ws) = Reading.ofElements vs ++ Reading.ofElements ws := by
  induction vs with
  | nil => rfl
  | cons v vs ih => simp [Reading.ofElements, ih]

theorem length_ofElements (vs : List Json) : (Reading.ofElements vs).length = vs.length := by
  induction vs with
  | nil => rfl
  | cons v vs ih => simp [Reading.ofElements, ih]

theorem ofMembers_append (ms ms' : List (String × Json)) :
    Reading.ofMembers (ms ++ ms') = Reading.ofMembers ms ++ Reading.ofMembers ms' := by
  induction ms with
  | nil => rfl
  | cons m ms ih => simp [Reading.ofMembers, ih]

theorem ofMembers_perm {ms ms' : List (String × Json)} (h : ms.Perm ms') :
    (Reading.ofMembers ms).Perm (Reading.ofMembers ms') := by
  induction h with
  | nil => exact .nil
  | cons m _ ih => exact ih.cons _
  | swap m m' ms => exact .swap _ _ _
  | trans _ _ ih ih' => exact ih.trans ih'

section Elements

variable {before after : List Json} {v w : Json}

theorem alike_list {role : Role} {α : Type} {read : Reading → Option α} (hread : Reads role read)
    (h : Alike role (Reading.ofJson v) (Reading.ofJson w)) :
    (Reading.ofJson (.arr (before ++ v :: after))).list? read =
      (Reading.ofJson (.arr (before ++ w :: after))).list? read := by
  simp [Reading.ofJson, Reading.list?, Reading.ofElements, ofElements_append, h hread]

theorem agree_element {role : Role} {fields : Roles}
    (hfields : ∀ ms, role.fields ms = fields)
    (h : Alike (role.element (before ++ v :: after) before.length)
      (Reading.ofJson v) (Reading.ofJson w)) :
    Members.Agree? fields ((Reading.ofJson (.arr (before ++ v :: after))).members? role.order)
      ((Reading.ofJson (.arr (before ++ w :: after))).members? role.order) := by
  simp only [Reading.ofJson, Reading.members?, ofElements_append, Reading.ofElements]
  refine agree_positional _ _ fun name hname => ?_
  rw [length_ofElements] at hname
  rw [element_named hname, Role.member, hfields] at h
  exact h

theorem root_element (h : Alike (Role.root.element (before ++ v :: after) before.length)
    (Reading.ofJson v) (Reading.ofJson w)) :
    Root.read (Reading.ofJson (.arr (before ++ v :: after))) =
      Root.read (Reading.ofJson (.arr (before ++ w :: after))) := by
  cases before with
  | nil =>
      have hlabel : (Reading.ofJson v).name? = ((Reading.ofJson w).name? : Option RootKind) := by
        rw [List.length_nil, element_named rfl, Role.member, Role.fields,
          rolesOf_type rootRoles_type] at h
        exact h .name
      simp only [List.nil_append, Reading.ofJson, Reading.ofElements, Root.read, hlabel]
  | cons label before =>
      simp only [List.cons_append, Reading.ofJson, Reading.ofElements, Root.read]
      cases hk : ((Reading.ofJson label).name? : Option RootKind) with
      | none => rfl
      | some kind =>
          simp only [Option.bind_eq_bind, Option.bind_some, ofElements_append, Reading.ofElements]
          refine rootFields_agree fun names hnames => agree_positional _ _ fun name hname => ?_
          obtain rfl | rfl : names = [] ∨ names = ["body"] := by simpa using hnames
          · cases hname
          · cases before with
            | nil =>
                obtain rfl : "body" = name := by simpa [Reading.ofElements] using hname
                rw [List.length_singleton, element_named rfl, Role.member, Role.fields] at h
                simpa [Role.order, Reading.ofMembers, Json.required, Json.valuesOf, hk, rolesOf]
                  using h
            | cons => simp [Reading.ofElements] at hname

theorem alike_array {role : Role}
    (h : Alike (role.element (before ++ v :: after) before.length)
      (Reading.ofJson v) (Reading.ofJson w)) :
    Alike role (Reading.ofJson (.arr (before ++ v :: after)))
      (Reading.ofJson (.arr (before ++ w :: after))) := by
  intro α read hread
  induction hread with
  | root => exact root_element h
  | label => exact inner_agree (agree_element (fun _ => rfl) h)
  | parameters => exact parameters_agree (agree_element (fun _ => rfl) h)
  | parameter => exact parameter_agree (agree_element (fun _ => rfl) h)
  | keyword => exact keyword_agree (agree_element (fun _ => rfl) h)
  | stmt | expr | text | line | constant | name | nameOrIndex => simp only [Reading.ofJson]; rfl
  | list hread => exact alike_list hread h
  | nullable _ ih =>
      have := ih h
      simp only [Reading.ofJson] at this ⊢
      exact congrArg (Option.map some) this

end Elements

theorem Change.alike {role : Role} {v w : Json} (h : Change role v w) :
    Alike role (Reading.ofJson v) (Reading.ofJson w) := by
  induction h with
  | permute h =>
      simp only [Reading.ofJson]
      exact alike_object (agree_of_perm (ofMembers_perm h))
  | insert name v hname =>
      simp only [Reading.ofJson, Reading.ofMembers]
      exact alike_object (agree_insert hname)
  | member before after _ ih =>
      simp only [Reading.ofJson, ofMembers_append, Reading.ofMembers]
      refine alike_object (agree_member _ _ ?_)
      rwa [Role.member, ofMembers_append, Reading.ofMembers] at ih
  | element before after _ ih => exact alike_array ih

/--
Rearranging members and adding unused ones, anywhere and any number of times, does not
change what a value reads as, nor whether it reads at all.
-/
theorem changes_read_alike {v w : Json} (h : Relation.ReflTransGen (Change .root) v w) :
    Root.ofJson? w = Root.ofJson? v := by
  induction h with
  | refl => rfl
  | tail _ hchange ih => exact (hchange.alike .root).symm.trans ih

def moduleOf (members : List (String × Json)) : Json :=
  .obj [("_type", .str "Module"),
    ("body", .arr [.obj [("_type", .str "Expr"), ("value", .obj members)]])]

theorem change_moduleOf {ms ms' : List (String × Json)}
    (h : Change .expr (.obj ms) (.obj ms')) : Change .root (moduleOf ms) (moduleOf ms') :=
  .member [_] [] (.element [] [] (.member [_] [] h))

theorem changes_read_alike_name :
    Root.ofJson? (moduleOf [("args", .bool true), ("_type", .str "Name"), ("value", .arr []),
      ("id", .str "x"), ("lineno", .int 3)]) =
      some (.module [.expression 0 (.name 3 "x" .load)]) := by
  let own : List (String × Json) := [("id", .str "x"), ("lineno", .int 3)]
  have hvalue : Change .root (moduleOf (("_type", .str "Name") :: own))
      (moduleOf (("value", .arr []) :: ("_type", .str "Name") :: own)) :=
    change_moduleOf (.insert _ _ rfl)
  have hswap := change_moduleOf (.permute (.swap ("_type", .str "Name") ("value", .arr []) own))
  have hargs : Change .root (moduleOf (("_type", .str "Name") :: ("value", .arr []) :: own)) _ :=
    change_moduleOf (.insert "args" (.bool true) rfl)
  rw [changes_read_alike (.tail (.tail (.single hvalue) hswap) hargs)]
  rfl

end TypedPseudocode.Tree
