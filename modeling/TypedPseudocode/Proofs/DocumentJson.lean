import Mathlib.Data.List.Forall2
import TypedPseudocode.Document.Json
import TypedPseudocode.Json.Fields

/-!
The JSON of a document determines it.

The members of an object stand in no order that matters: two values are the same if
under every name the same values stand in both.  Nodes of different kinds differ in what
they say of their kind, or in which members they have, and a node of each kind is put
together from its members.
-/

namespace TypedPseudocode

namespace Json

/-! ## The same value -/

/-- Values that differ in the order of the members of objects only. -/
inductive Same : Json → Json → Prop
  | null : Same .null .null
  | bool (value : Bool) : Same (.bool value) (.bool value)
  | int (value : Int) : Same (.int value) (.int value)
  | double (value : Binary64) : Same (.double value) (.double value)
  | str (text : String) : Same (.str text) (.str text)
  | arr {vs ws : List Json} (elements : List.Forall₂ Same vs ws) : Same (.arr vs) (.arr ws)
  | obj {ms ns : List (String × Json)}
      (members : ∀ name, List.Forall₂ Same (valuesOf ms name) (valuesOf ns name)) :
      Same (.obj ms) (.obj ns)

theorem valuesOf_cons (key : String) (v : Json) (ms : List (String × Json)) (name : String) :
    valuesOf ((key, v) :: ms) name =
      if key = name then v :: valuesOf ms name else valuesOf ms name := by
  by_cases h : key = name <;> simp [valuesOf, h]

mutual

theorem Same.refl (v : Json) : Same v v := by
  cases v with
  | null => exact .null
  | bool value => exact .bool value
  | int value => exact .int value
  | double value => exact .double value
  | str text => exact .str text
  | arr elements => exact .arr (Same.refl_elements elements)
  | obj members => exact .obj fun name => Same.refl_members members name

theorem Same.refl_elements (vs : List Json) : List.Forall₂ Same vs vs := by
  cases vs with
  | nil => exact .nil
  | cons v vs => exact .cons (Same.refl v) (Same.refl_elements vs)

theorem Same.refl_members (ms : List (String × Json)) (name : String) :
    List.Forall₂ Same (valuesOf ms name) (valuesOf ms name) := by
  cases ms with
  | nil => exact .nil
  | cons member ms =>
      obtain ⟨key, v⟩ := member
      rw [valuesOf_cons]
      split
      · exact .cons (Same.refl v) (Same.refl_members ms name)
      · exact Same.refl_members ms name

end

namespace Same

variable {v w : Json} {vs ws : List Json} {ms ns : List (String × Json)}

theorem text_eq {a b : String} (h : Same (.str a) (.str b)) : a = b := by
  cases h
  rfl

theorem flag_eq {a b : Bool} (h : Same (.bool a) (.bool b)) : a = b := by
  cases h
  rfl

theorem elements (h : Same (.arr vs) (.arr ws)) : List.Forall₂ Same vs ws := by
  cases h with
  | arr elements => exact elements

theorem members (h : Same (.obj ms) (.obj ns)) (name : String) :
    List.Forall₂ Same (valuesOf ms name) (valuesOf ns name) := by
  cases h with
  | obj members => exact members name

theorem constant_eq (h : Same v w) : Constant.ofJson? v = Constant.ofJson? w := by
  cases h <;> rfl

theorem aligned (h : Same (.obj ms) (.obj ns)) (hnames : ms.map Prod.fst = ns.map Prod.fst) :
    (ms.zip ns).Forall fun pair => Same pair.1.2 pair.2.2 := by
  replace h := h.members
  induction ms generalizing ns with
  | nil => exact trivial
  | cons m ms ih =>
      obtain ⟨key, v⟩ := m
      obtain ⟨⟨key', w⟩, ns, rfl⟩ : ∃ n rest, ns = n :: rest :=
        List.exists_cons_of_ne_nil fun hns => by simp [hns] at hnames
      obtain ⟨rfl, hrest⟩ : key = key' ∧ ms.map Prod.fst = ns.map Prod.fst := by
        simpa using hnames
      simp only [valuesOf_cons] at h
      have hhead := h key
      simp only [↓reduceIte, List.forall₂_cons] at hhead
      rw [List.zip_cons_cons, List.forall_cons]
      refine ⟨hhead.1, ih hrest fun name => ?_⟩
      by_cases hname : key = name
      · exact hname ▸ hhead.2
      · simpa [hname] using h name

end Same

def Labelled (tag : String) (v : Json) (label : String × Bool) : Prop :=
  ∃ members, v = .obj members ∧ valuesOf members tag = [.str label.1] ∧
    (valuesOf members "builtin" ≠ [] ↔ label.2)

theorem Same.label_eq {v w : Json} {tag : String} {label label' : String × Bool}
    (h : Same v w) (hv : Labelled tag v label) (hw : Labelled tag w label') :
    label = label' := by
  obtain ⟨ms, rfl, hkind, hbuiltin⟩ := hv
  obtain ⟨ns, rfl, hkind', hbuiltin'⟩ := hw
  have htag := h.members tag
  rw [hkind, hkind', List.forall₂_cons] at htag
  have hlength := (h.members "builtin").length_eq
  refine Prod.ext htag.1.text_eq (Bool.eq_iff_iff.mpr ?_)
  rw [← hbuiltin, ← hbuiltin', ← List.length_pos_iff, ← List.length_pos_iff, hlength]

end Json

/-! ## Expressions -/

namespace Document

open Json

theorem binOp_name_injective : Function.Injective BinOp.name := by
  intro op op' h
  cases op <;> cases op' <;> first | rfl | exact absurd h (by decide)

theorem unOp_name_injective : Function.Injective UnOp.name := by
  intro op op' h
  cases op <;> cases op' <;> simp_all [UnOp.name]

theorem eq_of_same_type {ty ty' : Ty.Published} (hname : Same (.str ty.name) (.str ty'.name))
    (harray : Same (.bool ty.array) (.bool ty'.array)) : ty = ty' := by
  cases ty
  cases ty'
  exact congrArg₂ Ty.Published.mk hname.text_eq harray.flag_eq

/-- The kind that a node gives itself out as, and whether it is of a builtin. -/
def Expression.label : Expression String → String × Bool
  | .read .. => ("Variable", false)
  | .readBuiltin .. => ("Variable", true)
  | .call .. => ("Call", false)
  | .callBuiltin .. => ("Call", true)
  | .arrayLength .. => ("Array Length", false)
  | .arrayElement .. => ("Array Element", false)
  | .literal .. | .aggregate .. => ("Literal", false)
  | .binary .. => ("Binary Op", false)
  | .unary .. => ("Unary Op", false)

theorem Expression.labelled (e : Expression String) :
    Labelled "Expression" e.toJson e.label := by
  cases e <;> exact ⟨_, rfl, by simp [valuesOf, typeMembers, label]⟩

theorem eq_of_same_call {p p' : String} {vs ws : List Json}
    (h : Same (callJson p vs) (callJson p' ws)) : p = p' ∧ List.Forall₂ Same vs ws := by
  obtain ⟨-, hp, hvs⟩ := h.aligned rfl
  exact ⟨hp.text_eq, hvs.elements⟩

mutual

theorem Expression.eq_of_same (e e' : Expression String) (h : Same e.toJson e'.toJson) :
    e = e' := by
  have hlabel := h.label_eq e.labelled e'.labelled
  cases e with
  | read target ty =>
      cases e' with
      | read target' ty' =>
          obtain ⟨-, htarget, hname, harray⟩ := h.aligned rfl
          rw [htarget.text_eq, eq_of_same_type hname harray]
      | _ => simp [Expression.label] at hlabel
  | readBuiltin name ty =>
      cases e' with
      | readBuiltin name' ty' =>
          obtain ⟨-, hbuiltin, hname, harray⟩ := h.aligned rfl
          rw [hbuiltin.text_eq, eq_of_same_type hname harray]
      | _ => simp [Expression.label] at hlabel
  | call procedure arguments ty =>
      cases e' with
      | call procedure' arguments' ty' =>
          obtain ⟨-, hcall, hname, harray⟩ := h.aligned rfl
          obtain ⟨hprocedure, harguments⟩ := eq_of_same_call hcall
          rw [hprocedure, Expression.list_eq_of_same arguments arguments' harguments,
            eq_of_same_type hname harray]
      | _ => simp [Expression.label] at hlabel
  | callBuiltin name arguments ty =>
      cases e' with
      | callBuiltin name' arguments' ty' =>
          obtain ⟨-, hbuiltin, harguments, hname, harray⟩ := h.aligned rfl
          rw [hbuiltin.text_eq, Expression.list_eq_of_same arguments arguments' harguments.elements,
            eq_of_same_type hname harray]
      | _ => simp [Expression.label] at hlabel
  | arrayLength target =>
      cases e' with
      | arrayLength target' =>
          obtain ⟨-, htarget, -⟩ := h.aligned rfl
          rw [Expression.eq_of_same target target' htarget]
      | _ => simp [Expression.label] at hlabel
  | arrayElement target index ty =>
      cases e' with
      | arrayElement target' index' ty' =>
          obtain ⟨-, htarget, hindexes, hname, harray⟩ := h.aligned rfl
          have hindex := (List.forall₂_cons.mp hindexes.elements).1
          rw [Expression.eq_of_same target target' htarget,
            Expression.eq_of_same index index' hindex, eq_of_same_type hname harray]
      | _ => simp [Expression.label] at hlabel
  | literal value ty =>
      cases e' with
      | literal value' ty' =>
          obtain ⟨-, hname, harray, hvalue⟩ := h.aligned rfl
          have hread : some value = some value' := by
            simpa only [Constant.ofJson?_toJson] using hvalue.constant_eq
          rw [Option.some.inj hread, eq_of_same_type hname harray]
      | aggregate elements' ty' =>
          -- both are published as literals, but a list is no constant
          obtain ⟨-, -, -, hvalue⟩ := h.aligned rfl
          cases value.ofJson?_toJson.symm.trans hvalue.constant_eq
      | _ => simp [Expression.label] at hlabel
  | aggregate elements ty =>
      cases e' with
      | aggregate elements' ty' =>
          obtain ⟨-, hname, harray, helements⟩ := h.aligned rfl
          rw [Expression.list_eq_of_same elements elements' helements.elements,
            eq_of_same_type hname harray]
      | literal value' =>
          obtain ⟨-, -, -, hvalue⟩ := h.aligned rfl
          cases value'.ofJson?_toJson.symm.trans hvalue.constant_eq.symm
      | _ => simp [Expression.label] at hlabel
  | binary op left right ty =>
      cases e' with
      | binary op' left' right' ty' =>
          obtain ⟨-, hop, hleft, hright, hname, harray⟩ := h.aligned rfl
          rw [binOp_name_injective hop.text_eq, Expression.eq_of_same left left' hleft,
            Expression.eq_of_same right right' hright, eq_of_same_type hname harray]
      | _ => simp [Expression.label] at hlabel
  | unary op operand ty =>
      cases e' with
      | unary op' operand' ty' =>
          obtain ⟨-, hop, hoperand, hname, harray⟩ := h.aligned rfl
          rw [unOp_name_injective hop.text_eq, Expression.eq_of_same operand operand' hoperand,
            eq_of_same_type hname harray]
      | _ => simp [Expression.label] at hlabel

theorem Expression.list_eq_of_same (es es' : List (Expression String))
    (h : List.Forall₂ Same (Expression.listJson es) (Expression.listJson es')) : es = es' := by
  cases es with
  | nil =>
      cases es' with
      | nil => rfl
      | cons e' es' => cases h
  | cons e es =>
      cases es' with
      | nil => cases h
      | cons e' es' =>
          obtain ⟨hhead, htail⟩ := List.forall₂_cons.mp h
          rw [Expression.eq_of_same e e' hhead, Expression.list_eq_of_same es es' htail]

end

/-! ## Statements -/

theorem Variable.eq_of_same {v v' : Variable String} (h : Same v.toJson v'.toJson) : v = v' := by
  obtain ⟨-, hid, hname, htype, harray⟩ := h.aligned rfl
  cases v
  cases v'
  exact congr (congrArg₂ Variable.mk hid.text_eq hname.text_eq) (eq_of_same_type htype harray)

def Statement.label : Statement String → String × Bool
  | .declare _ => ("Variable", false)
  | .call .. => ("Call", false)
  | .callBuiltin .. => ("Call", true)
  | .ret _ => ("Return", false)
  | .assign .. => ("Assignment", false)
  | .assignElement .. => ("Array Assignment", false)
  | .selection .. => ("Selection", false)
  | .loop .. => ("Loop", false)
  | .breakLoop => ("Break", false)
  | .continueLoop => ("Continue", false)

theorem Statement.labelled (s : Statement String) : Labelled "Statement" s.toJson s.label := by
  cases s with
  | ret value => cases value <;> exact ⟨_, rfl, by simp [valuesOf, label]⟩
  | _ => exact ⟨_, rfl, by simp [valuesOf, typeMembers, label]⟩

theorem eq_of_same_ret {value value' : Option (Expression String)}
    (h : Same (Statement.toJson (.ret value)) (Statement.toJson (.ret value'))) :
    value = value' := by
  cases value with
  | none =>
      cases value' with
      | none => rfl
      | some value' =>
          obtain ⟨-, hvalue⟩ := h.aligned rfl
          obtain ⟨members, hmembers, -⟩ := value'.labelled
          cases hmembers ▸ hvalue
  | some value =>
      cases value' with
      | none =>
          obtain ⟨-, hvalue⟩ := h.aligned rfl
          obtain ⟨members, hmembers, -⟩ := value.labelled
          cases hmembers ▸ hvalue
      | some value' =>
          obtain ⟨-, hvalue⟩ := h.aligned rfl
          rw [Expression.eq_of_same value value' hvalue]

mutual

theorem Statement.eq_of_same (s s' : Statement String) (h : Same s.toJson s'.toJson) :
    s = s' := by
  have hlabel := h.label_eq s.labelled s'.labelled
  cases s with
  | declare declaration =>
      cases s' with
      | declare declaration' => rw [Variable.eq_of_same h]
      | _ => simp [Statement.label] at hlabel
  | call procedure arguments =>
      cases s' with
      | call procedure' arguments' =>
          obtain ⟨hprocedure, harguments⟩ := eq_of_same_call h
          rw [hprocedure, Expression.list_eq_of_same arguments arguments' harguments]
      | _ => simp [Statement.label] at hlabel
  | callBuiltin name arguments =>
      cases s' with
      | callBuiltin name' arguments' =>
          obtain ⟨-, hname, harguments⟩ := h.aligned rfl
          rw [hname.text_eq, Expression.list_eq_of_same arguments arguments' harguments.elements]
      | _ => simp [Statement.label] at hlabel
  | ret value =>
      cases s' with
      | ret value' => rw [eq_of_same_ret h]
      | _ => simp [Statement.label] at hlabel
  | assign target value =>
      cases s' with
      | assign target' value' =>
          obtain ⟨-, htarget, hvalue⟩ := h.aligned rfl
          rw [htarget.text_eq, Expression.eq_of_same value value' hvalue]
      | _ => simp [Statement.label] at hlabel
  | assignElement target indexes value =>
      cases s' with
      | assignElement target' indexes' value' =>
          obtain ⟨-, htarget, hindexes, hvalue⟩ := h.aligned rfl
          rw [htarget.text_eq, Expression.list_eq_of_same indexes indexes' hindexes.elements,
            Expression.eq_of_same value value' hvalue]
      | _ => simp [Statement.label] at hlabel
  | selection guard body alternative =>
      cases s' with
      | selection guard' body' alternative' =>
          obtain ⟨-, hguard, hbody, halternative⟩ := h.aligned rfl
          rw [Expression.eq_of_same guard guard' hguard,
            Statement.list_eq_of_same body body' hbody.elements,
            Statement.list_eq_of_same alternative alternative' halternative.elements]
      | _ => simp [Statement.label] at hlabel
  | loop guard body =>
      cases s' with
      | loop guard' body' =>
          obtain ⟨-, hguard, hbody⟩ := h.aligned rfl
          rw [Expression.eq_of_same guard guard' hguard,
            Statement.list_eq_of_same body body' hbody.elements]
      | _ => simp [Statement.label] at hlabel
  | breakLoop =>
      cases s' with
      | breakLoop => rfl
      | _ => simp [Statement.label] at hlabel
  | continueLoop =>
      cases s' with
      | continueLoop => rfl
      | _ => simp [Statement.label] at hlabel

theorem Statement.list_eq_of_same (ss ss' : List (Statement String))
    (h : List.Forall₂ Same (Statement.listJson ss) (Statement.listJson ss')) : ss = ss' := by
  cases ss with
  | nil =>
      cases ss' with
      | nil => rfl
      | cons s' ss' => cases h
  | cons s ss =>
      cases ss' with
      | nil => cases h
      | cons s' ss' =>
          obtain ⟨hhead, htail⟩ := List.forall₂_cons.mp h
          rw [Statement.eq_of_same s s' hhead, Statement.list_eq_of_same ss ss' htail]

end

/-! ## Documents -/

theorem eq_of_same_name {name name' : Option String}
    (h : Same (name.elim .null .str) (name'.elim .null .str)) : name = name' := by
  cases name <;> cases name' <;> cases h <;> rfl

theorem eq_of_same_map {α : Type} {json : α → Json} {xs ys : List α}
    (hjson : ∀ x y, Same (json x) (json y) → x = y)
    (h : List.Forall₂ Same (xs.map json) (ys.map json)) : xs = ys := by
  rw [List.forall₂_map_left_iff, List.forall₂_map_right_iff] at h
  rw [← List.forall₂_eq_eq_eq]
  exact h.imp hjson

theorem Procedure.eq_of_same (p p' : Procedure String) (h : Same p.toJson p'.toJson) :
    p = p' := by
  obtain ⟨-, hid, hname, htype, harray, hparameters, hbody⟩ := h.aligned rfl
  have hty := eq_of_same_type htype harray
  have hparameters := eq_of_same_map (fun _ _ => Variable.eq_of_same) hparameters.elements
  have hbody := Statement.list_eq_of_same _ _ hbody.elements
  cases p
  cases p'
  simp only [Procedure.mk.injEq]
  exact ⟨hid.text_eq, eq_of_same_name hname, hty, hparameters, hbody⟩

theorem eq_of_same {d d' : Document String} (h : Same d.toJson d'.toJson) : d = d' := by
  obtain ⟨-, -, hconstants, hprocedures⟩ := h.aligned rfl
  have hconstants := Statement.list_eq_of_same _ _ hconstants.elements
  have hprocedures := eq_of_same_map Procedure.eq_of_same hprocedures.elements
  cases d
  cases d'
  exact congrArg₂ Document.mk hconstants hprocedures

end Document

end TypedPseudocode
