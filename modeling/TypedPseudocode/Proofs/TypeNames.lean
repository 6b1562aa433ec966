import Mathlib.Data.List.TakeWhile
import TypedPseudocode.Ty.Name

/-!
Type names: which texts are read, and as which types.

A text is a base and array levels, with blanks around the base and before every
level.  Seen in this way with a base that has no further levels or blanks to give
away, a text has one base and one number of levels.  Reading finds them, looks the
base up, and names it when it is not known.  What is written for a type is read as
this type again, and the two parts of a published type tell it as well.
-/

namespace TypedPseudocode.Ty

open TypedPseudocode.Text

/-! ## Spelling -/

def AllBlank (text : List Char) : Prop := ∀ c ∈ text, isBlank c

inductive Levels : Nat → List Char → Prop
  | none : Levels 0 []
  | more {n : Nat} {text blanks : List Char} (h : Levels n text) (hblanks : AllBlank blanks) :
      Levels (n + 1) (text ++ blanks ++ ['[', ']'])

/-- The text is the base with this many levels, and blanks at both ends. -/
def Spells (text base : List Char) (levels : Nat) : Prop :=
  ∃ before suffix after, AllBlank before ∧ Levels levels suffix ∧ AllBlank after ∧
    text = before ++ base ++ suffix ++ after

/-- Nothing more can be taken off the base. -/
structure Bare (base : List Char) : Prop where
  first : ∀ c ∈ base.head?, isBlank c = false
  last : ∀ c ∈ base.getLast?, isBlank c = false
  level : ¬ ['[', ']'] <:+ base

def baseNames : List (String × Ty) :=
  [("unknown", .unknown), ("void", .void), ("boolean", .boolean), ("bool", .boolean),
    ("int", .int), ("double", .double), ("float", .double), ("string", .string),
    ("str", .string), ("type", .type)]

theorem ofBaseName?_eq_some_iff {base : String} {ty : Ty} :
    ofBaseName? base = some ty ↔ (base, ty) ∈ baseNames := by
  constructor
  · intro h
    unfold ofBaseName? at h
    split at h <;> cases h <;> decide
  · intro h
    simp only [baseNames, List.mem_cons, Prod.mk.injEq, List.not_mem_nil, or_false] at h
    rcases h with ⟨rfl, rfl⟩ | ⟨rfl, rfl⟩ | ⟨rfl, rfl⟩ | ⟨rfl, rfl⟩ | ⟨rfl, rfl⟩ | ⟨rfl, rfl⟩ |
      ⟨rfl, rfl⟩ | ⟨rfl, rfl⟩ | ⟨rfl, rfl⟩ | ⟨rfl, rfl⟩ <;> rfl

theorem bare_of_mem_baseNames {base : String} {ty : Ty} (h : (base, ty) ∈ baseNames) :
    Bare base.toList := by
  have hall : ∀ entry ∈ baseNames, entry.1.toList.all fun c => !isBlank c && c != ']' := by
    decide
  have hbase := List.all_eq_true.mp (hall _ h)
  have hblank (c : Char) (hc : c ∈ base.toList) : isBlank c = false := by
    have hc := hbase c hc
    rw [Bool.and_eq_true, Bool.not_eq_true'] at hc
    exact hc.1
  refine ⟨fun c hc => hblank c (List.mem_of_mem_head? hc),
    fun c hc => hblank c (List.mem_of_mem_getLast? hc), fun hsuffix => ?_⟩
  have hbracket := hbase ']' (hsuffix.mem (by simp))
  simp at hbracket

/-! ## Taking levels off -/

theorem takeLevels_level (rest : List Char) : takeLevels (']' :: '[' :: rest) =
    ((takeLevels rest).1 + 1, (takeLevels rest).2) := rfl

theorem takeLevels_cons {c : Char} {rest : List Char}
    (h : ∀ more, c = ']' → rest = '[' :: more → False) :
    takeLevels (c :: rest) = if isBlank c then takeLevels rest else (0, c :: rest) := by
  rw [takeLevels.eq_def]
  split
  · rename_i heq
    exact (h _ (List.cons.inj heq).1 (List.cons.inj heq).2).elim
  · rename_i heq
    cases heq
    rfl
  · rename_i heq
    cases heq

theorem takeLevels_blanks {blanks : List Char} (h : AllBlank blanks) (rest : List Char) :
    takeLevels (blanks ++ rest) = takeLevels rest := by
  induction blanks with
  | nil => rfl
  | cons c blanks ih =>
      have hc : isBlank c = true := h c List.mem_cons_self
      have hbracket : c ≠ ']' := by
        rintro rfl
        exact absurd hc (by decide)
      rw [List.cons_append, takeLevels_cons fun _ h _ => hbracket h, if_pos hc]
      exact ih fun d hd => h d (List.mem_cons_of_mem c hd)

theorem takeLevels_levels {n : Nat} {suffix : List Char} (h : Levels n suffix)
    (rest : List Char) : takeLevels (suffix.reverse ++ rest) =
      ((takeLevels rest).1 + n, (takeLevels rest).2) := by
  induction h with
  | none => rfl
  | @more n text blanks h hblanks ih =>
      have hreverse : AllBlank blanks.reverse := fun c hc => hblanks c (List.mem_reverse.mp hc)
      have hlist : (text ++ blanks ++ ['[', ']']).reverse ++ rest =
          ']' :: '[' :: (blanks.reverse ++ (text.reverse ++ rest)) := by simp
      rw [hlist, takeLevels_level, takeLevels_blanks hreverse, ih]
      rfl

theorem takeLevels_of_stop {rest : List Char} (hblank : ∀ c ∈ rest.head?, isBlank c = false)
    (hlevel : ¬ [']', '['] <+: rest) : takeLevels rest = (0, rest) := by
  cases rest with
  | nil => rfl
  | cons c rest =>
      rw [takeLevels_cons, if_neg (by simp [hblank c rfl])]
      rintro more rfl rfl
      exact hlevel ⟨more, rfl⟩

theorem takeLevels_sound {text rest : List Char} {n : Nat} (h : takeLevels text = (n, rest)) :
    (∀ c ∈ rest.head?, isBlank c = false) ∧ (¬ [']', '['] <+: rest) ∧
      ∃ suffix after, Levels n suffix ∧ AllBlank after ∧
        text.reverse = rest.reverse ++ suffix ++ after := by
  induction text using takeLevels.induct generalizing n rest with
  | case1 text levels base hbase ih =>
      rw [takeLevels_level, hbase] at h
      obtain ⟨rfl, rfl⟩ := Prod.mk.inj h
      obtain ⟨hblank, hlevel, suffix, after, hsuffix, hafter, htext⟩ := ih hbase
      refine ⟨hblank, hlevel, suffix ++ after ++ ['[', ']'], [], .more hsuffix hafter,
        List.forall_mem_nil _, ?_⟩
      simp [htext]
  | case2 c text hbracket hc ih =>
      rw [takeLevels_cons hbracket, if_pos hc] at h
      obtain ⟨hblank, hlevel, suffix, after, hsuffix, hafter, htext⟩ := ih h
      refine ⟨hblank, hlevel, suffix, after ++ [c], hsuffix, ?_, by simp [htext]⟩
      intro d hd
      rcases List.mem_append.mp hd with hd | hd
      · exact hafter d hd
      · exact List.mem_singleton.mp hd ▸ hc
  | case3 c text hbracket hc =>
      rw [takeLevels_cons hbracket, if_neg hc] at h
      obtain ⟨rfl, rfl⟩ := Prod.mk.inj h
      refine ⟨by simpa using hc, ?_, [], [], .none, List.forall_mem_nil _, by simp⟩
      rintro ⟨more, heq⟩
      exact hbracket more (List.cons.inj heq).1.symm (List.cons.inj heq).2.symm
  | case4 =>
      obtain ⟨rfl, rfl⟩ := Prod.mk.inj h
      exact ⟨by simp, by simp, [], [], .none, List.forall_mem_nil _, rfl⟩

/-! ## The base of a text -/

def split (text : List Char) : List Char × Nat :=
  (trimStart (takeLevels text.reverse).2.reverse, (takeLevels text.reverse).1)

theorem trimStart_append {before base : List Char} (hbefore : AllBlank before)
    (hbase : ∀ c ∈ base.head?, isBlank c = false) : trimStart (before ++ base) = base := by
  rw [trimStart, List.dropWhile_append_of_pos hbefore]
  cases base with
  | nil => rfl
  | cons c base => rw [List.dropWhile_cons_of_neg (by simp [hbase c rfl])]

theorem takeLevels_bare {before base : List Char} (hbefore : AllBlank before)
    (hbare : Bare base) : ∃ rest, takeLevels (base.reverse ++ before.reverse) = (0, rest) ∧
      trimStart rest.reverse = base := by
  have hreverse : AllBlank before.reverse := fun c hc => hbefore c (List.mem_reverse.mp hc)
  cases hbase : base.reverse with
  | nil =>
      obtain rfl : base = [] := List.reverse_eq_nil_iff.mp hbase
      refine ⟨[], ?_, rfl⟩
      rw [List.nil_append, ← List.append_nil before.reverse, takeLevels_blanks hreverse]
      rfl
  | cons c rest =>
      have hlast : isBlank c = false := by
        apply hbare.last c
        rw [← List.head?_reverse, hbase]
        rfl
      refine ⟨c :: rest ++ before.reverse, takeLevels_of_stop ?_ ?_, ?_⟩
      · simpa using hlast
      · rintro ⟨more, hmore⟩
        simp only [List.cons_append, List.nil_append, List.cons.injEq] at hmore
        obtain ⟨rfl, hmore⟩ := hmore
        cases rest with
        | nil =>
            rw [List.nil_append] at hmore
            have hbracket : '[' ∈ before.reverse := hmore ▸ List.mem_cons_self
            exact absurd (hreverse '[' hbracket) (by decide)
        | cons d rest =>
            obtain ⟨rfl, -⟩ := List.cons.inj hmore
            apply hbare.level
            rw [← List.reverse_prefix, hbase]
            exact ⟨rest, rfl⟩
      · rw [← hbase, ← List.reverse_append, List.reverse_reverse]
        exact trimStart_append hbefore hbare.first

theorem spells_bare_iff {text base : List Char} {n : Nat} :
    Spells text base n ∧ Bare base ↔ split text = (base, n) := by
  constructor
  · rintro ⟨⟨before, suffix, after, hbefore, hsuffix, hafter, rfl⟩, hbare⟩
    obtain ⟨rest, hrest, hbase⟩ := takeLevels_bare hbefore hbare
    have hreverse : AllBlank after.reverse := fun c hc => hafter c (List.mem_reverse.mp hc)
    have htext : (before ++ base ++ suffix ++ after).reverse =
        after.reverse ++ (suffix.reverse ++ (base.reverse ++ before.reverse)) := by simp
    rw [split, htext, takeLevels_blanks hreverse, takeLevels_levels hsuffix, hrest, hbase,
      Nat.zero_add]
  · intro h
    have htaken : takeLevels text.reverse = (_, _) := rfl
    obtain ⟨hblank, hlevel, suffix, after, hsuffix, hafter, htext⟩ := takeLevels_sound htaken
    obtain ⟨hbase, rfl⟩ := Prod.mk.inj h
    set rest := (takeLevels text.reverse).2
    have hrest : rest.reverse = rest.reverse.takeWhile isBlank ++ base := by
      rw [← hbase, trimStart, List.takeWhile_append_dropWhile]
    have hsuffixOf : base <:+ rest.reverse := ⟨_, hrest.symm⟩
    refine ⟨⟨rest.reverse.takeWhile isBlank, suffix, after, ?_, hsuffix, hafter, ?_⟩, ?_, ?_, ?_⟩
    · exact fun c hc => List.mem_takeWhile_imp hc
    · rw [← hrest, ← htext, List.reverse_reverse]
    · intro c hc
      have hstop := List.head?_dropWhile_not isBlank rest.reverse
      rw [← trimStart, hbase, Option.mem_def.mp hc] at hstop
      exact hstop
    · intro c hc
      apply hblank c
      rw [← List.getLast?_reverse, hrest, List.getLast?_append, Option.mem_def.mp hc]
      rfl
    · intro hbracket
      apply hlevel
      simpa using List.reverse_prefix.mpr (hbracket.trans ⟨_, hrest.symm⟩)

/-! ## Reading -/

theorem ofName_eq (text : String) :
    ofName text = (ofBaseName? (String.ofList (split text.toList).1)).elim
      (.error (String.ofList (split text.toList).1))
      fun ty => .ok (ty.arrays (split text.toList).2) := by
  unfold ofName split
  generalize takeLevels text.toList.reverse = taken
  obtain ⟨levels, rest⟩ := taken
  dsimp only
  cases ofBaseName? (String.ofList (trimStart rest.reverse)) <;> rfl

theorem ofName_eq_ok_iff {text : String} {ty : Ty} :
    ofName text = .ok ty ↔ ∃ base levels baseTy, (base, baseTy) ∈ baseNames ∧
      Spells text.toList base.toList levels ∧ ty = baseTy.arrays levels := by
  rw [ofName_eq]
  constructor
  · intro h
    cases hbase : ofBaseName? (String.ofList (split text.toList).1) with
    | none =>
        rw [hbase] at h
        cases h
    | some baseTy =>
        rw [hbase] at h
        obtain ⟨hspells, -⟩ := spells_bare_iff.mpr (Eq.refl (split text.toList))
        refine ⟨_, _, baseTy, ofBaseName?_eq_some_iff.mp hbase, ?_, (Except.ok.inj h).symm⟩
        rwa [String.toList_ofList]
  · rintro ⟨base, levels, baseTy, hbase, hspells, rfl⟩
    have hsplit := spells_bare_iff.mp ⟨hspells, bare_of_mem_baseNames hbase⟩
    rw [hsplit, String.ofList_toList, ofBaseName?_eq_some_iff.mpr hbase]
    rfl

theorem ofName_eq_error_iff {text base : String} :
    ofName text = .error base ↔ ∃ levels, Spells text.toList base.toList levels ∧
      Bare base.toList ∧ ∀ ty, (base, ty) ∉ baseNames := by
  rw [ofName_eq]
  constructor
  · intro h
    cases hbase : ofBaseName? (String.ofList (split text.toList).1) with
    | some baseTy =>
        rw [hbase] at h
        cases h
    | none =>
        rw [hbase] at h
        obtain rfl := Except.error.inj h
        obtain ⟨hspells, hbare⟩ := spells_bare_iff.mpr (Eq.refl (split text.toList))
        rw [String.toList_ofList]
        refine ⟨_, hspells, hbare, fun ty hty => ?_⟩
        rw [ofBaseName?_eq_some_iff.mpr hty] at hbase
        cases hbase
  · rintro ⟨levels, hspells, hbare, hunknown⟩
    rw [spells_bare_iff.mp ⟨hspells, hbare⟩, String.ofList_toList]
    cases hbase : ofBaseName? base with
    | none => rfl
    | some ty => exact absurd (ofBaseName?_eq_some_iff.mp hbase) (hunknown ty)

/-! ## Writing -/

theorem name_spelled (ty : Ty) : ∃ base levels baseTy suffix, (base, baseTy) ∈ baseNames ∧
    Levels levels suffix ∧ ty = baseTy.arrays levels ∧
      ty.name.toList = base.toList ++ suffix := by
  induction ty with
  | array element ih =>
      obtain ⟨base, levels, baseTy, suffix, hbase, hsuffix, hty, hname⟩ := ih
      have hlevels := Levels.more hsuffix (List.forall_mem_nil _)
      refine ⟨base, levels + 1, baseTy, _, hbase, hlevels, ?_, ?_⟩
      · rw [hty, arrays]
      · rw [name, String.toList_append, hname]
        simp
  | _ => exact ⟨name _, 0, _, [], by decide, .none, rfl, (List.append_nil _).symm⟩

theorem ofName_name (ty : Ty) : ofName ty.name = .ok ty := by
  obtain ⟨base, levels, baseTy, suffix, hbase, hsuffix, hty, hname⟩ := ty.name_spelled
  refine ofName_eq_ok_iff.mpr ⟨base, levels, baseTy, hbase, ?_, hty⟩
  exact ⟨[], suffix, [], List.forall_mem_nil _, hsuffix, List.forall_mem_nil _, by simp [hname]⟩

theorem ofName_published (ty : Ty) : (ofName ty.published.name).map
    (fun read => if ty.published.array then .array read else read) = .ok ty := by
  cases ty with
  | array element =>
      rw [published, ofName_name]
      rfl
  | _ =>
      simp only [published, ofName_name]
      rfl

theorem published_injective : Function.Injective published := by
  intro a b h
  have ha := ofName_published a
  rw [h, ofName_published b] at ha
  exact (Except.ok.inj ha).symm

/--
A text is read as a type exactly if it is a base name with array levels, blanks
aside; of every other text, the base that is left is named.  Each type is read from
its name and told by its published parts.
-/
theorem names_read_exactly :
    (∀ text ty, ofName text = .ok ty ↔ ∃ base levels baseTy, (base, baseTy) ∈ baseNames ∧
      Spells text.toList base.toList levels ∧ ty = baseTy.arrays levels) ∧
    (∀ text message, (ofName text).mapError unknownNameMessage = .error message ↔
      ∃ base levels, Spells text.toList base.toList levels ∧ Bare base.toList ∧
        (∀ ty, (base, ty) ∉ baseNames) ∧ message = "unknown type name '" ++ base ++ "'") ∧
    (∀ ty : Ty, ofName ty.name = .ok ty) ∧
    Function.Injective published ∧
    ∀ ty : Ty, (ty.published.array = true ↔ ∃ element, ty = .array element) ∧
      (ofName ty.published.name).map
        (fun read => if ty.published.array then .array read else read) = .ok ty := by
  refine ⟨fun _ _ => ofName_eq_ok_iff, fun text message => ?_, ofName_name, published_injective,
    fun ty => ⟨?_, ofName_published ty⟩⟩
  · constructor
    · intro h
      cases hread : ofName text with
      | ok ty =>
          rw [hread] at h
          cases h
      | error base =>
          rw [hread] at h
          obtain ⟨levels, hspells, hbare, hunknown⟩ := ofName_eq_error_iff.mp hread
          exact ⟨base, levels, hspells, hbare, hunknown, (Except.error.inj h).symm⟩
    · rintro ⟨base, levels, hspells, hbare, hunknown, rfl⟩
      rw [ofName_eq_error_iff.mpr ⟨levels, hspells, hbare, hunknown⟩]
      rfl
  · cases ty <;> simp [published]

end TypedPseudocode.Ty
