import TypedPseudocode.Proofs.Blame
import TypedPseudocode.Proofs.Translation

/-!
References between the functions of a list.

All functions of a list are declared before the first of their bodies is lowered.
A function whose name is bound only once can therefore be called from all of them,
and from all functions inside of them, unless the name is bound again on the way.
-/

namespace TypedPseudocode

open Code TypedPseudocode.Tree

theorem Tree.Stmt.bindsAll_append (before after : List Stmt) :
    Stmt.bindsAll (before ++ after) = Stmt.bindsAll before ++ Stmt.bindsAll after := by
  induction before with
  | nil => rfl
  | cons s before ih => simp [Stmt.bindsAll, ih]

namespace Lowering

variable {t t' : Table}

/-! ## Lists in parts -/

theorem lowerStmts_append {before after : List Stmt} {returns : Ty} {pass : FirstPass}
    (h : Yields (lowerStmts returns (before ++ after)) t pass t') :
    ∃ first t₁ second, Yields (lowerStmts returns before) t first t₁ ∧
      Yields (lowerStmts first.returns after) t₁ second t' := by
  induction before generalizing returns t pass with
  | nil => exact ⟨⟨⟨[], returns⟩, []⟩, t, pass, yields_pure.mpr ⟨rfl, rfl⟩, h⟩
  | cons s before ih =>
      simp only [List.cons_append, lowerStmts, yields_bind, yields_tell, yields_return] at h ⊢
      obtain ⟨_, _, rfl, here, t₁, hhere, there, t₂, hthere, -, rfl⟩ := h
      obtain ⟨first, t₃, second, hfirst, hsecond⟩ := ih hthere
      exact ⟨_, t₃, second, ⟨(), _, rfl, here, t₁, hhere, first, t₃, hfirst, rfl, rfl⟩, hsecond⟩

theorem lowerBodies_append {before after : List Stmt} {places others : List (ProcId × String)}
    {u : Unit} (hnames : places.map Prod.snd = before.filterMap Stmt.functionName?)
    (h : Yields (lowerBodies (before ++ after) ((places ++ others).map Prod.fst)) t u t') :
    ∃ t₁, Yields (lowerBodies before (places.map Prod.fst)) t () t₁ ∧
      Yields (lowerBodies after (others.map Prod.fst)) t₁ u t' := by
  induction before generalizing places t with
  | nil =>
      obtain rfl := List.map_eq_nil_iff.mp hnames
      exact ⟨t, by simp [lowerBodies], h⟩
  | cons s before ih =>
      cases s with
      | functionDef line name ps body decorators hint =>
          cases places with
          | nil => cases hnames
          | cons place places =>
              obtain ⟨-, hothers⟩ := List.cons.inj hnames
              simp only [List.cons_append, List.map_cons, lowerBodies, yields_bind] at h ⊢
              obtain ⟨_, t₁, hfunction, h⟩ := h
              obtain ⟨t₂, hbefore, hafter⟩ := ih hothers h
              exact ⟨t₂, ⟨(), t₁, hfunction, hbefore⟩, hafter⟩
      | _ => exact ih hnames h

/-! ## A function in its list -/

/-- The definition of a function, with what stands before and after it in its list. -/
structure Definition where
  before : List Stmt
  line : Nat
  name : String
  parameters : Parameters
  body : List Stmt
  decorators : List Expr
  returns : Option Expr
  after : List Stmt

namespace Definition

variable (d : Definition) (around : List (Option ProcId)) (next : Nat)

def stmt : Stmt := .functionDef d.line d.name d.parameters d.body d.decorators d.returns

def list : List Stmt := d.before ++ d.stmt :: d.after

def place : ProcId := ⟨(Stmt.outlineAll around next d.before).next⟩

def region : Region :=
  ⟨some (d.place around next), around, some d.name, d.parameters.positional, d.body⟩

def declared : Outline := Stmt.outlineAll around next d.list

def earlier : Outline :=
  Stmt.outlineBodies around d.before (Stmt.outlineAll around next d.before).places
    (d.declared around next).next

def inner : Outline :=
  blockOutline d.body (some (d.place around next) :: around) (d.earlier around next).next

def later : List (ProcId × String) :=
  (Stmt.outlineAll around ((d.place around next).index + 1) d.after).places

theorem places_declared :
    (d.declared around next).places = (Stmt.outlineAll around next d.before).places ++
      (d.place around next, d.name) :: d.later around next := by
  rw [declared, list, outlineAll_append]
  rfl

theorem regions_blockOutline :
    (blockOutline d.list around next).regions = (d.declared around next).regions ++
      ((d.earlier around next).regions ++ ((d.inner around next).regions ++
        d.region around next :: (Stmt.outlineBodies around d.after (d.later around next)
          (d.inner around next).next).regions)) := by
  change (d.declared around next).regions ++ (Stmt.outlineBodies around d.list
    (d.declared around next).places (d.declared around next).next).regions = _
  rw [places_declared, list, regions_outlineBodies_append around (Stmt.names_outlineAll _ _ _)]
  rfl

theorem region_mem : d.region around next ∈ (blockOutline d.list around next).regions := by
  simp [regions_blockOutline]

theorem place_bounds :
    (∀ waiting ∈ (Stmt.outlineAll around next d.before).places,
        waiting.1.index < (d.place around next).index) ∧
      (∀ waiting ∈ d.later around next, (d.place around next).index < waiting.1.index ∧
        waiting.1.index < (d.declared around next).next) ∧
      (d.place around next).index < (d.declared around next).next ∧
      (d.declared around next).next ≤ (d.earlier around next).next ∧
      (d.earlier around next).next ≤ (d.inner around next).next := by
  have hnext : (d.declared around next).next =
      (Stmt.outlineAll around ((d.place around next).index + 1) d.after).next := by
    rw [declared, list, outlineAll_append]
    rfl
  have hafter := covers_outlineAll d.after around ((d.place around next).index + 1)
  refine ⟨fun waiting hwaiting => ?_, fun waiting hwaiting => ?_, ?_, ?_, ?_⟩
  · exact ((covers_outlineAll d.before around next).index_of_mem hwaiting).2
  · rw [hnext]
    exact hafter.index_of_mem hwaiting
  · rw [hnext]
    exact hafter.le
  · exact (completed_outlineBodies d.before around (Stmt.names_outlineAll _ _ _) _).le
  · exact (covers_blockOutline d.body _ _).le

variable {around next}

theorem mem_of_lineage (haround : some (d.place around next) ∉ around) {r : Region}
    (hr : r ∈ (blockOutline d.list around next).regions)
    (hlineage : some (d.place around next) ∈ r.lineage) :
    r ∈ (d.inner around next).regions ∨ r = d.region around next := by
  obtain ⟨hbefore, hafter, hlt, hle, hle'⟩ := d.place_bounds around next
  rw [regions_blockOutline, List.mem_append, List.mem_append, List.mem_append, List.mem_cons]
    at hr
  rcases hr with hr | hr | hr | hr | hr
  · rcases nests_outlineAll d.list around next r hr _ hlineage with hplace | hplace
    · obtain ⟨r', hr', hplace⟩ := List.mem_map.mp hplace
      have hwaiting : (d.place around next, d.name) ∈ (d.declared around next).places := by
        simp [places_declared]
      exact absurd hplace ((covers_outlineAll d.list around next).place_ne hr' hwaiting)
    · exact absurd hplace haround
  · rcases nests_outlineBodies d.before around _ _ r hr _ hlineage with hplace | hplace
    · have hcompleted := completed_outlineBodies d.before around
        (Stmt.names_outlineAll around next d.before) (d.declared around next).next
      rcases List.mem_append.mp (hcompleted.perm.subset hplace) with hmem | hmem
      · obtain ⟨waiting, hwaiting, heq⟩ := List.mem_map.mp hmem
        have hindex := hbefore waiting hwaiting
        rw [Option.some.inj heq] at hindex
        exact absurd hindex (Nat.lt_irrefl _)
      · exact absurd (mem_placesFrom.mp hmem).1 (Nat.not_le.mpr hlt)
    · exact absurd hplace haround
  · exact .inl hr
  · exact .inr hr
  · rcases nests_outlineBodies d.after around _ _ r hr _ hlineage with hplace | hplace
    · have hcompleted := completed_outlineBodies d.after around
        (Stmt.names_outlineAll around ((d.place around next).index + 1) d.after)
        (d.inner around next).next
      rcases List.mem_append.mp (hcompleted.perm.subset hplace) with hmem | hmem
      · obtain ⟨waiting, hwaiting, heq⟩ := List.mem_map.mp hmem
        have hindex := (hafter waiting hwaiting).1
        rw [Option.some.inj heq] at hindex
        exact absurd hindex (Nat.lt_irrefl _)
      · have hindex := (mem_placesFrom.mp hmem).1
        omega
    · exact absurd hplace haround

theorem name_of_declared {pass : FirstPass} (h : Yields (lowerStmts .unknown d.list) t pass t')
    (place : Option ProcId) (enclosing : List (Option ProcId)) :
    (d.place (place :: enclosing) t.procedures.length).index < t'.procedures.length ∧
      (t'.procAt (d.place (place :: enclosing) t.procedures.length)).name = some d.name := by
  obtain ⟨-, -, hlt, -⟩ := d.place_bounds (place :: enclosing) t.procedures.length
  have hwaiting : (d.place (place :: enclosing) t.procedures.length, d.name) ∈
      (d.declared (place :: enclosing) t.procedures.length).places := by
    simp [places_declared]
  exact ⟨(lowerStmts_outline place enclosing h).2 ▸ hlt,
    named_lowerStmts place enclosing h _ hwaiting⟩

theorem translated {m : Meaning} {ds : Declarations} {t₁ : Table} {pass : FirstPass} {u : Unit}
    (hpass : Yields (lowerStmts .unknown d.list) t pass t₁)
    (hbodies : Yields (lowerBodies d.list pass.declared) t₁ u t') (hm : Respects m t₁)
    (hadmits : Admits m ds (d.parameters.names ++ Stmt.bindsDeepAll d.body))
    (hds : t'.Precedes ds) (place : Option ProcId) (enclosing : List (Option ProcId)) :
    (∀ r ∈ (d.inner (place :: enclosing) t.procedures.length).regions, Translated m ds t' r) ∧
      Translated m ds t' (d.region (place :: enclosing) t.procedures.length) := by
  obtain ⟨-, hafter, -, hle, -⟩ := d.place_bounds (place :: enclosing) t.procedures.length
  obtain ⟨hplace, hname⟩ := d.name_of_declared hpass place enclosing
  obtain ⟨hdeclared, hnext⟩ := lowerStmts_outline place enclosing hpass
  replace hdeclared : pass.declared =
    (d.declared (place :: enclosing) t.procedures.length).places.map Prod.fst := hdeclared
  rw [hdeclared, places_declared] at hbodies
  obtain ⟨t₂, hearlier, hrest⟩ :=
    lowerBodies_append (Stmt.names_outlineAll (place :: enclosing) _ d.before) hbodies
  have hgrows := hearlier.keeps (keeps_lowerBodies d.before _)
  have hstart := lowerBodies_next place enclosing (Stmt.names_outlineAll _ _ _) hearlier
  rw [hnext] at hstart
  simp only [List.map_cons, stmt, lowerBodies, yields_bind] at hrest
  obtain ⟨_, t₃, hfunction, hlater⟩ := hrest
  have hgrows' := hlater.keeps (keeps_lowerBodies d.after _)
  obtain ⟨-, hinner, hself⟩ := translated_lowerFunction
    (translatesAll (hadmits.mono (List.subset_append_right _ _))) hfunction (hm.congr hgrows)
    hadmits (hgrows'.precedes hds) (hplace.trans_le hgrows.procedures_length)
    ((hgrows.name_eq hplace).trans hname) (place :: enclosing)
  rw [hstart] at hinner
  refine ⟨fun r hr => (hinner r hr).grows hgrows' fun q hq => ?_,
    hself.grows hgrows' fun q hq => ?_⟩
  · obtain ⟨waiting, hwaiting, rfl⟩ := List.mem_map.mp hq
    obtain ⟨q, hq, hge, -⟩ := (covers_blockOutline d.body _ _).place_of_mem hr
    have hindex := (hafter waiting hwaiting).2
    rw [hq]
    rintro ⟨⟩
    exact absurd (hle.trans hge) (Nat.not_le.mpr hindex)
  · obtain ⟨waiting, hwaiting, rfl⟩ := List.mem_map.mp hq
    have hindex := (hafter waiting hwaiting).1
    rintro heq
    rw [← Option.some.inj heq] at hindex
    exact absurd hindex (Nat.lt_irrefl _)

theorem get?_of_once (honce : (Stmt.bindsAll d.list).count d.name = 1) {returns : Ty}
    {pass : FirstPass} (h : Yields (lowerStmts returns d.list) t pass t')
    (place : Option ProcId) (enclosing : List (Option ProcId)) :
    t'.scope.get? d.name =
      some (.procedure (d.place (place :: enclosing) t.procedures.length)) := by
  have hafter : d.name ∉ Stmt.bindsAll d.after := by
    rw [list, Stmt.bindsAll_append] at honce
    simp only [Stmt.bindsAll, stmt, Stmt.binds, List.count_append, List.count_singleton_self]
      at honce
    exact List.count_eq_zero.mp (by omega)
  obtain ⟨first, t₁, second, hfirst, hsecond⟩ := lowerStmts_append h
  obtain ⟨-, hnext⟩ := lowerStmts_outline place enclosing hfirst
  simp only [lowerStmts, yields_bind, yields_tell, yields_return] at hsecond
  obtain ⟨_, _, rfl, here, t₂, hhere, there, t₃, hthere, -, rfl⟩ := hsecond
  simp only [stmt, lowerStmt, yields_bind, yields_return] at hhere
  obtain ⟨p, t₄, hp, rfl, rfl⟩ := hhere
  obtain ⟨-, stated, -, rfl⟩ := declareFunction_yields hp
  have hgrows := hthere.keeps (keeps_lowerStmts d.after _)
  rw [hgrows.scope d.name hafter, Table.scope_withProcedure, OrderedMap.get?_insert_self, hnext]
  rfl

end Definition

/-! ## What a name stands for -/

def refersTo (name : String) (p : ProcId) : Meaning :=
  fun other d => other = name → d = some (.procedure p)

theorem respects_refersTo {name : String} {p : ProcId}
    (h : t.scope.get? name = some (.procedure p)) : Respects (refersTo name p) t := by
  rintro other rfl
  exact Table.lookup_enclosing_of_innermost h

theorem admits_refersTo {name : String} {p : ProcId} {ds : Declarations} {names : List String}
    (h : name ∉ names) : Admits (refersTo name p) ds names :=
  ⟨fun _ hother _ _ heq => absurd (heq ▸ hother) h,
    fun _ hother _ _ heq => absurd (heq ▸ hother) h⟩

/-! ## Where a name is missed -/

theorem bind_fails {α β : Type} {step : Lowering α} {next : α → Lowering β} {d : Diagnostic}
    (h : ((step >>= next) t).result = .error d) :
    (step t).result = .error d ∧ ((step >>= next) t).table = (step t).table ∨
      ∃ a t₁, Yields step t a t₁ ∧ (next a t₁).result = .error d ∧
        ((step >>= next) t).table = (next a t₁).table := by
  rcases hstep : step t with ⟨result, t₁, events⟩
  cases result with
  | error d =>
      rw [bind_run_error hstep] at h ⊢
      exact .inl ⟨congrArg Except.error (Except.error.inj h), rfl⟩
  | ok a =>
      rw [bind_run_ok hstep] at h ⊢
      exact .inr ⟨a, t₁, ⟨by rw [hstep], by rw [hstep]⟩, h, rfl⟩

theorem lowerBlock_fails {body : List Stmt} {d : Diagnostic}
    (h : (lowerBlock body t).result = .error d) :
    (lowerStmts .unknown body t).result = .error d ∨
      ∃ pass t₁, Yields (lowerStmts .unknown body) t pass t₁ ∧
        (lowerBodies body pass.declared t₁).result = .error d ∧
        (lowerBlock body t).table = (lowerBodies body pass.declared t₁).table := by
  unfold lowerBlock twoPasses at h ⊢
  rcases bind_fails h with ⟨hfirst, -⟩ | ⟨pass, t₁, hpass, hrest, htable⟩
  · exact .inl hfirst
  · rcases bind_fails hrest with ⟨hbodies, htable'⟩ | ⟨_, _, _, hreturn, _⟩
    · exact .inr ⟨pass, t₁, hpass, hbodies, htable.trans htable'⟩
    · cases hreturn

theorem lowerBodies_misses {body : List Stmt} {declared : List ProcId} {name : String}
    {line : Nat} (hname : (t.scope.get? name).isSome)
    (h : (lowerBodies body declared t).result = .error ⟨.missingName name, line⟩) :
    ((lowerBodies body declared t).table.lookup name .enclosing).isSome ∧
      ∃ mention ∈ Stmt.mentionsInside body, mention.name = name ∧ mention.line = line ∧
        reachOfUse mention.use = .innermost := by
  have hfound := (keeps_lowerBodies body declared t).lookup_isSome hname
  obtain ⟨mention, hmention, hmentioned, hline, hreach⟩ := blames_bodies body declared _ _ h
  refine ⟨hfound, mention, hmention, hmentioned, hline, ?_⟩
  cases hcases : reachOfUse mention.use with
  | innermost => rfl
  | enclosing =>
      rw [hreach hcases] at hfound
      cases hfound

/-! ## Calls -/

/--
Let the definition of `f` be the only binding of its name in a list, and let `g` be
a function of the same list in which the name is not bound at any depth.  The name
can be missed before the functions of the list are lowered; inside of them, it can be
found where it is looked for in all scopes, as by every call.  If the list can be
lowered, the name stands for the procedure of `f`, and so it does in all of `g`.
-/
theorem calls_resolve_to_definition (t : Table) (f g : Definition) (hsame : g.list = f.list)
    (honce : (Stmt.bindsAll f.list).count f.name = 1)
    (hparameters : f.name ∉ g.parameters.names)
    (hinside : f.name ∉ Stmt.bindsDeepAll g.body) :
    let next := t.procedures.length
    let regions := (blockOutline f.list [none] next).regions
    let p := f.place [none] next
    let outcome := lowerBlock f.list t
    (∀ line, outcome.result = .error ⟨.missingName f.name, line⟩ →
      (lowerStmts .unknown f.list t).result = .error ⟨.missingName f.name, line⟩ ∧
          (∃ mention ∈ Stmt.mentionsAll f.list, mention.name = f.name ∧ mention.line = line) ∨
        (outcome.table.lookup f.name .enclosing).isSome ∧
          ∃ mention ∈ Stmt.mentionsInside f.list, mention.name = f.name ∧
            mention.line = line ∧ reachOfUse mention.use = .innermost) ∧
      ∀ block, outcome.result = .ok block →
        outcome.table.scope.get? f.name = some (.procedure p) ∧
        (outcome.table.procAt p).name = some f.name ∧
        f.region [none] next ∈ regions ∧ g.region [none] next ∈ regions ∧
        ∀ r ∈ regions, some (g.place [none] next) ∈ r.lineage →
          ∃ q, r.place = some q ∧
            EmitsAll (refersTo f.name p) r.body (outcome.table.procAt q).body := by
  intro next regions p outcome
  constructor
  · intro line hfails
    rcases lowerBlock_fails hfails with hfirst | ⟨pass, t₁, hpass, hbodies, htable⟩
    · obtain ⟨mention, hmention, hname, hline, -⟩ := blames_stmts f.list _ _ _ hfirst
      exact .inl ⟨hfirst, mention, hmention, hname, hline⟩
    · have hbound := f.get?_of_once honce hpass none []
      have hmisses := lowerBodies_misses (by rw [hbound]; rfl) hbodies
      rw [← htable] at hmisses
      exact .inr hmisses
  · intro block hok
    have hyields : Yields (lowerBlock f.list) t block outcome.table := ⟨hok, rfl⟩
    simp only [lowerBlock, twoPasses, yields_bind, yields_return] at hyields
    obtain ⟨pass, t₁, hpass, _, _, hbodies, -, rfl⟩ := hyields
    have hbound := f.get?_of_once honce hpass none []
    have hgrows := hbodies.keeps (keeps_lowerBodies f.list _)
    obtain ⟨hplace, hname⟩ := f.name_of_declared hpass none []
    have hg : g.region [none] next ∈ (blockOutline f.list [none] next).regions :=
      hsame ▸ g.region_mem [none] next
    refine ⟨(hgrows.scope f.name (List.not_mem_nil)).trans hbound,
      (hgrows.name_eq hplace).trans hname, f.region_mem _ _, hg, ?_⟩
    intro r hr hlineage
    have hnames : f.name ∉ g.parameters.names ++ Stmt.bindsDeepAll g.body := by
      simp [hparameters, hinside]
    rw [← hsame] at hpass hbodies
    have htranslated := g.translated hpass hbodies (respects_refersTo hbound)
      (admits_refersTo hnames) (.refl outcome.table) none []
    have hr : Translated (refersTo f.name p) outcome.table.toDeclarations outcome.table r := by
      rcases g.mem_of_lineage (by simp) (hsame ▸ hr) hlineage with hmem | rfl
      · exact htranslated.1 r hmem
      · exact htranslated.2
    obtain ⟨q, hq, -, htranslates⟩ := hr
    exact ⟨q, hq, htranslates.body⟩

def oddBody : List Stmt :=
  [.ret 6 (some (.call 6 (.name 6 "even" .load) [.name 6 "n" .load] []))]

/--
Two functions that call each other, the first of them from a function of its own.

```
def even(n):
    def step(k):
        return odd(k)
    return step(n)
def odd(n):
    return even(n)
```
-/
def evenDefinition : Definition where
  before := []
  line := 1
  name := "even"
  parameters := ⟨[], [⟨"n", none, 1⟩], none, [], none, []⟩
  body := [.functionDef 2 "step" ⟨[], [⟨"k", none, 2⟩], none, [], none, []⟩
      [.ret 3 (some (.call 3 (.name 3 "odd" .load) [.name 3 "k" .load] []))] [] none,
    .ret 4 (some (.call 4 (.name 4 "step" .load) [.name 4 "n" .load] []))]
  decorators := []
  returns := none
  after := [.functionDef 5 "odd" ⟨[], [⟨"n", none, 5⟩], none, [], none, []⟩ oddBody [] none]

def oddDefinition : Definition where
  before := [evenDefinition.stmt]
  line := 5
  name := "odd"
  parameters := ⟨[], [⟨"n", none, 5⟩], none, [], none, []⟩
  body := oddBody
  decorators := []
  returns := none
  after := []

theorem calls_resolve_to_odd :
    let regions := (blockOutline oddDefinition.list [none] 0).regions
    let outcome := lowerBlock oddDefinition.list (.empty OrderedMap.empty)
    regions.map (fun r => (r.name, r.lineage)) =
        [(some "step", [some ⟨2⟩, some ⟨0⟩, none]), (some "even", [some ⟨0⟩, none]),
          (some "odd", [some ⟨1⟩, none])] ∧
      outcome.table.scope.get? "odd" = some (.procedure ⟨1⟩) ∧
      ∀ r ∈ regions, some ⟨0⟩ ∈ r.lineage →
        ∃ q, r.place = some q ∧
          EmitsAll (refersTo "odd" ⟨1⟩) r.body (outcome.table.procAt q).body := by
  obtain ⟨-, hresolves⟩ := calls_resolve_to_definition (.empty OrderedMap.empty) oddDefinition
    evenDefinition rfl (by decide) (by decide) (by decide)
  obtain ⟨hscope, -, -, -, hemits⟩ := hresolves _ rfl
  exact ⟨rfl, hscope, hemits⟩

end Lowering

end TypedPseudocode
