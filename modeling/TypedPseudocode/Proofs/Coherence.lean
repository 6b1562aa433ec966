import Mathlib.Data.List.Nodup
import Mathlib.Data.List.Pairwise
import Mathlib.Data.List.Perm.Basic
import TypedPseudocode.Proofs.Changes
import TypedPseudocode.Proofs.Passes

/-!
Scopes and frames belong together.

While functions are lowered, each open scope belongs to one open frame: what the
scope binds has been declared there.  Every variable is declared in exactly one
frame, and every procedure is waiting, being lowered, or complete, but only one
of these.
-/

namespace TypedPseudocode.Lowering

open Code TypedPseudocode.Tree

variable {s s' : State}

/-! ## The functions of a state -/

structure Home where
  place : ProcId
  name : Option String
  enclosing : List (Option ProcId)

def Frame.home? (f : Frame) : Option Home := f.place.map fun p => ⟨p, f.name, f.enclosing⟩

namespace State

def units (s : State) : List Frame := s.frame :: s.outer ++ s.finished

def homes (s : State) : List Home :=
  s.pending.map (fun w => ⟨w.place, some w.name, w.enclosing⟩) ++ s.units.filterMap Frame.home?

theorem mem_units {f : Frame} :
    f ∈ s.units ↔ f = s.frame ∨ f ∈ s.outer ∨ f ∈ s.finished := by
  simp [units]

end State

namespace Local

variable {new : List VarId} {told : List (VarId × Ty)} {made : List Made}

theorem lineage_eq (h : Local s s' new told made) : s'.frame.lineage = s.frame.lineage := by
  rw [Frame.lineage, Frame.lineage, h.place, h.enclosing]

theorem homes_eq (h : Local s s' new told made) : s'.homes = s.homes := by
  simp only [State.homes, State.units, h.pending, h.outer, h.finished, List.cons_append,
    List.filterMap_cons, Frame.home?, h.place, h.enclosing, h.name]

theorem mem_units (h : Local s s' new told made) {f : Frame} :
    f ∈ s'.units ↔ f = s'.frame ∨ f ∈ s.outer ∨ f ∈ s.finished := by
  rw [State.mem_units, h.outer, h.finished]

end Local

theorem Frame.home?_eq {f : Frame} {p : ProcId} (h : f.place = some p) :
    f.home? = some ⟨p, f.name, f.enclosing⟩ := by
  simp [Frame.home?, h]

theorem mem_homes_of_units {f : Frame} (hf : f ∈ s.units) {p : ProcId}
    (hp : f.place = some p) : ⟨p, f.name, f.enclosing⟩ ∈ s.homes :=
  List.mem_append_right _ (List.mem_filterMap.mpr ⟨f, hf, Frame.home?_eq hp⟩)

theorem homes_openFunction {p : ProcId} {name : String} {before after : List Waiting}
    (h : s.pending = before ++ ⟨p, name, s.frame.lineage⟩ :: after) (t : Table) :
    (State.homes ⟨t, .start (some p) s.frame.lineage (some name), s.frame :: s.outer,
      s.finished, before ++ after⟩).Perm s.homes := by
  simp only [State.homes, State.units, h, Frame.start, List.cons_append, List.filterMap_cons,
    Frame.home?, Option.map_some, List.map_append, List.map_cons, List.append_assoc]
  exact List.Perm.append_left _ List.perm_middle

theorem units_closeFunction {f : Frame} {outer : List Frame} (houter : s.outer = f :: outer)
    (t : Table) :
    (State.units ⟨t, f, outer, s.finished ++ [s.frame], s.pending⟩).Perm s.units := by
  simp only [State.units, houter]
  rw [← List.append_assoc]
  exact List.perm_append_singleton s.frame _

theorem homes_closeFunction {f : Frame} {outer : List Frame} (houter : s.outer = f :: outer)
    (t : Table) :
    (State.homes ⟨t, f, outer, s.finished ++ [s.frame], s.pending⟩).Perm s.homes :=
  ((units_closeFunction houter t).filterMap _).append_left _

theorem mem_homes_declareFunction {w : Waiting} {t : Table} {home : Home} :
    home ∈ State.homes ⟨t, s.frame, s.outer, s.finished, s.pending ++ [w]⟩ ↔
      home ∈ s.homes ∨ home = ⟨w.place, some w.name, w.enclosing⟩ := by
  simp only [State.homes, State.units, List.map_append, List.mem_append, List.map_cons,
    List.map_nil, List.mem_singleton]
  grind

/-! ## Counting declarations -/

theorem perm_append_right_comm {α : Type} (as bs cs : List α) :
    (as ++ bs ++ cs).Perm (as ++ cs ++ bs) := by
  rw [List.append_assoc, List.append_assoc]
  exact List.perm_append_comm.append_left as

theorem Changes.map_procedures {t : Table} {new : List VarId} {told : List (VarId × Ty)}
    (h : Changes s t new told) {α : Type} (f : Procedure → α)
    (hf : ∀ p : Procedure, f { p with called := true } = f p) :
    t.procedures.map f = s.table.procedures.map f := by
  cases h with
  | reach name p arguments =>
      rw [Table.procedures_reach]
      exact map_modify_eq hf s.table.procedures p.index
  | _ => rfl

theorem Changes.vars_eq {t : Table} {new : List VarId} {told : List (VarId × Ty)}
    (h : Changes s t new told) :
    (List.range t.vars.length).map VarId.mk =
      (List.range s.table.vars.length).map VarId.mk ++ new := by
  cases h with
  | declare => simp [List.range_succ]
  | _ => simp

/-- Everything that has been declared is declared once. -/
structure Counted (s : State) : Prop where
  locals : (s.units.flatMap Frame.locals).Perm
    ((List.range s.table.vars.length).map VarId.mk)
  places : (s.homes.map (·.place)).Perm
    ((List.range s.table.procedures.length).map ProcId.mk)
  serials : (s.table.procedures.map (·.id) ++ s.table.vars.map (·.id)).Perm
    (List.range s.table.source)

theorem Counted.initial (signatures : SignatureTable) : Counted (.initial signatures) where
  locals := .refl _
  places := .refl _
  serials := .refl _

theorem Changes.serials {t : Table} {new : List VarId} {told : List (VarId × Ty)}
    (h : Changes s t new told)
    (hs : (s.table.procedures.map (·.id) ++ s.table.vars.map (·.id)).Perm
      (List.range s.table.source)) :
    (t.procedures.map (·.id) ++ t.vars.map (·.id)).Perm (List.range t.source) := by
  rw [h.map_procedures (·.id) fun _ => rfl]
  cases h with
  | declare name stated slot _ =>
      simp only [Table.vars_withVariable, Table.source_withVariable, List.map_append,
        List.map_cons, List.map_nil, List.range_succ, ← List.append_assoc]
      exact hs.append_right [s.table.source]
  | reach name p arguments => simpa using hs
  | _ => exact hs

theorem Counted.inside {new : List VarId} {told : List (VarId × Ty)} {made : List Made}
    (hs : Counted s) (h : Local s s' new told made) : Counted s' where
  locals := by
    rw [h.changes.vars_eq]
    simp only [State.units, h.outer, h.finished, List.cons_append, List.flatMap_cons, h.locals]
    exact (perm_append_right_comm _ _ _).trans (hs.locals.append_right new)
  places := by
    have hlength := congrArg List.length (h.changes.map_procedures (fun _ => ()) fun _ => rfl)
    simp only [List.length_map] at hlength
    rw [h.homes_eq, hlength]
    exact hs.places
  serials := h.changes.serials hs.serials

theorem Counted.keep (hs : Counted s) (h : Moves s s') : Counted s' := by
  cases h with
  | inside h => exact hs.inside h
  | @declareFunction name stated =>
      refine ⟨hs.locals, ?_, ?_⟩
      · have hplaces := hs.places
        simp only [State.homes, State.units, List.map_append] at hplaces
        simp only [State.homes, State.units, Table.procedures_withProcedure, List.length_append,
          List.length_singleton, List.range_succ, List.map_append]
        exact (perm_append_right_comm _ _ _).trans (hplaces.append_right _)
      · simp only [Table.procedures_withProcedure, Table.vars_withProcedure,
          Table.source_withProcedure, List.map_append, List.range_succ]
        exact (perm_append_right_comm _ _ _).trans (hs.serials.append_right _)
  | openFunction h =>
      refine ⟨?_, ?_, hs.serials⟩
      · simpa [State.units, Frame.start, Frame.locals, Frame.code, Frame.codeOf] using hs.locals
      · exact ((homes_openFunction h _).map _).trans hs.places
  | closeFunction hplace houter haround hoperands =>
      refine ⟨?_, ?_, ?_⟩
      · have hunits := (units_closeFunction houter s.table).flatMap_right Frame.locals
        simpa [State.units] using hunits.trans hs.locals
      · have hhomes := (homes_closeFunction houter s.table).map (·.place)
        simpa [State.homes, State.units] using hhomes.trans hs.places
      · rw [Table.procedures_complete, map_modify_eq]
        · simpa using hs.serials
        · intro _
          rfl

theorem counted_of_runs {signatures : SignatureTable} (h : Runs (.initial signatures) s) :
    Counted s :=
  runs_induction h (.initial signatures) fun _ h hs => hs.keep h

theorem Counted.nodup_locals (hs : Counted s) : (s.units.flatMap Frame.locals).Nodup :=
  hs.locals.nodup_iff.mpr
    (List.Nodup.map (fun _ _ h => VarId.mk.inj h) List.nodup_range)

theorem Counted.nodup_places (hs : Counted s) : (s.homes.map (·.place)).Nodup :=
  hs.places.nodup_iff.mpr
    (List.Nodup.map (fun _ _ h => ProcId.mk.inj h) List.nodup_range)

theorem Counted.unit_unique (hs : Counted s) {f g : Frame} (hf : f ∈ s.units)
    (hg : g ∈ s.units) {v : VarId} (hvf : v ∈ f.locals) (hvg : v ∈ g.locals) : f = g := by
  have hdisjoint := (List.nodup_flatMap.mp hs.nodup_locals).2
  have hsymm : Std.Symm (Function.onFun List.Disjoint Frame.locals) :=
    ⟨fun _ _ h _ hv hw => h hw hv⟩
  by_contra hne
  exact hdisjoint.forall hf hg hne hvf hvg

theorem Counted.home_unique (hs : Counted s) {home home' : Home} (h : home ∈ s.homes)
    (h' : home' ∈ s.homes) (hplace : home.place = home'.place) : home = home' :=
  List.inj_on_of_nodup_map hs.nodup_places h h' hplace

theorem Counted.index_lt (hs : Counted s) {f : Frame} (hf : f ∈ s.units) {v : VarId}
    (hv : v ∈ f.locals) : v.index < s.table.vars.length := by
  have hmem := hs.locals.mem_iff.mp (List.mem_flatMap.mpr ⟨f, hf, hv⟩)
  obtain ⟨i, hi, rfl⟩ := List.mem_map.mp hmem
  exact List.mem_range.mp hi

theorem Counted.place_lt (hs : Counted s) {home : Home} (h : home ∈ s.homes) :
    home.place.index < s.table.procedures.length := by
  have hmem := hs.places.mem_iff.mp (List.mem_map_of_mem h)
  obtain ⟨i, hi, hplace⟩ := List.mem_map.mp hmem
  rw [← hplace]
  exact List.mem_range.mp hi

theorem Counted.frame_place_lt (hs : Counted s) {p : ProcId} (h : s.frame.place = some p) :
    p.index < s.table.procedures.length :=
  hs.place_lt (mem_homes_of_units (State.mem_units.mpr (.inl rfl)) h)

/-! ## Names -/

theorem Changes.name_varAt {t : Table} {new : List VarId} {told : List (VarId × Ty)}
    (h : Changes s t new told) {v : VarId} (hv : v.index < s.table.vars.length) :
    t.varAt v = s.table.varAt v := by
  cases h with
  | declare name stated slot _ =>
      simp [Declarations.varAt, List.getElem?_append_left hv]
  | reach name p arguments => simp [Declarations.varAt]
  | _ => rfl

theorem procAt_congr {ds ds' : Declarations} {α : Type} (f : Procedure → α)
    (h : ds'.procedures.map f = ds.procedures.map f) (p : ProcId) :
    f (ds'.procAt p) = f (ds.procAt p) := by
  have hseen (ds : Declarations) : f (ds.procAt p) =
      ((ds.procedures.map f)[p.index]?).getD (f ⟨default, none, .unknown, [], [], false⟩) := by
    rw [List.getElem?_map, Declarations.procAt]
    cases ds.procedures[p.index]? <;> rfl
  rw [hseen, hseen, h]

theorem procAt_complete_congr {t : Table} {p : ProcId} {ty : Ty} {parameters : List VarId}
    {body : List TypedStatement} {α : Type} (f : Procedure → α)
    (hf : ∀ procedure : Procedure,
      f { procedure with ty := ty, parameters := parameters, body := body } = f procedure)
    (q : ProcId) : f ((t.complete p ty parameters body).procAt q) = f (t.procAt q) := by
  apply procAt_congr f
  rw [Table.procedures_complete, map_modify_eq hf]

theorem Moves.name_procAt (h : Moves s s') {p : ProcId}
    (hp : p.index < s.table.procedures.length) :
    (s'.table.procAt p).name = (s.table.procAt p).name := by
  cases h with
  | inside h => exact procAt_congr (·.name) (h.changes.map_procedures (·.name) fun _ => rfl) p
  | declareFunction =>
      rw [Table.procAt_withProcedure_of_lt _ _ _ hp]
  | openFunction h => rfl
  | closeFunction hplace houter haround hoperands =>
      rw [procAt_complete_congr (·.name) fun _ => rfl, Table.toDeclarations_leave]

structure Named (s : State) : Prop where
  homes : ∀ home ∈ s.homes, (s.table.procAt home.place).name = home.name
  parameters : ∀ f ∈ s.units, ∀ hint ∈ f.parameters,
    (s.table.varAt hint.target).name = hint.name

theorem Named.keep (hs : Named s) (h : Moves s s') (hcounted : Counted s) : Named s' := by
  have hnames : ∀ home ∈ s.homes, (s'.table.procAt home.place).name = home.name :=
    fun home hmem => (h.name_procAt (hcounted.place_lt hmem)).trans (hs.homes home hmem)
  cases h with
  | inside h =>
      have hold {f : Frame} (hf : f ∈ s.units) {hint : Hint} (hhint : hint ∈ f.parameters) :
          (s'.table.varAt hint.target).name = hint.name := by
        have hlocal : hint.target ∈ f.locals :=
          List.mem_append_left _ (List.mem_map_of_mem hhint)
        rw [h.changes.name_varAt (hcounted.index_lt hf hlocal)]
        exact hs.parameters f hf hint hhint
      refine ⟨?_, ?_⟩
      · intro home hmem
        rw [h.homes_eq] at hmem
        exact hnames home hmem
      · intro f hf hint hhint
        rcases h.mem_units.mp hf with rfl | hf | hf
        · rcases h.parameters hint hhint with hhint | hname
          · exact hold (State.mem_units.mpr (.inl rfl)) hhint
          · exact hname
        · exact hold (State.mem_units.mpr (.inr (.inl hf))) hhint
        · exact hold (State.mem_units.mpr (.inr (.inr hf))) hhint
  | @declareFunction name stated =>
      refine ⟨?_, hs.parameters⟩
      intro home hmem
      rcases mem_homes_declareFunction.mp hmem with hmem | rfl
      · exact hnames home hmem
      · simp [Declarations.procAt]
  | openFunction h =>
      refine ⟨?_, ?_⟩
      · intro home hmem
        exact hnames home ((homes_openFunction h _).mem_iff.mp hmem)
      · intro f hf hint hhint
        rcases State.mem_units.mp hf with rfl | hf | hf
        · cases hhint
        · rcases List.mem_cons.mp hf with rfl | hf
          · exact hs.parameters _ (State.mem_units.mpr (.inl rfl)) hint hhint
          · exact hs.parameters _ (State.mem_units.mpr (.inr (.inl hf))) hint hhint
        · exact hs.parameters _ (State.mem_units.mpr (.inr (.inr hf))) hint hhint
  | closeFunction hplace houter haround hoperands =>
      refine ⟨?_, ?_⟩
      · intro home hmem
        exact hnames home ((homes_closeFunction houter _).mem_iff.mp hmem)
      · intro f hf hint hhint
        have hunit := (units_closeFunction houter _).mem_iff.mp hf
        simpa [Declarations.varAt] using hs.parameters f hunit hint hhint

theorem named_of_runs {signatures : SignatureTable} (h : Runs (.initial signatures) s) :
    Named s := by
  have hinitial : Named (.initial signatures) := by
    refine ⟨fun home hmem => (by cases hmem), fun f hf hint hhint => ?_⟩
    obtain rfl := List.mem_singleton.mp hf
    cases hhint
  exact runs_induction h hinitial fun hrun h hs => hs.keep h (counted_of_runs hrun)

/-! ## Scopes -/

def Frame.Chained : List Frame → Prop
  | [] => False
  | [f] => f.place = none ∧ f.enclosing = []
  | f :: g :: rest => f.enclosing = g.lineage ∧ Frame.Chained (g :: rest)

theorem Frame.Chained.place_mem {f : Frame} {rest : List Frame} (h : Frame.Chained (f :: rest))
    {g : Frame} (hg : g ∈ f :: rest) : g.place ∈ f.lineage := by
  induction rest generalizing f with
  | nil =>
      obtain rfl := List.mem_singleton.mp hg
      exact List.mem_cons_self
  | cons next rest ih =>
      rcases List.mem_cons.mp hg with rfl | hg
      · exact List.mem_cons_self
      · obtain ⟨henclosing, hrest⟩ := h
        rw [Frame.lineage, henclosing]
        exact List.mem_cons_of_mem _ (ih hrest hg)

/-- A scope binds what a frame has declared. -/
structure Binding (s : State) (scope : Scope) (f : Frame) : Prop where
  mem_locals : ∀ {name : String} {v : VarId},
    scope.get? name = some (.variable v) → v ∈ f.locals
  mem_homes : ∀ {name : String} {p : ProcId},
    scope.get? name = some (.procedure p) → ∃ home ∈ s.homes, home.place = p ∧
      home.name = some name ∧ home.enclosing = f.lineage

theorem Binding.empty (s : State) (f : Frame) : Binding s OrderedMap.empty f := ⟨nofun, nofun⟩

structure Scoped (s : State) : Prop where
  chained : Frame.Chained (s.frame :: s.outer)
  scopes : List.Forall₂ (Binding s) (s.table.scope :: s.table.outer) (s.frame :: s.outer)

theorem Scoped.initial (signatures : SignatureTable) : Scoped (.initial signatures) where
  chained := ⟨rfl, rfl⟩
  scopes := .cons (.empty _ _) .nil

theorem exists_of_forall₂ {α γ : Type} {R : α → γ → Prop} {as : List α} {cs : List γ}
    (h : List.Forall₂ R as cs) {a : α} (ha : a ∈ as) : ∃ c ∈ cs, R a c := by
  induction h with
  | nil => cases ha
  | @cons b c _ _ hhead _ ih =>
      rcases List.mem_cons.mp ha with rfl | ha
      · exact ⟨c, List.mem_cons_self, hhead⟩
      · obtain ⟨c', hc', hR⟩ := ih ha
        exact ⟨c', List.mem_cons_of_mem _ hc', hR⟩

theorem forall₂_imp_mem {α γ : Type} {R S : α → γ → Prop} {as : List α} {cs : List γ}
    (h : List.Forall₂ R as cs) (himp : ∀ a ∈ as, ∀ c ∈ cs, R a c → S a c) :
    List.Forall₂ S as cs := by
  induction h with
  | nil => exact .nil
  | cons hhead _ ih =>
      refine .cons (himp _ List.mem_cons_self _ List.mem_cons_self hhead) (ih fun a ha c hc => ?_)
      exact himp a (List.mem_cons_of_mem _ ha) c (List.mem_cons_of_mem _ hc)

theorem Scoped.exists_binding (hs : Scoped s) {name : String} {d : Declaration}
    (h : s.table.lookup name .enclosing = some d) :
    ∃ scope, ∃ f ∈ s.frame :: s.outer, Binding s scope f ∧ scope.get? name = some d := by
  obtain ⟨scope, hscope, hget⟩ := Table.exists_scope_of_lookup h
  obtain ⟨f, hf, hbinding⟩ := exists_of_forall₂ hs.scopes hscope
  exact ⟨scope, f, hf, hbinding, hget⟩

theorem Binding.mono {scope : Scope} {f : Frame} (h : Binding s scope f)
    (hhomes : ∀ home ∈ s.homes, home ∈ s'.homes) : Binding s' scope f where
  mem_locals := h.mem_locals
  mem_homes hget := by
    obtain ⟨home, hmem, hhome⟩ := h.mem_homes hget
    exact ⟨home, hhomes home hmem, hhome⟩

theorem Changes.scopes {t : Table} {new : List VarId} {told : List (VarId × Ty)}
    (h : Changes s t new told) : t.outer = s.table.outer ∧
      ∀ {name : String} {d : Declaration}, t.scope.get? name = some d →
        s.table.scope.get? name = some d ∨ ∃ v ∈ new, d = .variable v := by
  cases h with
  | declare name stated slot _ =>
      refine ⟨rfl, fun {other d} hget => ?_⟩
      rw [Table.scope_withVariable, OrderedMap.get?_insert] at hget
      split at hget
      · exact .inr ⟨_, List.mem_singleton_self _, (Option.some.inj hget).symm⟩
      · exact .inl hget
  | reach name p arguments => exact ⟨by simp, fun hget => .inl (by simpa using hget)⟩
  | _ => exact ⟨rfl, .inl⟩

theorem Scoped.inside {new : List VarId} {told : List (VarId × Ty)} {made : List Made}
    (hs : Scoped s) (h : Local s s' new told made) : Scoped s' where
  chained := by
    have hchained := hs.chained
    rw [h.outer]
    cases hrest : s.outer with
    | nil =>
        rw [hrest] at hchained
        exact ⟨h.place.trans hchained.1, h.enclosing.trans hchained.2⟩
    | cons g rest =>
        rw [hrest] at hchained
        exact ⟨h.enclosing.trans hchained.1, hchained.2⟩
  scopes := by
    obtain ⟨houter, hscope⟩ := h.changes.scopes
    have hhomes : ∀ home ∈ s.homes, home ∈ s'.homes := by
      rw [h.homes_eq]
      exact fun _ => id
    cases hs.scopes with
    | cons hfirst hrest =>
        rw [houter, h.outer]
        refine .cons ⟨fun {name v} hget => ?_, fun {name p} hget => ?_⟩
          (hrest.imp fun _ _ hbinding => hbinding.mono hhomes)
        · rw [h.locals]
          rcases hscope hget with hget | ⟨w, hw, hd⟩
          · exact List.mem_append_left _ (hfirst.mem_locals hget)
          · cases hd
            exact List.mem_append_right _ hw
        · rw [h.homes_eq, h.lineage_eq]
          rcases hscope hget with hget | ⟨w, hw, hd⟩
          · exact hfirst.mem_homes hget
          · cases hd

theorem Scoped.keep (hs : Scoped s) (h : Moves s s') : Scoped s' := by
  cases h with
  | inside h => exact hs.inside h
  | @declareFunction name stated =>
      have hhomes : ∀ home ∈ s.homes, home ∈ State.homes ⟨s.table.withProcedure name stated,
          s.frame, s.outer, s.finished,
          s.pending ++ [⟨⟨s.table.procedures.length⟩, name, s.frame.lineage⟩]⟩ :=
        fun home hmem => mem_homes_declareFunction.mpr (.inl hmem)
      refine ⟨hs.chained, ?_⟩
      cases hs.scopes with
      | cons hfirst hrest =>
          refine .cons ⟨fun {other v} hget => ?_, fun {other p} hget => ?_⟩
            (hrest.imp fun _ _ hbinding => hbinding.mono hhomes)
          · rw [Table.scope_withProcedure, OrderedMap.get?_insert] at hget
            split at hget
            · cases hget
            · exact hfirst.mem_locals hget
          · rw [Table.scope_withProcedure, OrderedMap.get?_insert] at hget
            split at hget
            · cases hget
              exact ⟨_, mem_homes_declareFunction.mpr (.inr rfl), rfl, congrArg some ‹_›, rfl⟩
            · obtain ⟨home, hmem, hhome⟩ := hfirst.mem_homes hget
              exact ⟨home, hhomes home hmem, hhome⟩
  | openFunction h =>
      refine ⟨⟨rfl, hs.chained⟩, .cons (.empty _ _) (hs.scopes.imp fun _ _ hbinding => ?_)⟩
      exact hbinding.mono fun _ hmem => (homes_openFunction h _).mem_iff.mpr hmem
  | @closeFunction p f outer unified hplace houter haround hoperands =>
      have hchained := hs.chained
      have hscopes := hs.scopes
      rw [houter] at hchained hscopes
      refine ⟨hchained.2, ?_⟩
      cases hscopes with
      | @cons _ _ _ _ _ hrest =>
          cases hinner : s.table.outer with
          | nil =>
              rw [hinner] at hrest
              cases hrest
          | cons scope scopes =>
              rw [hinner] at hrest
              simp only [Table.scope_complete, Table.outer_complete, Table.leave, hinner]
              refine hrest.imp fun _ _ hbinding => hbinding.mono fun _ hmem => ?_
              exact (homes_closeFunction houter _).mem_iff.mpr hmem

theorem scoped_of_runs {signatures : SignatureTable} (h : Runs (.initial signatures) s) :
    Scoped s :=
  runs_induction h (.initial signatures) fun _ h hs => hs.keep h

end TypedPseudocode.Lowering
