import TypedPseudocode.Proofs.Outcomes

/-!
Lexical scoping.

Bodies of functions are lowered long after their surroundings, when other scopes
have been opened and closed.  Still a procedure only assigns to variables that
it declares itself, and only refers to what it, or a region around it in the
source, declares.
-/

namespace TypedPseudocode.Lowering

open Code TypedPseudocode.Tree

variable {s s' : State}

/-! ## The invariant -/

structure Frame.Lexical (s : State) (f : Frame) : Prop where
  assignments : ∀ v ∈ f.view View.assignments, v ∈ f.locals
  references : ∀ v ∈ f.view View.references,
    ∃ g ∈ s.units, g.place ∈ f.lineage ∧ v ∈ g.locals
  calls : ∀ p ∈ f.view View.calls,
    ∃ home ∈ s.homes, home.place = p ∧ ∃ k ∈ f.lineage, home.enclosing.head? = some k

def Lexical (s : State) : Prop := ∀ f ∈ s.units, f.Lexical s

theorem Frame.Lexical.mono {f : Frame} (h : f.Lexical s)
    (hunits : ∀ g ∈ s.units, ∃ g' ∈ s'.units, g'.place = g.place ∧ g.locals ⊆ g'.locals)
    (hhomes : ∀ home ∈ s.homes, home ∈ s'.homes) : f.Lexical s' where
  assignments := h.assignments
  references v hv := by
    obtain ⟨g, hg, hplace, hlocal⟩ := h.references v hv
    obtain ⟨g', hg', hsame, hlocals⟩ := hunits g hg
    exact ⟨g', hg', hsame ▸ hplace, hlocals hlocal⟩
  calls p hp := by
    obtain ⟨home, hmem, hrest⟩ := h.calls p hp
    exact ⟨home, hhomes home hmem, hrest⟩

theorem exists_frame_of_sees (hlexical : Lexical s) (hscoped : Scoped s) {v : VarId}
    (h : s.Sees v) : ∃ g ∈ s.frame :: s.outer, g.place ∈ s.frame.lineage ∧ v ∈ g.locals := by
  rcases h with hassigned | ⟨name, hlookup⟩
  · have hown := hlexical s.frame (State.mem_units.mpr (.inl rfl))
    exact ⟨s.frame, List.mem_cons_self, List.mem_cons_self, hown.assignments v hassigned⟩
  · obtain ⟨scope, g, hg, hbinding, hget⟩ := hscoped.exists_binding hlookup
    exact ⟨g, hg, hscoped.chained.place_mem hg, hbinding.mem_locals hget⟩

section Inside

variable {new : List VarId} {told : List (VarId × Ty)} {made : List Made}

theorem Local.exists_unit (h : Local s s' new told made) {g : Frame} (hg : g ∈ s.units) :
    ∃ g' ∈ s'.units, g'.place = g.place ∧ g.locals ⊆ g'.locals := by
  rcases State.mem_units.mp hg with rfl | hg | hg
  · refine ⟨s'.frame, h.mem_units.mpr (.inl rfl), h.place, ?_⟩
    rw [h.locals]
    exact List.subset_append_left _ _
  · exact ⟨g, h.mem_units.mpr (.inr (.inl hg)), rfl, fun _ => id⟩
  · exact ⟨g, h.mem_units.mpr (.inr (.inr hg)), rfl, fun _ => id⟩

theorem lexical_inside (hlexical : Lexical s) (hscoped : Scoped s)
    (h : Local s s' new told made) : s'.frame.Lexical s' := by
  have hown := hlexical s.frame (State.mem_units.mpr (.inl rfl))
  have hsees {v : VarId} (hv : s.Sees v) :
      ∃ g ∈ s'.units, g.place ∈ s'.frame.lineage ∧ v ∈ g.locals := by
    obtain ⟨g, hg, hplace, hlocal⟩ := exists_frame_of_sees hlexical hscoped hv
    obtain ⟨g', hg', hsame, hlocals⟩ := h.exists_unit (List.mem_append_left _ hg)
    rw [h.lineage_eq]
    exact ⟨g', hg', hsame ▸ hplace, hlocals hlocal⟩
  refine ⟨?_, ?_, ?_⟩
  · intro v hv
    rcases (h.view View.assignments v).mp hv with hv | ⟨m, hm, hseen⟩
    · rw [h.locals]
      exact List.mem_append_left _ (hown.assignments v hv)
    · cases h.justified m hm with
      | assign hbound =>
          obtain rfl := Option.some.inj hseen
          rcases hbound with hassigned | ⟨name, hget⟩
          · rw [h.locals]
            exact List.mem_append_left _ (hown.assignments _ hassigned)
          · cases (hscoped.inside h).scopes with
            | cons hfirst _ => exact hfirst.mem_locals hget
      | _ => cases hseen
  · intro v hv
    rcases (h.view View.references v).mp hv with hv | ⟨m, hm, hseen⟩
    · obtain ⟨g, hg, hplace, hlocal⟩ := hown.references v hv
      obtain ⟨g', hg', hsame, hlocals⟩ := h.exists_unit hg
      rw [h.lineage_eq]
      exact ⟨g', hg', hsame ▸ hplace, hlocals hlocal⟩
    · cases h.justified m hm with
      | read hvisible =>
          obtain rfl := Option.some.inj hseen
          exact hsees hvisible
      | assignElement hvisible =>
          obtain rfl := Option.some.inj hseen
          exact hsees hvisible
      | _ => cases hseen
  · intro p hp
    rw [h.lineage_eq, h.homes_eq]
    rcases (h.view View.calls p).mp hp with hp | ⟨m, hm, hseen⟩
    · exact hown.calls p hp
    · cases h.justified m hm with
      | call hlookup =>
          obtain rfl := Option.some.inj hseen
          obtain ⟨scope, g, hg, hbinding, hget⟩ := hscoped.exists_binding hlookup
          obtain ⟨home, hmem, hplace, -, henclosing⟩ := hbinding.mem_homes hget
          refine ⟨home, hmem, hplace, g.place, hscoped.chained.place_mem hg, ?_⟩
          rw [henclosing]
          rfl
      | _ => cases hseen

end Inside

theorem Lexical.keep (hs : Lexical s) (h : Moves s s') (hscoped : Scoped s) : Lexical s' := by
  intro f hf
  cases h with
  | inside h =>
      have hhomes : ∀ home ∈ s.homes, home ∈ s'.homes := by
        rw [h.homes_eq]
        exact fun _ => id
      rcases h.mem_units.mp hf with rfl | hf | hf
      · exact lexical_inside hs hscoped h
      · exact (hs f (State.mem_units.mpr (.inr (.inl hf)))).mono (fun _ => h.exists_unit) hhomes
      · exact (hs f (State.mem_units.mpr (.inr (.inr hf)))).mono (fun _ => h.exists_unit) hhomes
  | declareFunction =>
      refine (hs f hf).mono (fun g hg => ⟨g, hg, rfl, fun _ => id⟩) ?_
      exact fun home hmem => mem_homes_declareFunction.mpr (.inl hmem)
  | openFunction h =>
      rcases List.mem_cons.mp hf with rfl | hf
      · exact ⟨nofun, nofun, nofun⟩
      · refine (hs f hf).mono ?_ fun _ hmem => (homes_openFunction h _).mem_iff.mpr hmem
        exact fun g hg => ⟨g, List.mem_cons_of_mem _ hg, rfl, fun _ => id⟩
  | closeFunction hplace houter haround hoperands =>
      refine (hs f ((units_closeFunction houter _).mem_iff.mp hf)).mono ?_
        fun _ hmem => (homes_closeFunction houter _).mem_iff.mpr hmem
      exact fun g hg => ⟨g, (units_closeFunction houter _).mem_iff.mpr hg, rfl, fun _ => id⟩

theorem lexical_of_runs {signatures : SignatureTable} (h : Runs (.initial signatures) s) :
    Lexical s := by
  have hinitial : Lexical (.initial signatures) := by
    intro f hf
    obtain rfl := List.mem_singleton.mp hf
    exact ⟨nofun, nofun, nofun⟩
  exact runs_induction h hinitial fun hrun h hs => hs.keep h (scoped_of_runs hrun)

/-! ## Procedures and regions -/

/-- The procedure of a region bears its name and has its parameters. -/
structure Matches (body : List Stmt) (ds : Declarations) (r : Region) : Prop where
  name : (ds.procAt (r.procedure body)).name = r.name
  parameters : (ds.procAt (r.procedure body)).parameters.map (fun v => (ds.varAt v).name) =
    r.parameters.map (·.name)

/-- The procedure of a region mentions only what is declared in the region or around it. -/
structure WellScoped (body : List Stmt) (ds : Declarations) (r : Region) : Prop where
  assigned : ∀ v ∈ assigned (ds.procAt (r.procedure body)).body, v ∈ ds.locals (r.procedure body)
  referenced : ∀ v ∈ referenced (ds.procAt (r.procedure body)).body,
    ∃ g ∈ regions body, g.place ∈ r.lineage ∧ v ∈ ds.locals (g.procedure body)
  called : ∀ q ∈ Statement.callsAll (ds.procAt (r.procedure body)).body,
    ∃ g ∈ regions body, g.place = some q ∧ ∃ k ∈ r.lineage, g.enclosing.head? = some k
  foreign_locals : ∀ g ∈ regions body, g.place ∉ r.lineage →
    ∀ v ∈ ds.locals (g.procedure body),
      v ∉ Code.assigned (ds.procAt (r.procedure body)).body ∧
        v ∉ Code.referenced (ds.procAt (r.procedure body)).body
  foreign_functions : ∀ g ∈ regions body, g.place ∉ r.lineage →
    ∀ f ∈ regions body, f.enclosing.head? = some g.place →
      ∀ q ∈ Statement.callsAll (ds.procAt (r.procedure body)).body, f.place ≠ some q

section Finished

variable {signatures : SignatureTable} {body : List Stmt} {ds : Declarations}
  (hrun : Runs (.initial signatures) s) (hcomplete : s.Complete signatures body)
  (hends : Ends s ds)

include hrun hcomplete hends

theorem exists_unit_of_region {r : Region} (hr : r ∈ regions body) :
    ∃ f ∈ s.units, f.Becomes signatures body ds r :=
  exists_of_forall₂ (frames_become hrun hcomplete hends).flip hr

theorem exists_region_of_unit {f : Frame} (hf : f ∈ s.units) :
    ∃ r ∈ regions body, f.Becomes signatures body ds r :=
  exists_of_forall₂ (frames_become hrun hcomplete hends) hf

theorem exists_region_of_home {home : Home} (h : home ∈ s.homes) :
    ∃ r ∈ regions body, r.place = some home.place ∧ r.enclosing = home.enclosing := by
  rw [State.homes, hcomplete.pending, List.map_nil, List.nil_append] at h
  obtain ⟨f, hf, hhome⟩ := List.mem_filterMap.mp h
  obtain ⟨r, hr, hbecomes⟩ := exists_region_of_unit hrun hcomplete hends hf
  obtain ⟨p, hp, rfl⟩ := Option.map_eq_some_iff.mp hhome
  exact ⟨r, hr, hbecomes.place ▸ hp, hbecomes.enclosing.symm⟩

theorem place_eq_of_mem_locals {g g' : Region} (hg : g ∈ regions body) (hg' : g' ∈ regions body)
    {v : VarId} (hv : v ∈ ds.locals (g.procedure body))
    (hv' : v ∈ ds.locals (g'.procedure body)) : g.place = g'.place := by
  obtain ⟨f, hf, hbecomes⟩ := exists_unit_of_region hrun hcomplete hends hg
  obtain ⟨f', hf', hbecomes'⟩ := exists_unit_of_region hrun hcomplete hends hg'
  rw [← hbecomes.locals_eq] at hv
  rw [← hbecomes'.locals_eq] at hv'
  have hsame := (counted_of_runs hrun).unit_unique hf hf' hv hv'
  rw [← hbecomes.place, ← hbecomes'.place, hsame]

theorem enclosing_eq_of_place {g g' : Region} (hg : g ∈ regions body) (hg' : g' ∈ regions body)
    {q : ProcId} (hq : g.place = some q) (hq' : g'.place = some q) :
    g.enclosing = g'.enclosing := by
  obtain ⟨f, hf, hbecomes⟩ := exists_unit_of_region hrun hcomplete hends hg
  obtain ⟨f', hf', hbecomes'⟩ := exists_unit_of_region hrun hcomplete hends hg'
  have hhome := mem_homes_of_units hf (hbecomes.place.trans hq)
  have hhome' := mem_homes_of_units hf' (hbecomes'.place.trans hq')
  have hsame := (counted_of_runs hrun).home_unique hhome hhome' rfl
  rw [← hbecomes.enclosing, ← hbecomes'.enclosing]
  exact congrArg Home.enclosing hsame

theorem wellScoped {r : Region} (hr : r ∈ regions body) : WellScoped body ds r := by
  obtain ⟨f, hf, hbecomes⟩ := exists_unit_of_region hrun hcomplete hends hr
  have hlexical := lexical_of_runs hrun f hf
  have hassigned : ∀ v ∈ assigned (ds.procAt (r.procedure body)).body,
      v ∈ ds.locals (r.procedure body) := by
    intro v hv
    rw [← hbecomes.locals_eq]
    refine hlexical.assignments v ?_
    rwa [hbecomes.view_eq, View.code_assignments]
  have hreferenced : ∀ v ∈ referenced (ds.procAt (r.procedure body)).body,
      ∃ g ∈ regions body, g.place ∈ r.lineage ∧ v ∈ ds.locals (g.procedure body) := by
    intro v hv
    rw [← View.code_references, ← hbecomes.view_eq] at hv
    obtain ⟨u, hu, hplace, hlocal⟩ := hlexical.references v hv
    obtain ⟨g, hg, hbecomes'⟩ := exists_region_of_unit hrun hcomplete hends hu
    rw [hbecomes'.place, hbecomes.lineage_eq] at hplace
    rw [hbecomes'.locals_eq] at hlocal
    exact ⟨g, hg, hplace, hlocal⟩
  have hcalled : ∀ q ∈ Statement.callsAll (ds.procAt (r.procedure body)).body,
      ∃ g ∈ regions body, g.place = some q ∧ ∃ k ∈ r.lineage, g.enclosing.head? = some k := by
    intro q hq
    rw [← View.code_calls, ← hbecomes.view_eq] at hq
    obtain ⟨home, hhome, rfl, k, hk, hhead⟩ := hlexical.calls q hq
    obtain ⟨g, hg, hplace, henclosing⟩ := exists_region_of_home hrun hcomplete hends hhome
    rw [hbecomes.lineage_eq] at hk
    exact ⟨g, hg, hplace, k, hk, henclosing ▸ hhead⟩
  refine ⟨hassigned, hreferenced, hcalled, ?_, ?_⟩
  · intro g hg hnot v hv
    constructor
    · intro hmem
      have hsame := place_eq_of_mem_locals hrun hcomplete hends hg hr hv (hassigned v hmem)
      exact hnot (hsame ▸ List.mem_cons_self)
    · intro hmem
      obtain ⟨g', hg', hplace, hv'⟩ := hreferenced v hmem
      have hsame := place_eq_of_mem_locals hrun hcomplete hends hg hg' hv hv'
      exact hnot (hsame ▸ hplace)
  · intro g hg hnot inner hinner hhead q hq hplace
    obtain ⟨g', hg', hplace', k, hk, hhead'⟩ := hcalled q hq
    rw [enclosing_eq_of_place hrun hcomplete hends hinner hg' hplace hplace', hhead'] at hhead
    exact hnot (Option.some.inj hhead ▸ hk)

theorem region_matches {r : Region} (hr : r ∈ regions body) : Matches body ds r := by
  obtain ⟨f, hf, hbecomes⟩ := exists_unit_of_region hrun hcomplete hends hr
  refine ⟨hbecomes.called.trans hbecomes.name, ?_⟩
  have hnames : (f.parameters.map fun hint => (ds.varAt hint.target).name) =
      f.parameters.map (·.name) := by
    refine List.map_congr_left fun hint hhint => ?_
    rw [Declarations.varAt, hends.vars]
    exact (named_of_runs hrun).parameters f hf hint hhint
  have hseeds := congrArg (List.map Prod.fst) hbecomes.seeds
  rw [Region.seeds, Parameter.map_fst_seeds, List.map_map] at hseeds
  rw [hbecomes.fills.parameters, List.map_map]
  exact hnames.trans hseeds

theorem exists_region_of_procedure {p : ProcId} (hp : p.index < ds.procedures.length) :
    ∃ r ∈ regions body, r.procedure body = p := by
  by_cases hlt : p.index < s.table.procedures.length
  · have hmem : p ∈ s.homes.map (·.place) := by
      refine (counted_of_runs hrun).places.mem_iff.mpr (List.mem_map.mpr ⟨p.index, ?_, rfl⟩)
      exact List.mem_range.mpr hlt
    obtain ⟨home, hhome, rfl⟩ := List.mem_map.mp hmem
    obtain ⟨r, hr, hplace, -⟩ := exists_region_of_home hrun hcomplete hends hhome
    exact ⟨r, hr, by rw [Region.procedure, hplace]; rfl⟩
  · have hlength : ds.procedures.length ≤ s.table.procedures.length + 1 := by
      rw [hends.procedures, List.length_append, entryOf]
      split <;> simp
    refine ⟨.module body, List.mem_cons_self, ?_⟩
    have hindex : (outline body).next = p.index := by
      rw [← hcomplete.procedures]
      omega
    exact congrArg ProcId.mk hindex

end Finished

/--
Every procedure of a lowered module is what one region of the source became, and
it is scoped as that region is.
-/
theorem lexically_scoped {signatures : SignatureTable} {body : List Stmt} {lowered : Lowered}
    (h : (run signatures (.module body)).result = .ok lowered) :
    (∀ p : ProcId, p.index < lowered.declarations.procedures.length →
      ∃ r ∈ regions body, r.procedure body = p) ∧
    ∀ r ∈ regions body,
      Matches body lowered.declarations r ∧ WellScoped body lowered.declarations r := by
  obtain ⟨s, hrun, hcomplete, hends⟩ := exists_run h
  refine ⟨fun p hp => exists_region_of_procedure hrun hcomplete hends hp, fun r hr => ?_⟩
  exact ⟨region_matches hrun hcomplete hends hr, wellScoped hrun hcomplete hends hr⟩

theorem lexically_scoped_nestedModule : ∃ lowered,
    (run OrderedMap.empty (.module nestedModule)).result = .ok lowered ∧
      (regions nestedModule).map (·.lineage) =
        [[none], [some ⟨1⟩, some ⟨0⟩, none], [some ⟨0⟩, none]] ∧
      ∀ r ∈ regions nestedModule,
        Matches nestedModule lowered.declarations r ∧
          WellScoped nestedModule lowered.declarations r := by
  obtain ⟨lowered, h⟩ := nestedModule_lowered
  exact ⟨lowered, h, rfl, (lexically_scoped h).2⟩

end TypedPseudocode.Lowering
