import Mathlib.Data.List.Forall2
import TypedPseudocode.Proofs.Runs

/-!
Both passes over a list of statements, as runs.

A list that can be lowered is lowered by a run that leaves behind what the
source says: the types that it states for names, in order, and one completed
frame for each region of its outline.  The outline is known beforehand, so the
frames of a whole module are known without running anything.
-/

namespace TypedPseudocode.Lowering

open Code TypedPseudocode.Tree

variable {t t' : Table}

/-! ## What runs keep -/

theorem Step.signatures_eq {s s' : State} (h : Step s s') :
    s'.table.signatures = s.table.signatures := by
  cases h with
  | eval h =>
      generalize s.frame.operands = operands at h
      cases h <;> simp
  | assign _ h => cases h <;> simp
  | hint h => cases h <;> simp
  | _ => simp

theorem signatures_of_runs {s s' : State} (h : Runs s s') :
    s'.table.signatures = s.table.signatures := by
  induction h with
  | refl => rfl
  | tail _ step ih => rw [step.signatures_eq, ih]

def State.functions (s : State) : Nat := s.pending.length + s.outer.length + s.finished.length

theorem Step.procedures_length {s s' : State} (h : Step s s') :
    s'.table.procedures.length + s.functions = s.table.procedures.length + s'.functions := by
  cases h with
  | eval h =>
      generalize s.frame.operands = operands at h
      cases h <;> simp [State.functions]
  | assign _ h => cases h <;> simp [State.functions]
  | hint h => cases h <;> simp [State.functions]
  | openFunction h =>
      simp only [State.functions, h, List.length_append, List.length_cons,
        Table.toDeclarations_enter]
      omega
  | declareFunction =>
      simp [State.functions]
      omega
  | closeFunction hplace houter _ _ _ =>
      simp [State.functions, houter]
      omega
  | _ => simp [State.functions]

theorem procedures_length_of_runs {s s' : State} (h : Runs s s') :
    s'.table.procedures.length + s.functions = s.table.procedures.length + s'.functions := by
  induction h with
  | refl => rfl
  | tail _ step ih =>
      have hstep := step.procedures_length
      omega

/-! ## What statements leave behind -/

/-- A frame is what a region of the source became. -/
structure Frame.Realizes (signatures : SignatureTable) (f : Frame) (r : Region) : Prop where
  place : f.place = r.place
  enclosing : f.enclosing = r.enclosing
  name : f.name = r.name
  seeds : f.parameters.map (fun hint => (hint.name, hint.ty)) = r.seeds signatures
  hints : f.hints.map (fun hint => (hint.name, hint.ty)) = Stmt.hintsAll r.body

namespace State

def gain (s : State) (t : Table) (block : Block) (hints : List Hint) (finished : List Frame) :
    State :=
  { s with
    table := t
    frame := { s.frame with
      block := ⟨s.frame.block.statements ++ block.statements, block.returns⟩
      hints := s.frame.hints ++ hints }
    finished := s.finished ++ finished }

def await (s : State) (places : List (ProcId × String)) : State :=
  { s with pending := s.pending ++ places.map fun (p, name) => ⟨p, name, s.frame.lineage⟩ }

def finish (s : State) (t : Table) (finished : List Frame) : State :=
  { s with table := t, finished := s.finished ++ finished }

@[simp] theorem await_nil (s : State) : s.await [] = s := by
  simp [await]

end State

/--
From the state `s` there is a run that lowers statements to `pass`.  They state
the types `hints`, and what becomes of their functions is as in the outline.
-/
def Lowers (s : State) (pass : FirstPass) (t : Table) (hints : List (String × Ty))
    (outline : Outline) : Prop :=
  ∃ stated finished,
    Runs s ((s.gain t pass.toBlock stated finished).await outline.places) ∧
      stated.map (fun hint => (hint.name, hint.ty)) = hints ∧
      List.Forall₂ (Frame.Realizes s.table.signatures) finished outline.regions ∧
      pass.declared = outline.places.map Prod.fst ∧ t.procedures.length = outline.next

def Completes (s : State) (places : List (ProcId × String)) (t : Table) (outline : Outline) :
    Prop :=
  ∃ finished, Runs (s.await places) (s.finish t finished) ∧
    List.Forall₂ (Frame.Realizes s.table.signatures) finished outline.regions ∧
    t.procedures.length = outline.next

theorem lowers_of_emit {s : State} {code : List TypedStatement}
    (h : Runs s ((s.on t).emit code)) :
    Lowers s ⟨⟨code, s.frame.block.returns⟩, []⟩ t [] ⟨[], [], s.table.procedures.length⟩ := by
  have hlength := procedures_length_of_runs h
  refine ⟨[], [], ?_, rfl, .nil, rfl, ?_⟩
  · simpa [State.gain, State.emit, State.on] using h
  · simpa [State.functions, State.emit, State.on] using hlength

theorem Lowers.append {s : State} {here there : FirstPass} {t₁ t₂ : Table}
    {hints hints' : List (String × Ty)} {outline outline' : Outline}
    (h : Lowers s here t₁ hints outline)
    (h' : ∀ s' : State, s'.table = t₁ → s'.table.signatures = s.table.signatures →
      s'.frame.block.returns = here.returns → s'.frame.lineage = s.frame.lineage →
      Lowers s' there t₂ hints' outline') :
    Lowers s ⟨⟨here.statements ++ there.statements, there.returns⟩,
      here.declared ++ there.declared⟩ t₂ (hints ++ hints') (outline.append outline') := by
  obtain ⟨stated, finished, hrun, rfl, hfinished, hplaces, hnext⟩ := h
  have hsignatures := signatures_of_runs hrun
  obtain ⟨stated', finished', hrun', rfl, hfinished', hplaces', hnext'⟩ :=
    h' _ rfl hsignatures rfl rfl
  rw [hsignatures] at hfinished'
  refine ⟨stated ++ stated', finished ++ finished', ?_, List.map_append,
    List.rel_append hfinished hfinished', by simp [hplaces, hplaces', Outline.append], hnext'⟩
  have hboth := hrun.trans hrun'
  simpa [State.gain, State.await, Frame.lineage, Outline.append] using hboth

theorem Lowers.twice {s : State} {pass : FirstPass} {t₁ t₂ : Table}
    {hints : List (String × Ty)} {outline : Outline}
    {second : List (ProcId × String) → Nat → Outline}
    (h : Lowers s pass t₁ hints outline)
    (h' : ∀ s' : State, s'.table = t₁ → s'.table.signatures = s.table.signatures →
      s'.frame.lineage = s.frame.lineage →
      Completes s' outline.places t₂ (second outline.places outline.next)) :
    Lowers s ⟨pass.toBlock, []⟩ t₂ hints (outline.twice second) := by
  obtain ⟨stated, finished, hrun, rfl, hfinished, hplaces, hnext⟩ := h
  have hsignatures : t₁.signatures = s.table.signatures := signatures_of_runs hrun
  obtain ⟨finished', hrun', hfinished', hnext'⟩ :=
    h' (s.gain t₁ pass.toBlock stated finished) rfl hsignatures rfl
  have hsame : (s.gain t₁ pass.toBlock stated finished).table.signatures =
    s.table.signatures := hsignatures
  rw [hsame] at hfinished'
  refine ⟨stated, finished ++ finished', ?_, rfl, List.rel_append hfinished hfinished', rfl,
    hnext'⟩
  have hboth := hrun.trans hrun'
  simpa [State.gain, State.finish, Outline.twice] using hboth

theorem Lowers.ofBlock {s : State} {block : Block} {hints : List (String × Ty)}
    {outline : Outline} (h : Lowers s ⟨block, []⟩ t hints outline) :
    ∃ stated finished, Runs s (s.gain t block stated finished) ∧
      stated.map (fun hint => (hint.name, hint.ty)) = hints ∧
      List.Forall₂ (Frame.Realizes s.table.signatures) finished outline.regions ∧
      outline.places = [] ∧ t.procedures.length = outline.next := by
  obtain ⟨stated, finished, hrun, hstated, hfinished, hplaces, hnext⟩ := h
  have hnone : outline.places = [] := List.map_eq_nil_iff.mp hplaces.symm
  rw [hnone, State.await_nil] at hrun
  exact ⟨stated, finished, hrun, hstated, hfinished, hnone, hnext⟩

theorem lowers_of_block {s : State} {block : Block} {stated : List Hint}
    {finished : List Frame} {outline : Outline}
    (hrun : Runs s (s.gain t block stated finished))
    (hfinished : List.Forall₂ (Frame.Realizes s.table.signatures) finished outline.regions)
    (hplaces : outline.places = []) (hnext : t.procedures.length = outline.next) :
    Lowers s ⟨block, []⟩ t (stated.map fun hint => (hint.name, hint.ty)) outline := by
  refine ⟨stated, finished, ?_, rfl, hfinished, by rw [hplaces]; rfl, hnext⟩
  rw [hplaces, State.await_nil]
  exact hrun

/-! ## Functions -/

def Follows (body : Lowering Block) (hints : List (String × Ty))
    (outline : List (Option ProcId) → Nat → Outline) : Prop :=
  ∀ (s : State) (block : Block) (t : Table), Yields body s.table block t →
    s.frame.block.returns = .unknown →
    Lowers s ⟨block, []⟩ t hints (outline s.frame.lineage s.table.procedures.length)

theorem declareFunction_yields {line : Nat} {name : String} {ps : Parameters}
    {decorators : List Expr} {returns : Option Expr} {p : ProcId}
    (h : Yields (declareFunction line name ps decorators returns) t p t') :
    p = ⟨t.procedures.length⟩ ∧ ∃ stated, Builtin.hintTy? returns = .ok stated ∧
      t' = t.withProcedure name stated := by
  unfold declareFunction at h
  split at h
  · exact absurd h yields_refuse
  · simp only [yields_bind, yields_ofExcept, yields_declareProcedure] at h
    obtain ⟨_, t₁, hcheck, stated, t₂, ⟨hstated, rfl⟩, rfl, rfl⟩ := h
    have hsame : t₁ = t := by
      unfold checkParameters at hcheck
      split at hcheck
      · exact absurd hcheck yields_refuse
      · split at hcheck
        · exact absurd hcheck yields_refuse
        · split at hcheck
          · exact absurd hcheck yields_refuse
          · exact (yields_pure.mp hcheck).2.symm
    subst hsame
    exact ⟨rfl, stated, hstated, rfl⟩

theorem runs_declareFunction {line : Nat} {name : String} {ps : Parameters}
    {decorators : List Expr} {returns : Option Expr} {p : ProcId}
    (h : Yields (declareFunction line name ps decorators returns) t p t') (s : State) :
    p = ⟨t.procedures.length⟩ ∧ Runs (s.on t) ((s.on t').await [(p, name)]) ∧
      t'.procedures.length = t.procedures.length + 1 := by
  obtain ⟨rfl, stated, -, rfl⟩ := declareFunction_yields h
  exact ⟨rfl, .single .declareFunction, by simp⟩

theorem variableSeed_eq_seed {p : Parameter} {stated : Option Ty}
    (h : Builtin.hintTy? p.typeHint = .ok stated) (t : Table) (owner : String)
    (position : Nat) :
    t.variableSeed p.name stated (some ⟨owner, position⟩) =
      p.seed t.signatures owner position := by
  unfold Parameter.seed Table.variableSeed
  cases htype : p.typeHint with
  | none =>
      rw [htype] at h
      cases h
      simp
  | some hint =>
      rw [htype] at h
      cases hty : Builtin.hintTy hint with
      | error d => simp [Builtin.hintTy?, hty, Except.map] at h
      | ok ty =>
          simp only [Builtin.hintTy?, hty, Except.map, Except.ok.injEq] at h
          subst h
          simp [hty, Except.toOption]

def State.bindParameters (s : State) (parameters : List Hint) : State :=
  { s with frame := { s.frame with parameters := s.frame.parameters ++ parameters } }

theorem runs_declareParameters {owner : String} {position : Nat} {ps : List Parameter}
    {vs : List VarId} (h : Yields (declareParameters owner position ps) t vs t') (s : State)
    (hblock : s.frame.block.statements = []) (haround : s.frame.around = [])
    (hhints : s.frame.hints = []) :
    ∃ parameters, Runs (s.on t) ((s.on t').bindParameters parameters) ∧
      parameters.map (·.target) = vs ∧
      parameters.map (fun hint => (hint.name, hint.ty)) =
        Parameter.seeds t.signatures owner position ps := by
  induction ps generalizing position t vs s with
  | nil =>
      obtain ⟨rfl, rfl⟩ := yields_pure.mp h
      refine ⟨[], ?_, rfl, rfl⟩
      simpa [State.bindParameters] using .refl
  | cons p ps ih =>
      simp only [declareParameters, yields_bind, yields_ofExcept, yields_declareVariable,
        yields_return] at h
      obtain ⟨stated, t₁, ⟨hstated, rfl⟩, v, t₂, ⟨rfl, rfl⟩, vs', t₃, hrest, rfl, rfl⟩ := h
      have hseed := variableSeed_eq_seed hstated t owner position
      obtain ⟨parameters, hrun, hvs, hseeds⟩ :=
        ih hrest
          (s.bindParameters [⟨p.name, p.seed t.signatures owner position, ⟨t.vars.length⟩⟩])
          hblock haround hhints
      refine ⟨⟨p.name, p.seed t.signatures owner position, ⟨t.vars.length⟩⟩ :: parameters, ?_,
        by simp [hvs], by simp [hseeds, Parameter.seeds]⟩
      have hfirst : Step (s.on t)
          ((s.on (t.withVariable p.name stated (some ⟨owner, position⟩))).bindParameters
            [⟨p.name, p.seed t.signatures owner position, ⟨t.vars.length⟩⟩]) := by
        rw [← hseed]
        exact .parameter hblock haround hhints
      have hall := hrun.head hfirst
      simpa [State.bindParameters, State.on] using hall

theorem runs_lowerFunction {line : Nat} {name : String} {ps : Parameters} {p : ProcId}
    {body : Lowering Block} {source : List Stmt}
    {outline : List (Option ProcId) → Nat → Outline} {u : Unit} {s : State}
    (hbody : Follows body (Stmt.hintsAll source) outline)
    (h : Yields (lowerFunction line name ps p body) s.table u t)
    (others : List (ProcId × String)) :
    ∃ finished, Runs (s.await ((p, name) :: others)) ((s.finish t finished).await others) ∧
      List.Forall₂ (Frame.Realizes s.table.signatures) finished
        ((outline (some p :: s.frame.lineage) s.table.procedures.length).regions ++
          [⟨some p, s.frame.lineage, some name, ps.positional, source⟩]) ∧
      t.procedures.length =
        (outline (some p :: s.frame.lineage) s.table.procedures.length).next := by
  simp only [lowerFunction, yields_bind, yields_tell, yields_inChildScope, yields_return,
    yields_constrainProcedure, yields_modify] at h
  obtain ⟨_, _, rfl, _, _, ⟨t₁, ⟨vs, t₂, hvs, block, t₃, hblock, rfl, rfl⟩, rfl⟩,
    unified, _, ⟨hty, rfl⟩, rfl⟩ := h
  let inside : State :=
    ⟨s.table.enter, .start (some p) s.frame.lineage (some name), s.frame :: s.outer, s.finished,
      s.pending ++ others.map fun (q, name) => ⟨q, name, s.frame.lineage⟩⟩
  have hopen : Step (s.await ((p, name) :: others)) inside := .openFunction rfl
  obtain ⟨parameters, hparameters, hvs, hseeds⟩ := runs_declareParameters hvs inside rfl rfl rfl
  obtain ⟨stated, finished, hrun, hstated, hfinished, -, hnext⟩ :=
    (hbody ((inside.on t₂).bindParameters parameters) _ _ hblock rfl).ofBlock
  have hsignatures : t₂.signatures = s.table.signatures := signatures_of_runs hparameters
  have hlength := procedures_length_of_runs hparameters
  replace hlength : t₂.procedures.length = s.table.procedures.length := by
    simpa [State.functions, State.on, State.bindParameters, inside] using hlength
  change List.Forall₂ (Frame.Realizes t₂.signatures) _
    (outline (some p :: s.frame.lineage) t₂.procedures.length).regions at hfinished
  change t₃.procedures.length =
    (outline (some p :: s.frame.lineage) t₂.procedures.length).next at hnext
  rw [hsignatures, hlength] at hfinished
  rw [hlength] at hnext
  let frame : Frame :=
    ⟨some p, s.frame.lineage, some name, parameters, block, [], [], stated⟩
  have hclose : Step (((inside.on t₂).bindParameters parameters).gain t₃ block stated finished)
      ((s.finish (t₃.leave.complete p unified (parameters.map (·.target)) block.statements)
        (finished ++ [frame])).await others) := by
    rw [State.finish, ← List.append_assoc]
    exact .closeFunction rfl rfl rfl rfl hty
  refine ⟨finished ++ [frame], ?_, List.rel_append hfinished (.cons ?_ .nil), ?_⟩
  · rw [← hvs]
    exact ((hparameters.trans hrun).tail hclose).head hopen
  · exact ⟨rfl, rfl, rfl, hseeds, hstated⟩
  · change (t₃.leave.complete p unified vs block.statements).procedures.length = _
    simpa using hnext


/-! ## Nested statements -/

def State.nest (s : State) : State :=
  { s with
    frame := { s.frame with
      block := ⟨[], .unknown⟩
      around := s.frame.block :: s.frame.around } }

theorem yields_joinReturns {line : Nat} {known ty joined : Ty} :
    Yields (joinReturns line known ty) t joined t' ↔ known.unify ty = some joined ∧ t = t' := by
  constructor
  · intro h
    unfold joinReturns at h
    split at h
    · rename_i unified hunify
      obtain ⟨rfl, rfl⟩ := yields_pure.mp h
      exact ⟨hunify, rfl⟩
    · obtain ⟨h, -⟩ := yields_ofExcept.mp h
      cases h
  · rintro ⟨hunify, rfl⟩
    simp [joinReturns, hunify]

theorem rangeOf_yields {line iterLine : Nat} {e : TypedExpression} {range : Range}
    (h : Yields (rangeOf line iterLine e) t range t') :
    t' = t ∧ ∃ arguments ty, e = .callBuiltin "range" arguments ty ∧
      Bounds arguments range := by
  unfold rangeOf at h
  split at h
  · rename_i name arguments ty
    split at h
    · rename_i hname
      subst hname
      split at h
      · obtain ⟨rfl, rfl⟩ := yields_pure.mp h
        exact ⟨rfl, _, ty, rfl, .stop _⟩
      · obtain ⟨rfl, rfl⟩ := yields_pure.mp h
        exact ⟨rfl, _, ty, rfl, .start _ _⟩
      · obtain ⟨rfl, rfl⟩ := yields_pure.mp h
        exact ⟨rfl, _, ty, rfl, .step _ _ _⟩
      · exact absurd h yields_refuse
    · exact absurd h yields_refuse
  · exact absurd h yields_refuse

theorem procedures_length_eq {s s' : State} (h : Runs s s')
    (hfunctions : s'.functions = s.functions) :
    s'.table.procedures.length = s.table.procedures.length := by
  have hlength := procedures_length_of_runs h
  omega

theorem Follows.nested {body : Lowering Block} {hints : List (String × Ty)}
    {outline : List (Option ProcId) → Nat → Outline} (hbody : Follows body hints outline)
    {s s' : State} (hrun : Runs s s') (hfunctions : s'.functions = s.functions)
    (hlineage : s'.frame.lineage = s.frame.lineage) {block : Block}
    (h : Yields body s'.table block t) :
    ∃ stated finished, Runs s (s'.nest.gain t block stated finished) ∧
      stated.map (fun hint => (hint.name, hint.ty)) = hints ∧
      List.Forall₂ (Frame.Realizes s.table.signatures) finished
        (outline s.frame.lineage s.table.procedures.length).regions ∧
      (outline s.frame.lineage s.table.procedures.length).places = [] ∧
      t.procedures.length = (outline s.frame.lineage s.table.procedures.length).next := by
  obtain ⟨stated, finished, hinside, hstated, hfinished, hplaces, hnext⟩ :=
    (hbody s'.nest _ _ h rfl).ofBlock
  rw [show s'.nest.table = s'.table from rfl,
    show s'.nest.frame.lineage = s.frame.lineage from hlineage, signatures_of_runs hrun,
    procedures_length_eq hrun hfunctions] at hfinished
  rw [show s'.nest.table = s'.table from rfl,
    show s'.nest.frame.lineage = s.frame.lineage from hlineage,
    procedures_length_eq hrun hfunctions] at hplaces hnext
  exact ⟨stated, finished, (hrun.tail .openBlock).trans hinside, hstated, hfinished, hplaces,
    hnext⟩

theorem lowers_whileLoop {line : Nat} {test : Expr} {guard : TypedExpression}
    {body : Lowering Block} {block : Block} {hints : List (String × Ty)}
    {outline : List (Option ProcId) → Nat → Outline} {returns : Ty} {s : State} {t₁ t₂ : Table}
    (hbody : Follows body hints outline) (hguard : Yields (lowerValue test) s.table guard t₁)
    (hblock : Yields body t₁ block t₂)
    (hreturns : Yields (joinReturns line s.frame.block.returns block.returns) t₂ returns t) :
    Lowers s ⟨⟨[.loop guard block.statements], returns⟩, []⟩ t hints
      (outline s.frame.lineage s.table.procedures.length) := by
  obtain ⟨hunify, rfl⟩ := yields_joinReturns.mp hreturns
  obtain ⟨stated, finished, hrun, rfl, hfinished, hplaces, hnext⟩ :=
    hbody.nested (runs_lowerValue hguard s) rfl rfl hblock
  exact lowers_of_block (hrun.tail (.closeLoop rfl rfl hunify)) hfinished hplaces hnext

theorem lowers_branch {line line' : Nat} {test : Expr} {guard : TypedExpression}
    {body orelse : Lowering Block} {yes no : Block} {hints hints' : List (String × Ty)}
    {outline outline' : List (Option ProcId) → Nat → Outline} {joined returns : Ty} {s : State}
    {t₁ t₂ t₃ t₄ : Table}
    (hbody : Follows body hints outline) (horelse : Follows orelse hints' outline')
    (hguard : Yields (lowerValue test) s.table guard t₁) (hyes : Yields body t₁ yes t₂)
    (hno : Yields orelse t₂ no t₃)
    (hjoined : Yields (joinReturns line s.frame.block.returns yes.returns) t₃ joined t₄)
    (hreturns : Yields (joinReturns line' joined no.returns) t₄ returns t) :
    Lowers s ⟨⟨[.selection guard yes.statements no.statements], returns⟩, []⟩ t
      (hints ++ hints')
      ((outline s.frame.lineage s.table.procedures.length).append
        (outline' s.frame.lineage
          (outline s.frame.lineage s.table.procedures.length).next)) := by
  obtain ⟨hunify, rfl⟩ := yields_joinReturns.mp hjoined
  obtain ⟨hunify', rfl⟩ := yields_joinReturns.mp hreturns
  have hstart : Runs s ((s.on t₁).push [guard]) := runs_lowerValue hguard s
  obtain ⟨stated, finished, hrun, rfl, hfinished, hplaces, hnext⟩ :=
    hbody.nested hstart rfl rfl hyes
  obtain ⟨stated', finished', hrun', rfl, hfinished', hplaces', hnext'⟩ :=
    horelse.nested (s := ((s.on t₁).push [guard]).nest.gain t₂ yes stated finished) .refl rfl
      rfl hno
  have hsignatures : t₂.signatures = s.table.signatures := signatures_of_runs hrun
  replace hfinished' : List.Forall₂ (Frame.Realizes t₂.signatures) finished'
    (outline' s.frame.lineage t₂.procedures.length).regions := hfinished'
  replace hplaces' : (outline' s.frame.lineage t₂.procedures.length).places = [] := hplaces'
  replace hnext' : t₃.procedures.length =
    (outline' s.frame.lineage t₂.procedures.length).next := hnext'
  rw [hnext] at hfinished' hplaces' hnext'
  rw [hsignatures] at hfinished'
  have hclosed := (hrun.trans hrun').tail (.closeSelection rfl rfl hunify hunify')
  rw [← List.map_append]
  refine lowers_of_block ?_ (List.rel_append hfinished hfinished') ?_ hnext'
  · simpa [State.gain, State.nest, State.push, State.on] using hclosed
  · simp [Outline.append, hplaces, hplaces']

theorem yields_countingLoop {line targetLine iterLine : Nat} {name : String}
    {iter : Lowering TypedExpression} {body : Lowering Block} {returns : Ty} {block : Block} :
    Yields (countingLoop line targetLine iterLine name iter body returns) t block t' ↔
      ∃ v declaration t₁ x t₂ range t₃ known inner t₄ advanced joined,
        Yields (bindName targetLine name .int) t (v, declaration) t₁ ∧
        Yields iter t₁ x t₂ ∧
        Yields (rangeOf line iterLine x) t₂ range t₃ ∧
        (t₃.tyOf v).unify range.start.ty = some known ∧
        Yields body (t₃.raise v known) inner t₄ ∧
        (t₄.tyOf v).unify (BinOp.add.resultTy (t₄.tyOf v) range.step.ty) = some advanced ∧
        returns.unify inner.returns = some joined ∧
        ⟨declaration ++ [.assign v range.start,
          .loop (.binary .different (.read v ((t₃.raise v known).tyOf v)) range.stop .boolean)
            (inner.statements ++ [.assign v (.binary .add
              (.read v ((t₄.raise v advanced).tyOf v)) range.step
              (BinOp.add.resultTy (t₄.tyOf v) range.step.ty))])], joined⟩ = block ∧
        t₄.raise v advanced = t' := by
  simp only [countingLoop, yields_bind, yields_constrainVariable, yields_readVariable,
    yields_gets, yields_joinReturns, yields_return]
  constructor
  · rintro ⟨⟨v, declaration⟩, t₁, hbind, x, t₂, hx, range, t₃, hrange, known, _, ⟨hstart, rfl⟩,
      _, _, ⟨rfl, rfl⟩, inner, t₄, hinner, _, _, ⟨rfl, rfl⟩, advanced, _, ⟨hstep, rfl⟩,
      _, _, ⟨rfl, rfl⟩, joined, _, ⟨hjoined, rfl⟩, hblock, htable⟩
    exact ⟨v, declaration, t₁, x, t₂, range, t₃, known, inner, t₄, advanced, joined, hbind, hx,
      hrange, hstart, hinner, hstep, hjoined, hblock, htable⟩
  · rintro ⟨v, declaration, t₁, x, t₂, range, t₃, known, inner, t₄, advanced, joined, hbind, hx,
      hrange, hstart, hinner, hstep, hjoined, hblock, htable⟩
    exact ⟨⟨v, declaration⟩, t₁, hbind, x, t₂, hx, range, t₃, hrange, known, _, ⟨hstart, rfl⟩,
      _, _, ⟨rfl, rfl⟩, inner, t₄, hinner, _, _, ⟨rfl, rfl⟩, advanced, _, ⟨hstep, rfl⟩,
      _, _, ⟨rfl, rfl⟩, joined, _, ⟨hjoined, rfl⟩, hblock, htable⟩

theorem lowers_countingLoop {line targetLine iterLine : Nat} {name : String} {iter : Expr}
    {body : Lowering Block} {block : Block} {hints : List (String × Ty)}
    {outline : List (Option ProcId) → Nat → Outline} {s : State}
    (hbody : Follows body hints outline)
    (h : Yields (countingLoop line targetLine iterLine name (lowerValue iter) body
      s.frame.block.returns) s.table block t) :
    Lowers s ⟨block, []⟩ t ((name, .int) :: hints)
      (outline s.frame.lineage s.table.procedures.length) := by
  obtain ⟨v, declaration, t₁, x, t₂, range, t₃, unified, inner, t₄, advanced, returns, hbind,
    hx, hrange, hstart, hinner, hstep, hunify, rfl, rfl⟩ := yields_countingLoop.mp h
  obtain ⟨rfl, arguments, ty, rfl, hbounds⟩ := rangeOf_yields hrange
  have hbinds := binds_bindName hbind
  have hiter := evals_lowerExpr iter hx s.frame.operands
  have hscope := hbinds.get?
  rw [← hiter.scopes_eq.1] at hscope
  let told : Hint := ⟨name, .int, v⟩
  let guard : TypedExpression :=
    .binary .different (.read v ((t₃.raise v unified).tyOf v)) range.stop .boolean
  have hbefore : Runs s ((((s.on (t₃.raise v unified)).emit
      (declaration ++ [.assign v range.start])).hint [told]).push [range.step, guard]) := by
    have hhint : Step s (((s.on t₁).emit declaration).hint [told]) := .hint hbinds
    have hevals := hiter.runs (s := ((s.on t₁).emit declaration).hint [told]) rfl rfl
    have hspread := hevals.tail (.spread rfl hbounds)
    have hassign := hspread.tail (.assign
      (show s.frame.operands ++ [range.step, range.stop, range.start] =
        (s.frame.operands ++ [range.step, range.stop]) ++ [range.start] by simp)
      (.known hscope hstart))
    have hguard := hassign.tail (.guard
      (show s.frame.operands ++ [range.step, range.stop] =
        (s.frame.operands ++ [range.step]) ++ [range.stop] by simp) hscope)
    rw [← State.emit_emit]
    have hall := hguard.head hhint
    rw [List.append_assoc] at hall
    exact hall
  obtain ⟨stated, finished, hrun, rfl, hfinished, hplaces, hnext⟩ :=
    hbody.nested hbefore rfl rfl hinner
  have hadvance := hrun.tail (.advance rfl rfl (List.mem_append_right _
    (List.mem_append_right _ (List.mem_singleton_self _))) hstep)
  have hclose := hadvance.tail (.closeLoop rfl rfl hunify)
  change Lowers s _ _ ((told :: stated).map fun hint => (hint.name, hint.ty)) _
  refine lowers_of_block ?_ hfinished hplaces hnext
  simpa [State.gain, State.nest, State.push, State.on, State.emit, State.hint] using hclose

/-! ## Both passes -/

def blockOutline (body : List Stmt) (around : List (Option ProcId)) (next : Nat) : Outline :=
  (Stmt.outlineAll around next body).twice (Stmt.outlineBodies around body)

theorem Lowers.procedures_length {s : State} {pass : FirstPass} {hints : List (String × Ty)}
    {outline : Outline} (h : Lowers s pass t hints outline) :
    t.procedures.length = outline.next := by
  obtain ⟨_, _, _, _, _, _, hnext⟩ := h
  exact hnext

theorem follows_of_passes {body : List Stmt}
    (hfirst : ∀ {s : State} {t : Table} {pass : FirstPass},
      Yields (lowerStmts s.frame.block.returns body) s.table pass t →
      Lowers s pass t (Stmt.hintsAll body)
        (Stmt.outlineAll s.frame.lineage s.table.procedures.length body))
    (hsecond : ∀ {s : State} {places : List (ProcId × String)} {t : Table} {u : Unit},
      places.map Prod.snd = body.filterMap Stmt.functionName? →
      Yields (lowerBodies body (places.map Prod.fst)) s.table u t →
      Completes s places t
        (Stmt.outlineBodies s.frame.lineage body places s.table.procedures.length)) :
    Follows (twoPasses (lowerStmts .unknown body) (lowerBodies body)) (Stmt.hintsAll body)
      (blockOutline body) := by
  intro s block t h hreturns
  simp only [twoPasses, yields_bind, yields_return] at h
  obtain ⟨pass, t₁, hpass, _, t₂, hbodies, rfl, rfl⟩ := h
  rw [← hreturns] at hpass
  have hlowers := hfirst hpass
  have hnext := hlowers.procedures_length
  obtain ⟨-, -, -, -, -, hplaces, -⟩ := hlowers
  rw [hplaces] at hbodies
  refine (hfirst hpass).twice fun s' htable _ hlineage => ?_
  subst htable
  have hcompletes := hsecond (Stmt.names_outlineAll _ _ _) hbodies
  rwa [hlineage, hnext] at hcompletes

mutual

theorem lowers_lowerStmt (stmt : Stmt) {s : State} {t : Table} {pass : FirstPass}
    (h : Yields (lowerStmt s.frame.block.returns stmt) s.table pass t) :
    Lowers s pass t stmt.hints
      (stmt.outline s.frame.lineage s.table.procedures.length) := by
  cases stmt with
  | functionDef line name ps body decorators hint =>
      simp only [lowerStmt, yields_bind, yields_return] at h
      obtain ⟨p, t₁, hp, rfl, rfl⟩ := h
      obtain ⟨rfl, hrun, hlength⟩ := runs_declareFunction hp s
      refine ⟨[], [], ?_, rfl, .nil, rfl, hlength⟩
      simpa [State.gain, State.on, Stmt.outline] using hrun
  | ret line value =>
      cases value with
      | none =>
          simp only [lowerStmt, yields_bind, yields_return] at h
          obtain ⟨returns, t₁, hreturns, rfl, rfl⟩ := h
          obtain ⟨hunify, rfl⟩ := yields_joinReturns.mp hreturns
          refine ⟨[], [], ?_, rfl, .nil, rfl, rfl⟩
          have hrun : Runs s _ := .single (.use (List.append_nil _).symm .ret hunify)
          simpa [State.gain, Stmt.outline] using hrun
      | some value =>
          simp only [lowerStmt, yields_bind, yields_return] at h
          obtain ⟨x, t₁, hx, returns, t₂, hreturns, rfl, rfl⟩ := h
          obtain ⟨hunify, rfl⟩ := yields_joinReturns.mp hreturns
          have hvalue := runs_lowerValue hx s
          refine ⟨[], [], ?_, rfl, .nil, rfl, procedures_length_eq hvalue rfl⟩
          have hrun := hvalue.tail (.use rfl (.retValue x) hunify)
          simpa [State.gain, State.push, State.on, Stmt.outline] using hrun
  | assign line targets value =>
      simp only [lowerStmt, yields_bind, yields_return] at h
      obtain ⟨code, t₁, hcode, rfl, rfl⟩ := h
      exact lowers_of_emit (runs_assignAll hcode s (by simp))
  | augAssign line target op value =>
      simp only [lowerStmt, yields_bind, yields_return] at h
      obtain ⟨code, t₁, hcode, rfl, rfl⟩ := h
      exact lowers_of_emit (runs_augment hcode s)
  | annAssign line target hint value =>
      simp only [lowerStmt, yields_bind, yields_return] at h
      obtain ⟨code, t₁, hcode, rfl, rfl⟩ := h
      obtain ⟨stated, hrun, hstated⟩ := runs_assignHinted hcode line s
      refine ⟨stated, [], ?_, hstated, .nil, rfl, procedures_length_eq hrun rfl⟩
      simpa [State.gain, State.hint, State.emit, State.on, Stmt.outline] using hrun
  | branch line test body orelse =>
      simp only [lowerStmt, yields_bind, yields_return] at h
      obtain ⟨guard, t₁, hguard, yes, t₂, hyes, no, t₃, hno, joined, t₄, hjoined, returns, t₅,
        hreturns, rfl, rfl⟩ := h
      have hbody := follows_of_passes (lowers_lowerStmts body) (completes_lowerBodies body)
      have horelse := follows_of_passes (lowers_lowerStmts orelse) (completes_lowerBodies orelse)
      exact lowers_branch hbody horelse hguard hyes hno hjoined hreturns
  | whileLoop line test body orelse =>
      simp only [lowerStmt] at h
      split at h
      · simp only [yields_bind, yields_return] at h
        obtain ⟨guard, t₁, hguard, block, t₂, hblock, returns, t₃, hreturns, rfl, rfl⟩ := h
        have hbody := follows_of_passes (lowers_lowerStmts body) (completes_lowerBodies body)
        exact lowers_whileLoop hbody hguard hblock hreturns
      · exact absurd h yields_refuse
  | forLoop line target iter body orelse =>
      simp only [lowerStmt] at h
      split at h
      · split at h
        · simp only [yields_bind, yields_return] at h
          obtain ⟨block, t₁, hblock, rfl, rfl⟩ := h
          have hbody := follows_of_passes (lowers_lowerStmts body) (completes_lowerBodies body)
          exact lowers_countingLoop hbody hblock
        · exact absurd h yields_fail
      · exact absurd h yields_refuse
  | raise line cause =>
      cases cause with
      | none =>
          simp only [lowerStmt, yields_bind, yields_tell, yields_return] at h
          obtain ⟨_, t₁, rfl, rfl, rfl⟩ := h
          exact lowers_of_emit (by simpa [State.on] using .refl)
      | some cause => exact absurd h yields_refuse
  | expression line value =>
      simp only [lowerStmt, yields_bind, yields_return] at h
      obtain ⟨code, t₁, hcode, rfl, rfl⟩ := h
      exact lowers_of_emit (runs_lowerStandAlone hcode s)
  | other line kind =>
      simp only [lowerStmt, yields_bind, yields_return] at h
      obtain ⟨code, t₁, hcode, rfl, rfl⟩ := h
      exact lowers_of_emit (runs_lowerOther hcode s)

theorem lowers_lowerStmts (stmts : List Stmt) {s : State} {t : Table} {pass : FirstPass}
    (h : Yields (lowerStmts s.frame.block.returns stmts) s.table pass t) :
    Lowers s pass t (Stmt.hintsAll stmts)
      (Stmt.outlineAll s.frame.lineage s.table.procedures.length stmts) := by
  cases stmts with
  | nil =>
      simp only [lowerStmts, yields_pure] at h
      obtain ⟨rfl, rfl⟩ := h
      exact lowers_of_emit (by simpa [State.on] using .refl)
  | cons stmt rest =>
      simp only [lowerStmts, yields_bind, yields_tell, yields_return] at h
      obtain ⟨_, _, rfl, here, t₁, hhere, there, t₂, hthere, rfl, rfl⟩ := h
      have hfirst := lowers_lowerStmt stmt hhere
      have hnext := hfirst.procedures_length
      refine hfirst.append fun s' htable _ hreturns hlineage => ?_
      subst htable
      rw [← hreturns] at hthere
      have hrest := lowers_lowerStmts rest hthere
      rwa [hlineage, hnext] at hrest

theorem completes_lowerBodies (stmts : List Stmt) {s : State} {places : List (ProcId × String)}
    {t : Table} {u : Unit} (hnames : places.map Prod.snd = stmts.filterMap Stmt.functionName?)
    (h : Yields (lowerBodies stmts (places.map Prod.fst)) s.table u t) :
    Completes s places t
      (Stmt.outlineBodies s.frame.lineage stmts places s.table.procedures.length) := by
  cases stmts with
  | nil =>
      simp only [lowerBodies, yields_pure] at h
      obtain ⟨-, rfl⟩ := h
      obtain rfl := List.map_eq_nil_iff.mp hnames
      exact ⟨[], by simpa [State.finish] using .refl, .nil, rfl⟩
  | cons stmt rest =>
      cases stmt with
      | functionDef line name ps body decorators hint =>
          cases places with
          | nil => cases hnames
          | cons place others =>
              obtain ⟨p, declaredName⟩ := place
              obtain ⟨rfl, hothers⟩ := List.cons.inj hnames
              simp only [List.map_cons, lowerBodies, yields_bind] at h
              obtain ⟨_, t₁, hfunction, hrest⟩ := h
              obtain ⟨finished, hrun, hfinished, hlength⟩ := runs_lowerFunction
                (follows_of_passes (lowers_lowerStmts body) (completes_lowerBodies body))
                hfunction others
              obtain ⟨finished', hrun', hfinished', hlength'⟩ :=
                @completes_lowerBodies rest (s.finish t₁ finished) others _ _ hothers hrest
              have hsignatures : t₁.signatures = s.table.signatures := signatures_of_runs hrun
              replace hfinished' : List.Forall₂ (Frame.Realizes t₁.signatures) finished'
                (Stmt.outlineBodies s.frame.lineage rest others
                  t₁.procedures.length).regions := hfinished'
              replace hlength' : t.procedures.length = (Stmt.outlineBodies s.frame.lineage rest
                others t₁.procedures.length).next := hlength'
              rw [hlength] at hfinished' hlength'
              rw [hsignatures] at hfinished'
              refine ⟨finished ++ finished', ?_, ?_, hlength'⟩
              · have hall := hrun.trans hrun'
                simpa [State.finish] using hall
              · have hall := List.rel_append hfinished hfinished'
                simp only [List.append_assoc, List.singleton_append] at hall
                exact hall
      | _ => exact completes_lowerBodies rest hnames h

end

/-! ## Whole modules -/

def State.initial (signatures : SignatureTable) : State :=
  ⟨.empty signatures, .start none [] none, [], [], []⟩

structure State.Complete (s : State) (signatures : SignatureTable) (body : List Stmt) :
    Prop where
  outer : s.outer = []
  pending : s.pending = []
  around : s.frame.around = []
  operands : s.frame.operands = []
  realizes : List.Forall₂ (Frame.Realizes signatures) (s.frame :: s.finished) (regions body)
  procedures : s.table.procedures.length = (outline body).next

theorem runs_lowerBlock {signatures : SignatureTable} {body : List Stmt} {block : Block}
    (h : Yields (lowerBlock body) (Table.empty signatures) block t) :
    ∃ s, Runs (.initial signatures) s ∧ s.Complete signatures body ∧ s.table = t ∧
      s.frame.block.statements = block.statements := by
  have hfollows := follows_of_passes (lowers_lowerStmts body) (completes_lowerBodies body)
  obtain ⟨stated, finished, hrun, hstated, hfinished, -, hnext⟩ :=
    (hfollows (.initial signatures) block t h rfl).ofBlock
  refine ⟨_, hrun, ⟨rfl, rfl, rfl, rfl, ?_, hnext⟩, rfl, rfl⟩
  exact .cons ⟨rfl, rfl, rfl, rfl, hstated⟩ hfinished

end TypedPseudocode.Lowering
