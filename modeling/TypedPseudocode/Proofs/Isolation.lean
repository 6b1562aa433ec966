import TypedPseudocode.Document.Isolation
import TypedPseudocode.Proofs.Closed

/-!
Isolated documents.

A search looks into a procedure once, however often it becomes pending, so it
comes to an end, cycles of calls included.  What it has found by then is what the
procedure calls, directly or through others.  Only calls are followed: a variable
of the module, or of a function around an isolated one, is left behind unless its
procedure is called as well.
-/

namespace TypedPseudocode

open Code TypedPseudocode.Tree

/-! ## Calls in code -/

namespace Code

variable {D V P T : Type}

/-- A procedure is the target of a call: as a statement, or anywhere in an expression. -/
def Calls (code : List (Statement D V P T)) (p : P) : Prop :=
  ∃ s ∈ Statement.partsAll code,
    s.callee? = some p ∨ ∃ e ∈ Expression.partsAll s.operands, e.callee? = some p

theorem Expression.mem_callsAll_iff {es : List (Expression V P T)} {p : P} :
    p ∈ Expression.callsAll es ↔ ∃ e ∈ Expression.partsAll es, e.callee? = some p := by
  rw [Expression.callsAll_eq_gather, Expression.gather, List.mem_filterMap]

theorem calls_cons {s : Statement D V P T} {ss : List (Statement D V P T)} {p : P} :
    Calls (s :: ss) p ↔
      (s.callee? = some p ∨ p ∈ Expression.callsAll s.operands) ∨ Calls s.inner p ∨
        Calls ss p := by
  simp only [Calls, Statement.partsAll_cons, Expression.mem_callsAll_iff, List.mem_cons,
    List.mem_append, or_and_right, exists_or, exists_eq_left]

theorem calls_append {ss rs : List (Statement D V P T)} {p : P} :
    Calls (ss ++ rs) p ↔ Calls ss p ∨ Calls rs p := by
  simp only [Calls, Statement.partsAll_append, List.mem_append, or_and_right, exists_or]

theorem not_calls_nil {p : P} : ¬ Calls ([] : List (Statement D V P T)) p := by
  simp [Calls, Statement.partsAll]

mutual

theorem Statement.mem_calls_iff (s : Statement D V P T) {p : P} :
    p ∈ s.calls ↔ Calls [s] p := by
  have hinner : p ∈ Statement.callsAll s.inner ↔ Calls s.inner p := by
    cases s with
    | selection guard body alternative =>
        rw [Statement.inner, Statement.callsAll_append, List.mem_append, calls_append,
          Statement.mem_callsAll_iff body, Statement.mem_callsAll_iff alternative]
    | loop guard body => exact Statement.mem_callsAll_iff body
    | _ => simp [Statement.inner, Statement.callsAll, not_calls_nil]
  have hsplit := Statement.callsAll_cons s []
  simp only [Statement.callsAll, List.append_nil] at hsplit
  rw [hsplit, calls_cons]
  simp only [List.mem_append, Option.mem_toList, hinner, not_calls_nil, or_false]

theorem Statement.mem_callsAll_iff (ss : List (Statement D V P T)) {p : P} :
    p ∈ Statement.callsAll ss ↔ Calls ss p := by
  cases ss with
  | nil => simp [Statement.callsAll, not_calls_nil]
  | cons s ss =>
      rw [Statement.callsAll, List.mem_append, Statement.mem_calls_iff s,
        Statement.mem_callsAll_iff ss, ← calls_append, List.singleton_append]

end

end Code

namespace Document

/-! ## Searches -/

section Search

variable {ι : Type} {d : Document ι}

def Steps (d : Document ι) (p q : Procedure ι) : Prop := q ∈ d.procedures ∧ Calls p.body q.id

/-- A procedure leads to another one by any number of calls, none included. -/
def Reaches (d : Document ι) : Procedure ι → Procedure ι → Prop := Relation.ReflTransGen d.Steps

theorem Procedure.mem_calls_iff {p : Procedure ι} {id : ι} : id ∈ p.calls ↔ Calls p.body id :=
  Statement.mem_callsAll_iff p.body

theorem eq_of_id_eq (hdistinct : (d.procedures.map (·.id)).Nodup) {p q : Procedure ι}
    (hp : p ∈ d.procedures) (hq : q ∈ d.procedures) (h : p.id = q.id) : p = q :=
  List.inj_on_of_nodup_map hdistinct hp hq h

namespace Search

/-- What holds of a search from a root at any time. -/
structure Sound (root : {p // p ∈ d.procedures}) (s : Search d) : Prop where
  pending : ∀ p ∈ s.pending, d.Reaches root.val p.val
  reached : ∀ p ∈ d.procedures, p.id ∈ s.reached → d.Reaches root.val p
  begun : root.val.id ∈ s.reached ∨ root ∈ s.pending
  closed : ∀ p ∈ d.procedures, p.id ∈ s.reached → ∀ q : {q // q ∈ d.procedures},
    d.Steps p q.val → q.val.id ∈ s.reached ∨ q ∈ s.pending

theorem Sound.start (root : {p // p ∈ d.procedures}) : Sound root (start root) where
  pending p hp := by
    obtain rfl := List.mem_singleton.mp hp
    exact .refl
  reached p _ hp := nomatch hp
  begun := .inr (List.mem_singleton_self root)
  closed p _ hp := nomatch hp

variable [DecidableEq ι]

theorem mem_callees {p : Procedure ι} {q : {q // q ∈ d.procedures}} :
    q ∈ callees p ↔ d.Steps p q.val := by
  simp only [callees, Steps, List.mem_reverse, List.mem_filter, List.mem_attach,
    decide_eq_true_eq, Procedure.mem_calls_iff, q.property]

theorem Sound.step {root : {p // p ∈ d.procedures}} {s s' : Search d} (hs : Sound root s)
    (hdistinct : (d.procedures.map (·.id)).Nodup) (h : s.step? = some s') : Sound root s' := by
  unfold step? at h
  split at h
  · cases h
  · rename_i p pending hpending
    have hp : d.Reaches root.val p.val := hs.pending p (by simp [hpending])
    have hrest : ∀ q ∈ pending, d.Reaches root.val q.val :=
      fun q hq => hs.pending q (by simp [hpending, hq])
    have hbegun := hs.begun
    have hclosed := hs.closed
    rw [hpending] at hbegun hclosed
    split at h
    · -- The procedure has been looked into before, so nothing is lost with it.
      rename_i hold
      obtain rfl := Option.some.inj h
      have hdrop {q : {q // q ∈ d.procedures}} (hq : q.val.id ∈ s.reached ∨ q ∈ p :: pending) :
          q.val.id ∈ s.reached ∨ q ∈ pending := by
        rcases hq with hq | hq
        · exact .inl hq
        · rcases List.mem_cons.mp hq with rfl | hq
          · exact .inl hold
          · exact .inr hq
      exact ⟨hrest, hs.reached, hdrop hbegun, fun q hq hreached r hr =>
        hdrop (hclosed q hq hreached r hr)⟩
    · obtain rfl := Option.some.inj h
      have hmove {q : {q // q ∈ d.procedures}} (hq : q.val.id ∈ s.reached ∨ q ∈ p :: pending) :
          q.val.id ∈ p.val.id :: s.reached ∨ q ∈ callees p.val ++ pending := by
        rcases hq with hq | hq
        · exact .inl (List.mem_cons_of_mem _ hq)
        · rcases List.mem_cons.mp hq with rfl | hq
          · exact .inl List.mem_cons_self
          · exact .inr (List.mem_append_right _ hq)
      refine ⟨fun q hq => ?_, fun q hq hreached => ?_, hmove hbegun,
        fun q hq hreached r hr => ?_⟩
      · rcases List.mem_append.mp hq with hq | hq
        · exact hp.tail (mem_callees.mp hq)
        · exact hrest q hq
      · rcases List.mem_cons.mp hreached with hid | hreached
        · exact eq_of_id_eq hdistinct hq p.property hid ▸ hp
        · exact hs.reached q hq hreached
      · rcases List.mem_cons.mp hreached with hid | hreached
        · obtain rfl := eq_of_id_eq hdistinct hq p.property hid
          exact .inr (List.mem_append_left _ (mem_callees.mpr hr))
        · exact hmove (hclosed q hq hreached r hr)

theorem Sound.steps {root : {p // p ∈ d.procedures}} {s s' : Search d} (hs : Sound root s)
    (hdistinct : (d.procedures.map (·.id)).Nodup)
    (h : Relation.ReflTransGen (fun s s' => s.step? = some s') s s') : Sound root s' := by
  induction h with
  | refl => exact hs
  | tail _ step ih => exact ih.step hdistinct step

theorem exists_done (s : Search d) : ∃ s' : Search d,
    Relation.ReflTransGen (fun s s' => s.step? = some s') s s' ∧ s'.step? = none ∧
      s.run = s'.reached := by
  fun_induction run s with
  | case1 s h => exact ⟨s, .refl, h, rfl⟩
  | case2 s s' h ih =>
      obtain ⟨last, hsteps, hdone, hrun⟩ := ih
      exact ⟨last, hsteps.head h, hdone, hrun⟩

theorem pending_eq_nil {s : Search d} (h : s.step? = none) : s.pending = [] := by
  unfold step? at h
  split at h
  · assumption
  · split at h <;> cases h

theorem mem_run_iff (hdistinct : (d.procedures.map (·.id)).Nodup)
    (root : {p // p ∈ d.procedures}) {p : Procedure ι} (hp : p ∈ d.procedures) :
    p.id ∈ (start root).run ↔ d.Reaches root.val p := by
  obtain ⟨last, hsteps, hdone, hrun⟩ := exists_done (start root)
  have hs := (Sound.start root).steps hdistinct hsteps
  have hnone := pending_eq_nil hdone
  rw [hrun]
  refine ⟨hs.reached p hp, fun h => ?_⟩
  clear hp
  induction h with
  | refl => simpa [hnone] using hs.begun
  | @tail q r hreach hstep ih =>
      have hq : q ∈ d.procedures := by
        cases hreach with
        | refl => exact root.property
        | tail _ h => exact h.1
      simpa [hnone] using hs.closed q hq ih ⟨r, hstep.1⟩ hstep

theorem wellFounded_step? :
    WellFounded fun later earlier : Search d => earlier.step? = some later :=
  Subrelation.wf (fun h => step?_lt h)
    (InvImage.wf (fun s : Search d => (s.remaining, s.pending.length))
      (Prod.lex Nat.lt_wfRel Nat.lt_wfRel).wf)

end Search

end Search

/-! ## What is isolated -/

section Closure

variable {ι : Type} {d : Document ι} {name : String} {root : Procedure ι} {part : Document ι}

def IsFirst (d : Document ι) (name : String) (root : Procedure ι) : Prop :=
  ∃ before after, d.procedures = before ++ root :: after ∧ root.name = some name ∧
    ∀ p ∈ before, p.name ≠ some name

/-- The part of a document that a procedure leads to. -/
structure IsClosure (d : Document ι) (root : Procedure ι) (part : Document ι) : Prop where
  constants : part.constants = d.constants
  sublist : part.procedures.Sublist d.procedures
  mem_iff : ∀ p, p ∈ part.procedures ↔ p ∈ d.procedures ∧ d.Reaches root p

theorem find?_eq_some_iff :
    d.procedures.find? (·.name = some name) = some root ↔ d.IsFirst name root := by
  rw [List.find?_eq_some_iff_append]
  simp only [IsFirst, decide_eq_true_eq, Bool.not_eq_true', decide_eq_false_iff_not]
  constructor
  · rintro ⟨hname, before, after, hsplit, hbefore⟩
    exact ⟨before, after, hsplit, hname, hbefore⟩
  · rintro ⟨before, after, hsplit, hname, hbefore⟩
    exact ⟨hname, before, after, hsplit, hbefore⟩

theorem IsClosure.mem_of_calls (h : d.IsClosure root part) {p q : Procedure ι}
    (hp : p ∈ part.procedures) (hq : q ∈ d.procedures) (hcalls : Calls p.body q.id) :
    q ∈ part.procedures :=
  (h.mem_iff q).mpr ⟨hq, ((h.mem_iff p).mp hp).2.tail ⟨hq, hcalls⟩⟩

theorem IsClosure.reaches (h : d.IsClosure root part) {p : Procedure ι}
    (hp : p ∈ part.procedures) : part.Reaches root p := by
  obtain ⟨-, hreach⟩ := (h.mem_iff p).mp hp
  clear hp
  induction hreach with
  | refl => exact .refl
  | @tail q r hreach hstep ih =>
      exact ih.tail ⟨(h.mem_iff r).mpr ⟨hstep.1, hreach.tail hstep⟩, hstep.2⟩

theorem IsClosure.isFirst (h : d.IsClosure root part)
    (hdistinct : (d.procedures.map (·.id)).Nodup) (hfirst : d.IsFirst name root) :
    part.IsFirst name root := by
  obtain ⟨before, after, hsplit, hname, hbefore⟩ := hfirst
  have hroot : root ∈ part.procedures := (h.mem_iff root).mpr ⟨by simp [hsplit], .refl⟩
  have hnodup := hdistinct.of_map
  have hsublist := h.sublist
  rw [hsplit] at hnodup hsublist
  obtain ⟨kept, rest, hkept, hsub, hrest⟩ := List.sublist_append_iff.mp hsublist
  have hearlier : ∀ p ∈ kept, p.name ≠ some name := fun p hp => hbefore p (hsub.subset hp)
  rcases List.sublist_cons_iff.mp hrest with hlater | ⟨others, rfl, -⟩
  · -- The root would stand after itself.
    rw [hkept] at hroot
    rcases List.mem_append.mp hroot with hroot | hroot
    · exact absurd hname (hearlier root hroot)
    · exact absurd (hlater.subset hroot)
        (List.nodup_cons.mp (List.nodup_append.mp hnodup).2.1).1
  · exact ⟨kept, others, hkept, hname, hearlier⟩

theorem IsClosure.eq (h : d.IsClosure root part) (hdistinct : (d.procedures.map (·.id)).Nodup)
    (hall : ∀ p ∈ d.procedures, d.Reaches root p) : part = d := by
  have hprocedures : part.procedures = d.procedures := by
    refine h.sublist.eq_of_length_le ?_
    refine (List.subperm_of_subset hdistinct.of_map fun p hp => ?_).length_le
    exact (h.mem_iff p).mpr ⟨hp, hall p hp⟩
  obtain ⟨constants, procedures⟩ := part
  exact congrArg₂ Document.mk h.constants hprocedures

variable [DecidableEq ι]

theorem isolate?_eq_none_iff :
    d.isolate? name = none ↔ ∀ p ∈ d.procedures, p.name ≠ some name := by
  simp [isolate?]

theorem sublist_of_isolate? (h : d.isolate? name = some part) :
    part.constants = d.constants ∧ part.procedures.Sublist d.procedures := by
  obtain ⟨root, -, rfl⟩ := Option.map_eq_some_iff.mp h
  exact ⟨rfl, List.filter_sublist⟩

theorem isolate?_of_isFirst (h : d.IsFirst name root) :
    ∃ hroot : root ∈ d.procedures, d.isolate? name = some
      { d with procedures := d.procedures.filter (·.id ∈ (Search.start ⟨root, hroot⟩).run) } := by
  have hfind := find?_eq_some_iff.mpr h
  rw [← List.attach_map_subtype_val d.procedures, List.find?_map,
    Option.map_eq_some_iff] at hfind
  obtain ⟨⟨_, hroot⟩, hfind, rfl⟩ := hfind
  refine ⟨hroot, ?_⟩
  rw [isolate?, show (fun p : {p // p ∈ d.procedures} => decide (p.val.name = some name)) =
    (fun p : Procedure ι => decide (p.name = some name)) ∘ Subtype.val from rfl, hfind]
  rfl

theorem isClosure_of_isFirst (hdistinct : (d.procedures.map (·.id)).Nodup)
    (h : d.IsFirst name root) : ∃ part, d.isolate? name = some part ∧ d.IsClosure root part := by
  obtain ⟨hroot, hisolate⟩ := isolate?_of_isFirst h
  refine ⟨_, hisolate, rfl, List.filter_sublist, fun p => ?_⟩
  simp only [List.mem_filter, decide_eq_true_eq]
  exact and_congr_right fun hp => Search.mem_run_iff hdistinct ⟨root, hroot⟩ hp

/--
Isolation comes to an end, it fails only for a name that no procedure has, and it
keeps exactly what the first procedure of that name leads to by calls.  What is
kept calls nothing that was left out, and isolating it again changes nothing.
-/
theorem isolate?_isClosure (d : Document ι) (hdistinct : (d.procedures.map (·.id)).Nodup)
    (name : String) :
    WellFounded (fun later earlier : Search d => earlier.step? = some later) ∧
    (d.isolate? name = none ↔ ∀ p ∈ d.procedures, p.name ≠ some name) ∧
    ∀ root, d.IsFirst name root → ∃ part, d.isolate? name = some part ∧
      d.IsClosure root part ∧
      (∀ p ∈ part.procedures, ∀ q ∈ d.procedures, Calls p.body q.id → q ∈ part.procedures) ∧
      part.isolate? name = some part := by
  refine ⟨Search.wellFounded_step?, isolate?_eq_none_iff, fun root hfirst => ?_⟩
  obtain ⟨part, hisolate, hclosure⟩ := isClosure_of_isFirst hdistinct hfirst
  refine ⟨part, hisolate, hclosure, fun p hp q hq => hclosure.mem_of_calls hp hq, ?_⟩
  have hdistinct' := (hclosure.sublist.map (·.id)).nodup hdistinct
  obtain ⟨again, hagain, hclosure'⟩ :=
    isClosure_of_isFirst hdistinct' (hclosure.isFirst hdistinct hfirst)
  rw [hagain, hclosure'.eq hdistinct' fun p hp => hclosure.reaches hp]

end Closure

/--
Two procedures call each other, one of them inside an argument and the other one
inside a branch.  Two more procedures bear a name that stands before.
-/
def mutualCalls : Document Nat where
  constants := []
  procedures :=
    [⟨0, some "leaf", ⟨"void", false⟩, [], []⟩,
      ⟨1, some "ping", ⟨"int", false⟩, [],
        [.ret (some (.callBuiltin "abs" [.call 2 [] ⟨"int", false⟩] ⟨"int", false⟩))]⟩,
      ⟨2, some "pong", ⟨"int", false⟩, [],
        [.selection (.literal (.bool true) ⟨"boolean", false⟩) [.call 1 []] [], .ret none]⟩,
      ⟨3, some "leaf", ⟨"void", false⟩, [], [.call 0 []]⟩,
      ⟨4, some "ping", ⟨"void", false⟩, [], [.call 3 []]⟩]

theorem isolate?_isClosure_mutualCalls : (mutualCalls.procedures.map (·.id)).Nodup ∧
    ∃ root part, mutualCalls.IsFirst "ping" root ∧ mutualCalls.isolate? "ping" = some part ∧
      mutualCalls.IsClosure root part ∧ part.procedures.map (·.id) = [1, 2] ∧
      part.isolate? "ping" = some part := by
  have hdistinct : (mutualCalls.procedures.map (·.id)).Nodup := by decide
  have hfirst : mutualCalls.IsFirst "ping" _ := find?_eq_some_iff.mp rfl
  obtain ⟨part, hpart, hclosure, -, hagain⟩ :=
    (isolate?_isClosure mutualCalls hdistinct "ping").2.2 _ hfirst
  refine ⟨hdistinct, _, part, hfirst, hpart, hclosure, ?_, hagain⟩
  obtain ⟨hroot, hisolate⟩ := isolate?_of_isFirst hfirst
  have hrun : (Search.start ⟨_, hroot⟩).run = [2, 1] := by
    rw [Search.run_of_step? rfl, Search.run_of_step? rfl, Search.run_of_step? rfl,
      Search.run_of_done rfl]
    rfl
  rw [hisolate, hrun] at hpart
  obtain rfl := Option.some.inj hpart
  rfl

end Document

namespace Declarations

/-! ## Published procedures -/

variable (ds : Declarations) (ids : IdStream)

def published (p : Procedure) : Document.Procedure String := (ds.publishProcedure p).map ids

theorem procedures_publish :
    (ds.publish.map ids).procedures = ds.procedures.map (ds.published ids) := by
  simp [Document.map, publish, published, Function.comp_def]

theorem declarations_published (p : Procedure) : (ds.published ids p).declarations.map (·.id) =
    p.locals.map fun v => ids (ds.varAt v).id := by
  simp [published, Document.Procedure.declarations, Document.Procedure.map, publishProcedure,
    Document.Statement.map, publishBody, declared_mapAll, Procedure.locals, Function.comp_def,
    Document.Variable.map, publishVariable]

theorem assigned_published (p : Procedure) : assigned (ds.published ids p).body =
    (assigned p.body).map fun v => ids (ds.varAt v).id := by
  simp [published, Document.Procedure.map, publishProcedure, Document.Statement.map, publishBody,
    assigned_mapAll]

theorem referenced_published (p : Procedure) : referenced (ds.published ids p).body =
    (referenced p.body).map fun v => ids (ds.varAt v).id := by
  simp [published, Document.Procedure.map, publishProcedure, Document.Statement.map, publishBody,
    referenced_mapAll]

variable {ds}

theorem procAt_mem_of_locals {q : ProcId} {v : VarId} (h : v ∈ ds.locals q) :
    ds.procAt q ∈ ds.procedures := by
  rcases ds.procAt_mem_or q with hmem | ⟨hparameters, hbody⟩
  · exact hmem
  · simp [locals, Procedure.locals, hparameters, hbody] at h

end Declarations

namespace Lowering

/-! ## Variables of isolated documents -/

/--
Of the variables that an isolated procedure mentions, it declares itself the ones
that it assigns to.  Those that it refers to are declared in the isolated document,
or by the module or a function around it, if these have been left out.
-/
theorem isolated_references {signatures : SignatureTable} {body : List Stmt}
    {lowered : Lowered} (ids : IdStream)
    (h : (run signatures (.module body)).result = .ok lowered) {name : String}
    {part : Document String}
    (hpart : (lowered.declarations.publish.map ids).isolate? name = some part) :
    let ds := lowered.declarations
    let procedureOf := fun r : Region => ds.published ids (ds.procAt (r.procedure body))
    part.constants = [] ∧ ∀ p ∈ part.procedures, ∃ r ∈ regions body, p = procedureOf r ∧
      (∀ id ∈ assigned p.body, id ∈ p.declarations.map (·.id)) ∧
      ∀ id ∈ referenced p.body, id ∈ part.declarations.map (·.id) ∨
        ∃ g ∈ regions body, g.place ∈ r.enclosing ∧
          procedureOf g ∈ (ds.publish.map ids).procedures ∧ procedureOf g ∉ part.procedures ∧
          id ∈ (procedureOf g).declarations.map (·.id) := by
  intro ds procedureOf
  obtain ⟨s, hrun, hcomplete, hends⟩ := exists_run h
  obtain ⟨hconstants, hsublist⟩ := Document.sublist_of_isolate? hpart
  refine ⟨hconstants, fun p hp => ?_⟩
  have hmem := hsublist.subset hp
  rw [ds.procedures_publish] at hmem
  obtain ⟨procedure, hprocedure, rfl⟩ := List.mem_map.mp hmem
  obtain ⟨r, hr, rfl⟩ := exists_region_of_mem hrun hcomplete hends hprocedure
  have hscoped := wellScoped hrun hcomplete hends hr
  refine ⟨r, hr, rfl, fun id hid => ?_, fun id hid => ?_⟩
  · rw [ds.assigned_published] at hid
    rw [ds.declarations_published]
    obtain ⟨v, hv, rfl⟩ := List.mem_map.mp hid
    exact List.mem_map_of_mem (hscoped.assigned v hv)
  · rw [ds.referenced_published] at hid
    obtain ⟨v, hv, rfl⟩ := List.mem_map.mp hid
    obtain ⟨g, hg, hplace, hlocal⟩ := hscoped.referenced v hv
    have hdeclared : ids (ds.varAt v).id ∈ (procedureOf g).declarations.map (·.id) := by
      rw [ds.declarations_published]
      exact List.mem_map_of_mem hlocal
    by_cases hkept : procedureOf g ∈ part.procedures
    · left
      obtain ⟨declaration, hmem, hid⟩ := List.mem_map.mp hdeclared
      refine List.mem_map.mpr ⟨declaration, List.mem_append_right _ ?_, hid⟩
      exact List.mem_flatMap.mpr ⟨procedureOf g, hkept, hmem⟩
    · right
      refine ⟨g, hg, ?_, ?_, hkept, hdeclared⟩
      · rcases List.mem_cons.mp hplace with hsame | hplace
        · have hsame' : g.procedure body = r.procedure body := by
            rw [Region.procedure, Region.procedure, hsame]
          have hkept' : procedureOf g ∈ part.procedures := by
            simpa only [procedureOf, hsame'] using hp
          exact absurd hkept' hkept
        · exact hplace
      · rw [ds.procedures_publish]
        exact List.mem_map_of_mem (Declarations.procAt_mem_of_locals hlocal)

/--
```
x = 1
def f():
    return x
```
-/
def sharedModule : List Stmt :=
  [.assign 1 [.name 1 "x" .store] (.constant 1 (.int 1)),
    .functionDef 2 "f" ⟨[], [], none, [], none, []⟩ [.ret 3 (some (.name 3 "x" .load))] [] none]

def sharedFunction : Document.Procedure String :=
  ⟨"id1", some "f", ⟨"int", false⟩, [], [.ret (some (.read "id0" ⟨"int", false⟩))]⟩

def sharedDocument : Document String where
  constants := []
  procedures := [sharedFunction,
    ⟨"id2", none, ⟨"void", false⟩, [],
      [.declare ⟨"id0", "x", ⟨"int", false⟩⟩, .assign "id0" (.literal (.int 1) ⟨"int", false⟩)]⟩]

theorem sharedModule_lowered : ∃ lowered,
    (run OrderedMap.empty (.module sharedModule)).result = .ok lowered ∧
      lowered.declarations.publish.map (IdStream.sequential "id") = sharedDocument :=
  ⟨_, rfl, rfl⟩

theorem isolate?_sharedDocument :
    sharedDocument.isolate? "f" = some ⟨[], [sharedFunction]⟩ := by
  have hfirst : sharedDocument.IsFirst "f" sharedFunction := Document.find?_eq_some_iff.mp rfl
  obtain ⟨hroot, hisolate⟩ := Document.isolate?_of_isFirst hfirst
  rw [hisolate, Document.Search.run_of_step? rfl, Document.Search.run_of_done rfl]
  rfl

theorem isolated_references_sharedModule : ∃ lowered,
    (run OrderedMap.empty (.module sharedModule)).result = .ok lowered ∧
    (lowered.declarations.publish.map (IdStream.sequential "id")).isolate? "f" =
      some ⟨[], [sharedFunction]⟩ ∧
    ∃ r ∈ regions sharedModule, ∃ g ∈ regions sharedModule, g.place ∈ r.enclosing ∧
      "id0" ∈ referenced sharedFunction.body ∧ "id0" ∈ (lowered.declarations.published
        (IdStream.sequential "id")
        (lowered.declarations.procAt (g.procedure sharedModule))).declarations.map (·.id) := by
  obtain ⟨lowered, hrun, hdocument⟩ := sharedModule_lowered
  have hisolate := isolate?_sharedDocument
  rw [← hdocument] at hisolate
  obtain ⟨-, hparts⟩ := isolated_references (IdStream.sequential "id") hrun hisolate
  obtain ⟨r, hr, -, -, hreferenced⟩ := hparts sharedFunction List.mem_cons_self
  have hmem : "id0" ∈ referenced sharedFunction.body := by decide
  rcases hreferenced "id0" hmem with hinside | ⟨g, hg, hplace, -, -, hid⟩
  · exact absurd hinside (by decide)
  · exact ⟨lowered, hrun, hisolate, r, hr, g, hg, hplace, hmem, hid⟩

theorem isolated_without_declaration : ∃ lowered part,
    (run OrderedMap.empty (.module sharedModule)).result = .ok lowered ∧
    (lowered.declarations.publish.map (IdStream.sequential "id")).isolate? "f" = some part ∧
    ∃ p ∈ part.procedures, ∃ id ∈ referenced p.body, id ∉ part.declarations.map (·.id) := by
  obtain ⟨lowered, hrun, hdocument⟩ := sharedModule_lowered
  have hisolate := isolate?_sharedDocument
  rw [← hdocument] at hisolate
  exact ⟨lowered, _, hrun, hisolate, sharedFunction, List.mem_cons_self, "id0", by decide,
    by decide⟩

end Lowering

end TypedPseudocode
