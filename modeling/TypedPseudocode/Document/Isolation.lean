import TypedPseudocode.Document

/-!
Isolation: one procedure of a document together with everything that it calls,
directly or through others.

A procedure is called wherever its id is the target of a call, be it in a
statement or deep inside an expression.  What has to be kept is found by a search
that looks into one procedure after the other.  The isolated procedures stay as
they are and in the order of the document.
-/

namespace TypedPseudocode.Document

variable {ι : Type} [DecidableEq ι]

def Procedure.calls (p : Procedure ι) : List ι := Code.Statement.callsAll p.body

/-! ## The search -/

structure Search (d : Document ι) where
  reached : List ι
  pending : List {p // p ∈ d.procedures}

namespace Search

variable {d : Document ι}

def start (root : {p // p ∈ d.procedures}) : Search d := ⟨[], [root]⟩

def callees (p : Procedure ι) : List {q // q ∈ d.procedures} :=
  (d.procedures.attach.filter (·.val.id ∈ p.calls)).reverse

/--
Take the next procedure.  Unless it has been looked into before, everything that
it calls has to be looked into as well.
-/
def step? (s : Search d) : Option (Search d) :=
  match s.pending with
  | [] => none
  | p :: pending =>
      if p.val.id ∈ s.reached then some { s with pending }
      else some ⟨p.val.id :: s.reached, callees p.val ++ pending⟩

def remaining (s : Search d) : Nat := d.procedures.countP (·.id ∉ s.reached)

omit [DecidableEq ι] in
theorem countP_lt_countP {α : Type} {f g : α → Bool} (h : ∀ a, f a → g a) {as : List α} {a : α}
    (ha : a ∈ as) (hf : f a = false) (hg : g a) : as.countP f < as.countP g := by
  obtain ⟨before, after, rfl⟩ := List.append_of_mem ha
  have hbefore : before.countP f ≤ before.countP g := List.countP_mono_left fun b _ => h b
  have hafter : after.countP f ≤ after.countP g := List.countP_mono_left fun b _ => h b
  simp only [List.countP_append, List.countP_cons, hf, hg]
  simp
  omega

/-- Either a procedure is looked into for the first time, or less is pending. -/
theorem step?_lt {s s' : Search d} (h : s.step? = some s') :
    Prod.Lex (· < ·) (· < ·) (s'.remaining, s'.pending.length)
      (s.remaining, s.pending.length) := by
  unfold step? at h
  split at h
  · cases h
  · rename_i p pending hpending
    split at h
    · obtain rfl := Option.some.inj h
      rw [hpending]
      exact .right _ (Nat.lt_succ_self _)
    · rename_i hnew
      obtain rfl := Option.some.inj h
      have hfewer : ∀ q : Procedure ι, decide (q.id ∉ p.val.id :: s.reached) →
          decide (q.id ∉ s.reached) := by
        simp
      exact .left _ _ (countP_lt_countP hfewer p.property (by simp) (by simpa using hnew))

def run (s : Search d) : List ι :=
  match _ : s.step? with
  | none => s.reached
  | some s' => s'.run
termination_by (s.remaining, s.pending.length)
decreasing_by exact step?_lt ‹_›

theorem run_of_step? {s s' : Search d} (h : s.step? = some s') : s.run = s'.run := by
  rw [run]
  split
  · simp_all
  · simp_all

theorem run_of_done {s : Search d} (h : s.step? = none) : s.run = s.reached := by
  rw [run]
  split
  · rfl
  · simp_all

end Search

/-- The first procedure of that name with everything that it calls. -/
def isolate? (d : Document ι) (name : String) : Option (Document ι) :=
  (d.procedures.attach.find? (·.val.name = some name)).map fun root =>
    let reached := (Search.start root).run
    { d with procedures := d.procedures.filter (·.id ∈ reached) }

end TypedPseudocode.Document
