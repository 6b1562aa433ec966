import Mathlib.Data.List.Basic
import Mathlib.Data.List.Flatten
import TypedPseudocode.Proofs.Parts

/-!
Replacement: what is replaced in code is what the code mentions.

References are replaced one by one.  Two ways of replacing them that coincide on all
that a piece of code declares, names and calls make the same of it.
-/

namespace TypedPseudocode.Code

variable {D V P T D' V' P' T' : Type} {d d' : D → D'} {f f' : V → V'} {g g' : P → P'}
  (h : T → T')

theorem Expression.forall_reads_cons {φ : V → Prop} {e : Expression V P T}
    {es : List (Expression V P T)} : (∀ v ∈ Expression.reads (e :: es), φ v) ↔
      (∀ v ∈ Expression.reads [e], φ v) ∧ ∀ v ∈ Expression.reads es, φ v := by
  rw [← List.forall_mem_append]
  simp only [Expression.reads, ← Expression.gather_append, List.singleton_append]

theorem Expression.forall_reads_inner {φ : V → Prop} {e : Expression V P T}
    (h : ∀ v ∈ Expression.reads [e], φ v) : ∀ v ∈ Expression.reads e.inner, φ v := by
  intro v hv
  refine h v ?_
  rw [Expression.reads, Expression.gather_cons]
  exact List.mem_append_left _ (List.mem_append_right _ hv)

mutual

theorem Expression.map_congr (e : Expression V P T)
    (hf : ∀ v ∈ Expression.reads [e], f v = f' v) (hg : ∀ p ∈ e.calls, g p = g' p) :
    e.map f g h = e.map f' g' h := by
  have hinner := Expression.forall_reads_inner hf
  cases e with
  | read target ty => rw [Expression.map, Expression.map, hf target (List.mem_singleton_self _)]
  | readBuiltin name ty => rfl
  | call procedure arguments ty =>
      obtain ⟨hprocedure, harguments⟩ := List.forall_mem_cons.mp hg
      rw [Expression.map, Expression.map, hprocedure,
        Expression.mapAll_congr arguments hinner harguments]
  | callBuiltin name arguments ty =>
      rw [Expression.map, Expression.map, Expression.mapAll_congr arguments hinner hg]
  | arrayLength target => rw [Expression.map, Expression.map, Expression.map_congr target hinner hg]
  | arrayElement target index ty =>
      obtain ⟨htarget, hindex⟩ := Expression.forall_reads_cons.mp hinner
      obtain ⟨htarget', hindex'⟩ := List.forall_mem_append.mp hg
      rw [Expression.map, Expression.map, Expression.map_congr target htarget htarget',
        Expression.map_congr index hindex hindex']
  | literal value ty => rfl
  | aggregate elements ty =>
      rw [Expression.map, Expression.map, Expression.mapAll_congr elements hinner hg]
  | binary op left right ty =>
      obtain ⟨hleft, hright⟩ := Expression.forall_reads_cons.mp hinner
      obtain ⟨hleft', hright'⟩ := List.forall_mem_append.mp hg
      rw [Expression.map, Expression.map, Expression.map_congr left hleft hleft',
        Expression.map_congr right hright hright']
  | unary op operand ty =>
      rw [Expression.map, Expression.map, Expression.map_congr operand hinner hg]

theorem Expression.mapAll_congr (es : List (Expression V P T))
    (hf : ∀ v ∈ Expression.reads es, f v = f' v)
    (hg : ∀ p ∈ Expression.callsAll es, g p = g' p) :
    Expression.mapAll f g h es = Expression.mapAll f' g' h es := by
  cases es with
  | nil => rfl
  | cons e es =>
      obtain ⟨he, hes⟩ := Expression.forall_reads_cons.mp hf
      obtain ⟨he', hes'⟩ := List.forall_mem_append.mp hg
      rw [Expression.mapAll, Expression.mapAll, Expression.map_congr e he he',
        Expression.mapAll_congr es hes hes']

end

/-- Replacements that coincide on all that code declares, names and calls. -/
structure Coincide (d d' : D → D') (f f' : V → V') (g g' : P → P')
    (code : List (Statement D V P T)) : Prop where
  declared : ∀ x ∈ declared code, d x = d' x
  assigned : ∀ v ∈ assigned code, f v = f' v
  referenced : ∀ v ∈ referenced code, f v = f' v
  called : ∀ p ∈ Statement.callsAll code, g p = g' p

namespace Coincide

variable {ss rs : List (Statement D V P T)} {s : Statement D V P T}

theorem split (hsame : Coincide d d' f f' g g' (ss ++ rs)) :
    Coincide d d' f f' g g' ss ∧ Coincide d d' f f' g g' rs := by
  obtain ⟨hd, ha, hr, hc⟩ := hsame
  simp only [Code.declared, Code.assigned, Code.referenced, Statement.partsAll_append,
    List.filterMap_append, List.flatMap_append, Statement.callsAll_append,
    List.forall_mem_append] at hd ha hr hc
  exact ⟨⟨hd.1, ha.1, hr.1, hc.1⟩, ⟨hd.2, ha.2, hr.2, hc.2⟩⟩

theorem inner (hsame : Coincide d d' f f' g g' [s]) : Coincide d d' f f' g g' s.inner := by
  have hparts : (Statement.partsAll s.inner).Sublist (Statement.partsAll [s]) := by
    rw [Statement.partsAll_cons]
    exact (List.sublist_append_left _ _).cons _
  refine ⟨fun x hx => hsame.declared x ?_, fun v hv => hsame.assigned v ?_,
    fun v hv => hsame.referenced v ?_, fun p hp => hsame.called p ?_⟩
  · exact (hparts.filterMap _).subset hx
  · exact (hparts.filterMap _).subset hv
  · exact (hparts.flatMap _).subset hv
  · rw [Statement.callsAll_cons]
    exact List.mem_append_left _ (List.mem_append_right _ hp)

theorem operands (hsame : Coincide d d' f f' g g' [s]) :
    s.operands.map (Expression.map f g h) = s.operands.map (Expression.map f' g' h) := by
  rw [← Expression.mapAll_eq_map, ← Expression.mapAll_eq_map]
  refine Expression.mapAll_congr h _ (fun v hv => hsame.referenced v ?_) fun p hp =>
    hsame.called p ?_
  · refine List.mem_flatMap.mpr ⟨s, ?_, List.mem_append_right _ hv⟩
    rw [Statement.partsAll_cons]
    exact List.mem_cons_self
  · rw [Statement.callsAll_cons]
    simp [hp]

end Coincide

mutual

theorem Statement.map_congr (s : Statement D V P T) (hsame : Coincide d d' f f' g g' [s]) :
    s.map d f g h = s.map d' f' g' h := by
  have hinner := hsame.inner
  have hoperands := hsame.operands h
  cases s with
  | declare declaration =>
      rw [Statement.map, Statement.map, hsame.declared declaration (List.mem_singleton_self _)]
  | call procedure arguments =>
      simp only [Statement.map, Expression.mapAll_eq_map]
      exact congrArg₂ Statement.call (hsame.called procedure List.mem_cons_self) hoperands
  | callBuiltin name arguments =>
      simp only [Statement.map, Expression.mapAll_eq_map]
      exact congrArg (Statement.callBuiltin name) hoperands
  | ret value =>
      cases value with
      | none => rfl
      | some value => exact congrArg (fun e => Statement.ret (some e)) (List.cons.inj hoperands).1
  | assign target value =>
      exact congrArg₂ Statement.assign (hsame.assigned target (List.mem_singleton_self _))
        (List.cons.inj hoperands).1
  | assignElement target indexes value =>
      simp only [Statement.operands, List.map_append] at hoperands
      obtain ⟨hindexes, hvalue⟩ := List.append_inj hoperands (by simp)
      simp only [Statement.map, Expression.mapAll_eq_map]
      rw [hsame.referenced target List.mem_cons_self, hindexes, (List.cons.inj hvalue).1]
  | selection guard body alternative =>
      obtain ⟨hbody, halternative⟩ := hinner.split
      have hguard : guard.map f g h = guard.map f' g' h := (List.cons.inj hoperands).1
      rw [Statement.map, Statement.map, hguard, Statement.mapAll_congr body hbody,
        Statement.mapAll_congr alternative halternative]
  | loop guard body =>
      have hguard : guard.map f g h = guard.map f' g' h := (List.cons.inj hoperands).1
      rw [Statement.map, Statement.map, hguard, Statement.mapAll_congr body hinner]
  | breakLoop => rfl
  | continueLoop => rfl

theorem Statement.mapAll_congr (ss : List (Statement D V P T))
    (hsame : Coincide d d' f f' g g' ss) :
    Statement.mapAll d f g h ss = Statement.mapAll d' f' g' h ss := by
  cases ss with
  | nil => rfl
  | cons s ss =>
      obtain ⟨hhead, htail⟩ := Coincide.split (List.singleton_append ▸ hsame)
      rw [Statement.mapAll, Statement.mapAll, Statement.map_congr s hhead,
        Statement.mapAll_congr ss htail]

end

end TypedPseudocode.Code
