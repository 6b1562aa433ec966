import TypedPseudocode.Proofs.Recasting

/-!
Correspondence: why a tree that is recast is refused.

A fault names things of the tree, and a diagnostic has a line of it.  On a tree that is
recast the fault is of the same kind, the same if no word has changed, and the line is
the one that takes the place of the former.  Type hints are read without a symbol table:
they stand for the same types, or are refused for reasons that correspond.
-/

namespace TypedPseudocode

open Code TypedPseudocode.Tree

namespace Recasting

variable (M : Recasting) {α β : Type}

/-! ## Reasons that correspond -/

structure Words (fault fault' : Fault) : Prop where
  kind : fault'.kind = fault.kind
  same : M.KeepsWords → fault' = fault

theorem Words.refl (fault : Fault) : M.Words fault fault := ⟨rfl, fun _ => rfl⟩

theorem words_name (fault : String → Fault) (name : String)
    (hkind : (fault (M.names name)).kind = (fault name).kind) :
    M.Words (fault name) (fault (M.names name)) :=
  ⟨hkind, fun h => by rw [h.names]⟩

theorem words_label (fault : String → Fault) (e : Expr)
    (hkind : (fault (e.recast M).label).kind = (fault e.label).kind) :
    M.Words (fault e.label) (fault (e.recast M).label) :=
  ⟨hkind, fun h => by rw [Expr.label_recast h]⟩

structure Blames (d d' : Diagnostic) : Prop where
  words : M.Words d.fault d'.fault
  line : d'.line = M.lines d.line

theorem Blames.eq {d d' : Diagnostic} (h : Recasting.identity.Blames d d') : d' = d :=
  congrArg₂ Diagnostic.mk (h.words.same keepsWords_identity) h.line

/-- Values that are related, or errors that correspond. -/
def Tallies (R : α → α → Prop) : Except Diagnostic α → Except Diagnostic α → Prop
  | .ok a, .ok a' => R a a'
  | .error d, .error d' => M.Blames d d'
  | _, _ => False

variable {M}

theorem Tallies.map {R : α → α → Prop} {S : β → β → Prop} {result result' : Except Diagnostic α}
    (h : M.Tallies R result result') {f f' : α → β} (hf : ∀ a a', R a a' → S (f a) (f' a')) :
    M.Tallies S (result.map f) (result'.map f') := by
  cases result <;> cases result'
  · exact h
  · exact h
  · exact h
  · exact hf _ _ h

theorem tallies_conflict {R : α → α → Prop} (hR : ∀ a, R a a) (result : Except Ty.Conflict α)
    (site : Site) (line : Nat) :
    M.Tallies R (result.mapError (Diagnostic.conflict site · line))
      (result.mapError (Diagnostic.conflict site · (M.lines line))) := by
  cases result with
  | error types => exact ⟨.refl M _, rfl⟩
  | ok a => exact hR a

end Recasting

/-! ## Type hints -/

namespace Builtin

variable {M : Recasting}

theorem hintTy_subscript (line : Nat) (value key : Expr) (ctx : Context) :
    hintTy (.subscript line value key ctx) =
      if isListName value then (hintTy key.unwrapped).map .array
      else .error (.unsupported (.typeHintKind "Subscript") line) := by
  cases key <;> simp only [hintTy, Expr.unwrapped] <;> rfl

theorem isListName_recast (e : Expr) : isListName (e.recast M) = isListName e := by
  have hlist (known : String) (h : isProvided known = true) :
      (e.recast M).identifier? = some known ↔ e.identifier? = some known := by
    rw [Expr.identifier?_recast]
    cases e.identifier? with
    | none => simp
    | some name => simp [M.names.eq_provided_iff h]
  simp only [isListName, hlist "list" (by decide), hlist "List" (by decide)]

theorem hintTy_of_isNull {e : Expr} (h : e.isNull = true) : hintTy e = .ok .void := by
  cases e with
  | constant line value | nameConstant line value =>
      obtain rfl : value = .null := of_decide_eq_true h
      rfl
  | _ => cases h

theorem hintTy_of_kind {e : Expr} (hname : e.kind ≠ .name) (hsubscript : e.kind ≠ .subscript)
    (hnull : e.isNull = false) :
    hintTy e = .error (.unsupported (.typeHintKind e.label) e.line) := by
  cases e with
  | name => exact absurd rfl hname
  | subscript => exact absurd rfl hsubscript
  | constant line value | nameConstant line value =>
      cases value with
      | null => cases hnull
      | _ => rfl
  | _ => rfl

theorem tallies_hintTy_of_kind {e : Expr} (hname : e.kind ≠ .name)
    (hsubscript : e.kind ≠ .subscript) : M.Tallies Eq (hintTy e) (hintTy (e.recast M)) := by
  cases hnull : e.isNull with
  | true =>
      rw [hintTy_of_isNull hnull, hintTy_of_isNull ((e.isNull_recast M).trans hnull)]
      exact rfl
  | false =>
      rw [hintTy_of_kind hname hsubscript hnull,
        hintTy_of_kind (Expr.kind_recast_ne M hname (by decide))
          (Expr.kind_recast_ne M hsubscript (by decide)) ((e.isNull_recast M).trans hnull)]
      exact ⟨M.words_label (fun label => .unsupported (.typeHintKind label)) e rfl,
        e.line_recast M⟩

theorem tallies_hintTy (e : Expr) : M.Tallies Eq (hintTy e) (hintTy (e.recast M)) := by
  cases e with
  | name line id ctx =>
      simp only [Expr.recast, hintTy, M.names.hintNameTy?_eq]
      cases hintNameTy? id with
      | some ty => exact rfl
      | none => exact ⟨M.words_name (fun id => .unsupported (.typeHint id)) id rfl, rfl⟩
  | subscript line value key ctx =>
      have hrec := tallies_hintTy key.unwrapped
      simp only [Expr.recast, hintTy_subscript, isListName_recast, Expr.unwrapped_unwrap,
        Expr.unwrapped_recast]
      split
      · exact hrec.map fun _ _ => congrArg Ty.array
      · exact ⟨.refl M _, rfl⟩
  | _ => exact tallies_hintTy_of_kind (by simp [Expr.kind]) (by simp [Expr.kind])
termination_by sizeOf e
decreasing_by
  have hsize := key.sizeOf_unwrapped_le
  simp only [Expr.subscript.sizeOf_spec]
  omega

theorem tallies_hintTy? (e : Option Expr) :
    M.Tallies Eq (hintTy? e) (hintTy? (Expr.recast? M e)) := by
  cases e with
  | none => exact rfl
  | some e => exact (tallies_hintTy e).map fun _ _ => congrArg some

end Builtin

end TypedPseudocode
