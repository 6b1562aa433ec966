import TypedPseudocode.Proofs.Carrying
import TypedPseudocode.Proofs.Nodes

/-!
Omissions: statements that a tree may as well not have.

Some statements leave nothing behind: they take a step that tells of them, and no
other.  A call of `print` is one of them as long as nothing else goes by that name,
and nothing does if the tree never binds it, for only names that the tree binds are
ever in scope.  Two runs on trees that differ in such statements tell different
things, but they pass through the same tables and end alike.
-/

namespace TypedPseudocode

open Code TypedPseudocode.Tree

/-! ## Trees with statements left out -/

namespace Tree.Stmt

/-- Statements that leave nothing behind in a tree that binds these names. -/
inductive Ignored (bound : List String) : Stmt → Prop
  | pass (line : Nat) : Ignored bound (.other line .pass)
  | delete (line : Nat) : Ignored bound (.other line .delete)
  | importNames (line : Nat) : Ignored bound (.other line .importNames)
  | importFrom (line : Nat) : Ignored bound (.other line .importFrom)
  | assertion (line : Nat) : Ignored bound (.other line .assertion)
  | raise (line : Nat) : Ignored bound (.raise line none)
  | constant (line inner : Nat) (text : String) :
      Ignored bound (.expression line (.constant inner (.str text)))
  | str (line inner : Nat) (text : String) : Ignored bound (.expression line (.str inner text))
  | print (hbound : "print" ∉ bound) (line inner nameLine : Nat) (ctx : Context)
      (args : List Expr) (keywords : List Keyword) :
      Ignored bound (.expression line (.call inner (.name nameLine "print" ctx) args keywords))

mutual

/-- The second statement is the first, with ignored ones left out of the lists inside it. -/
inductive Thins (bound : List String) : Stmt → Stmt → Prop
  | simple {s : Stmt} (h : s.isSimple = true) : Thins bound s s
  | functionDef (line : Nat) (name : String) (ps : Parameters) {body body' : List Stmt}
      (decorators : List Expr) (hint : Option Expr) (hbody : ThinsAll bound body body') :
      Thins bound (.functionDef line name ps body decorators hint)
        (.functionDef line name ps body' decorators hint)
  | branch (line : Nat) (test : Expr) {body body' orelse orelse' : List Stmt}
      (hbody : ThinsAll bound body body') (horelse : ThinsAll bound orelse orelse') :
      Thins bound (.branch line test body orelse) (.branch line test body' orelse')
  | whileLoop (line : Nat) (test : Expr) {body body' orelse orelse' : List Stmt}
      (hbody : ThinsAll bound body body') (horelse : ThinsEach bound orelse orelse') :
      Thins bound (.whileLoop line test body orelse) (.whileLoop line test body' orelse')
  | forLoop (line : Nat) (target iter : Expr) {body body' orelse orelse' : List Stmt}
      (hbody : ThinsAll bound body body') (horelse : ThinsEach bound orelse orelse') :
      Thins bound (.forLoop line target iter body orelse)
        (.forLoop line target iter body' orelse')

inductive ThinsAll (bound : List String) : List Stmt → List Stmt → Prop
  | nil : ThinsAll bound [] []
  | keep {s s' : Stmt} {rest rest' : List Stmt} (hs : Thins bound s s')
      (hrest : ThinsAll bound rest rest') : ThinsAll bound (s :: rest) (s' :: rest')
  | drop {s : Stmt} {rest rest' : List Stmt} (hs : Ignored bound s)
      (hrest : ThinsAll bound rest rest') : ThinsAll bound (s :: rest) rest'

inductive ThinsEach (bound : List String) : List Stmt → List Stmt → Prop
  | nil : ThinsEach bound [] []
  | cons {s s' : Stmt} {rest rest' : List Stmt} (hs : Thins bound s s')
      (hrest : ThinsEach bound rest rest') : ThinsEach bound (s :: rest) (s' :: rest')

end

theorem ThinsEach.isEmpty_eq {bound : List String} {orelse orelse' : List Stmt}
    (h : ThinsEach bound orelse orelse') : orelse'.isEmpty = orelse.isEmpty := by
  cases h <;> rfl

theorem Ignored.isSimple {bound : List String} {s : Stmt} (h : Ignored bound s) :
    s.isSimple = true := by
  cases h <;> rfl

mutual

theorem follows_of_thins {bound : List String} (s : Stmt) {s' : Stmt} (h : Thins bound s s') :
    Follows .identity (Ignored bound) s s' := by
  have hexpr := Expr.recast_identity
  cases s with
  | functionDef line name ps body decorators hint =>
      cases h with
      | simple hsimple => cases hsimple
      | @functionDef _ _ _ _ body' _ _ hbody =>
          obtain ⟨-, -, hps, -, hdecorators, hhint⟩ := functionDef.inj
            (recast_identity (.functionDef line name ps body' decorators hint))
          have hfollows := Follows.functionDef (M := .identity) line name ps decorators hint
            (followsAll_of_thinsAll body hbody)
          rwa [hps, hdecorators, hhint] at hfollows
  | branch line test body orelse =>
      cases h with
      | simple hsimple => cases hsimple
      | branch _ _ hbody horelse =>
          have hfollows := Follows.branch (M := .identity) line test
            (followsAll_of_thinsAll body hbody) (followsAll_of_thinsAll orelse horelse)
          rwa [hexpr] at hfollows
  | whileLoop line test body orelse =>
      cases h with
      | simple hsimple => cases hsimple
      | whileLoop _ _ hbody horelse =>
          have hfollows := Follows.whileLoop (M := .identity) line test
            (followsAll_of_thinsAll body hbody) horelse.isEmpty_eq
          rwa [hexpr] at hfollows
  | forLoop line target iter body orelse =>
      cases h with
      | simple hsimple => cases hsimple
      | forLoop _ _ _ hbody horelse =>
          have hfollows := Follows.forLoop (M := .identity) line target iter
            (followsAll_of_thinsAll body hbody) horelse.isEmpty_eq
          rwa [hexpr, hexpr] at hfollows
  | _ =>
      cases h with
      | simple hsimple =>
          have hfollows : Follows .identity (Ignored bound) _ _ := .simple hsimple
          rwa [recast_identity] at hfollows

theorem followsAll_of_thinsAll {bound : List String} (ss : List Stmt) {ss' : List Stmt}
    (h : ThinsAll bound ss ss') : FollowsAll .identity (Ignored bound) ss ss' := by
  cases ss with
  | nil =>
      cases h
      exact .nil
  | cons s ss =>
      cases h with
      | keep hs hrest => exact .keep (follows_of_thins s hs) (followsAll_of_thinsAll ss hrest)
      | drop hs hrest => exact .drop hs hs.isSimple (followsAll_of_thinsAll ss hrest)

end

end Tree.Stmt

/-! ## Tables that bind no other names -/

def Table.BindsOnly (t : Table) (bound : List String) : Prop :=
  t.AllBound fun name _ => name ∈ bound

theorem Table.BindsOnly.lookup_eq_none {t : Table} {bound : List String} (h : t.BindsOnly bound)
    {name : String} (hname : name ∉ bound) (reach : Reach) : t.lookup name reach = none :=
  Option.eq_none_iff_forall_ne_some.mpr fun _ hlookup => hname (h.of_lookup hlookup)

namespace Lowering

variable {bound : List String}

/-! ## Statements that leave nothing behind -/

theorem lowerStmt_ignored {s : Stmt} (h : s.Ignored bound) (returns : Ty) {t : Table}
    (ht : t.BindsOnly bound) :
    ∃ events, lowerStmt returns s t = ⟨.ok ⟨⟨[], returns⟩, []⟩, t, events⟩ := by
  cases h with
  | pass | delete | importNames | importFrom | assertion => exact ⟨_, rfl⟩
  | raise => exact ⟨_, rfl⟩
  | constant | str => exact ⟨_, rfl⟩
  | print hbound line inner nameLine ctx args keywords =>
      have hdropped : droppedName? (.name nameLine "print" ctx) t = some "print" := by
        simp [droppedName?, Expr.identifier?, Builtin.isIgnored,
          ht.lookup_eq_none hbound .enclosing]
      have hlowered : lowerStandAlone line (.call inner (.name nameLine "print" ctx) args
          keywords) t = ⟨.ok [], t, [.droppedCall "print" line]⟩ := by
        have hgets : gets (droppedName? (.name nameLine "print" ctx)) t =
            ⟨.ok (some "print"), t, []⟩ := by
          simp only [gets, hdropped]
        simp only [lowerStandAlone]
        rw [bind_run_ok hgets]
        rfl
      refine ⟨[.droppedCall "print" line], ?_⟩
      simp only [lowerStmt]
      rw [bind_run_ok hlowered]
      rfl

theorem image_id : Image .identity (id : Table → Table) where
  lookup _ _ _ := rfl
  tyOf _ _ := rfl
  resultTy _ _ := rfl
  variableName _ _ _ := rfl
  displayName _ _ _ := rfl
  raise _ _ _ := rfl
  reach _ _ _ _ := rfl
  retype _ _ _ := rfl
  define _ _ _ _ := rfl
  declareVariable _ _ _ slot := by
    cases slot <;> rfl
  declareProcedure _ name _ := by
    cases name <;> rfl
  enter _ := rfl
  leave _ := rfl

theorem parallelRuns_ignored : ParallelRuns .identity true (· ∈ bound) (Stmt.Ignored bound)
    (Carries .identity (· ∈ bound) (id : Table → Table)) where
  toParallel := image_id.parallel
  skip {s} hs returns event _ _ next step' h := by
    intro t ht
    obtain ⟨events, hlowered⟩ := lowerStmt_ignored hs returns ht
    have htell : tell event t = ⟨.ok (), t, [event]⟩ := rfl
    obtain ⟨hresult, htable, hbound⟩ := h t ht
    rw [bind_run_ok htell, bind_run_ok hlowered]
    exact ⟨hresult, htable, hbound⟩

/--
Ignored statements are invisible.  Leave any of them out of a module, of the bodies of
its functions and loops and of its branches: a run ends as before, with the same
diagnostic or with the same declarations, called procedures and captured signatures.
-/
theorem ignored_statements_invisible {body body' : List Stmt}
    (h : Stmt.ThinsAll (Stmt.bindsDeepAll body) body body') (signatures : SignatureTable) :
    (run signatures (.module body')).result = (run signatures (.module body)).result := by
  have hmodule := parallelRuns_ignored.lowerModule (Stmt.followsAll_of_thinsAll body h)
    fun _ hname => hname
  have hstart : id (Table.empty signatures) = .start 0 signatures := rfl
  obtain ⟨htable, ⟨hrun, hrun'⟩ | ⟨d, d', hfails, hfails', hblames⟩⟩ := hmodule.endAlike hstart
  · rw [hrun, hrun', htable, id]
  · rw [hfails, hfails', hblames.eq]

theorem ignored_statements_invisible_print :
    let parameters : Parameters := ⟨[], [⟨"x", none, 1⟩], none, [], none, []⟩
    let shout := Stmt.expression 3 (.call 3 (.name 3 "print" .load) [.name 3 "missing" .load]
      [⟨some "end"⟩])
    let answer := Stmt.ret 4 (some (.name 4 "x" .load))
    let flag := Expr.nameConstant 5 (.bool true)
    ∃ lowered,
      (run OrderedMap.empty (.module [
          .functionDef 1 "f" parameters [.expression 2 (.str 2 "Identity."), shout, answer] [] none,
          .whileLoop 5 flag [.other 6 .pass] []])).result = .ok lowered ∧
        (run OrderedMap.empty (.module [.functionDef 1 "f" parameters [answer] [] none,
          .whileLoop 5 flag [] []])).result = .ok lowered := by
  intro parameters shout answer flag
  obtain ⟨lowered, hlowered⟩ : ∃ lowered, (run OrderedMap.empty (.module [
      .functionDef 1 "f" parameters [answer] [] none,
      .whileLoop 5 flag [] []])).result = .ok lowered := ⟨_, rfl⟩
  refine ⟨lowered, (ignored_statements_invisible ?_ OrderedMap.empty).symm.trans hlowered,
    hlowered⟩
  have hunbound : "print" ∉ ["f", "x"] := by decide
  refine .keep (.functionDef _ _ _ _ _ (.drop (.str _ _ _) (.drop ?_ ?_))) (.keep ?_ .nil)
  · exact .print hunbound _ _ _ _ _ _
  · exact .keep (.simple rfl) .nil
  · exact .whileLoop _ _ (.drop (.pass _) .nil) .nil

end Lowering

end TypedPseudocode
