import TypedPseudocode.Builtin
import TypedPseudocode.Proofs.Parts
import TypedPseudocode.Table

/-!
Regions: where the names of a module are bound.

The module itself is a region and so is every function in it, at any depth.
The outline of a module lists them, each with the procedure that it becomes and
with the regions around it, and it is found without lowering anything: only the
order in which functions are declared matters.
-/

namespace TypedPseudocode.Tree

open Code

structure Region where
  place : Option ProcId
  /-- The places of the regions around it, from the inside out. -/
  enclosing : List (Option ProcId)
  name : Option String
  parameters : List Parameter
  body : List Stmt

/-- The places from which a region can be seen into: its own and those around it. -/
def Region.lineage (r : Region) : List (Option ProcId) := r.place :: r.enclosing

def Region.module (body : List Stmt) : Region := ⟨none, [], none, [], body⟩

/-! ## Outlines -/

/-- What is known of the functions in some statements before their bodies are lowered. -/
structure Outline where
  regions : List Region
  places : List (ProcId × String)
  next : Nat

def Outline.twice (first : Outline) (second : List (ProcId × String) → Nat → Outline) :
    Outline :=
  ⟨first.regions ++ (second first.places first.next).regions, [],
    (second first.places first.next).next⟩

def Outline.append (here there : Outline) : Outline :=
  ⟨here.regions ++ there.regions, here.places ++ there.places, there.next⟩

mutual

def Stmt.outline (around : List (Option ProcId)) (next : Nat) : Stmt → Outline
  | .functionDef _ name _ _ _ _ => ⟨[], [(⟨next⟩, name)], next + 1⟩
  | .branch _ _ body orelse =>
      let yes := (Stmt.outlineAll around next body).twice (Stmt.outlineBodies around body)
      let no := (Stmt.outlineAll around yes.next orelse).twice (Stmt.outlineBodies around orelse)
      yes.append no
  | .whileLoop _ _ body _ | .forLoop _ _ _ body _ =>
      (Stmt.outlineAll around next body).twice (Stmt.outlineBodies around body)
  | _ => ⟨[], [], next⟩

def Stmt.outlineAll (around : List (Option ProcId)) (next : Nat) : List Stmt → Outline
  | [] => ⟨[], [], next⟩
  | s :: rest =>
      let here := s.outline around next
      here.append (Stmt.outlineAll around here.next rest)

def Stmt.outlineBodies (around : List (Option ProcId)) :
    List Stmt → List (ProcId × String) → Nat → Outline
  | .functionDef _ name ps body _ _ :: rest, (p, _) :: places, next =>
      let inner := (Stmt.outlineAll (some p :: around) next body).twice
        (Stmt.outlineBodies (some p :: around) body)
      let others := Stmt.outlineBodies around rest places inner.next
      ⟨inner.regions ++ ⟨some p, around, some name, ps.positional, body⟩ :: others.regions, [],
        others.next⟩
  | _ :: rest, places, next => Stmt.outlineBodies around rest places next
  | [], _, next => ⟨[], [], next⟩

end

def Stmt.functionName? : Stmt → Option String
  | .functionDef _ name _ _ _ _ => some name
  | _ => none

theorem Stmt.names_outlineAll (around : List (Option ProcId)) (next : Nat) (ss : List Stmt) :
    (Stmt.outlineAll around next ss).places.map Prod.snd =
      ss.filterMap Stmt.functionName? := by
  induction ss generalizing next with
  | nil => rfl
  | cons s ss ih =>
      have hone : (s.outline around next).places.map Prod.snd =
          s.functionName?.toList := by
        cases s <;> rfl
      rw [Stmt.outlineAll, Outline.append, List.map_append, ih, hone, List.filterMap_cons]
      cases s.functionName? <;> rfl

def outline (body : List Stmt) : Outline :=
  (Stmt.outlineAll [none] 0 body).twice (Stmt.outlineBodies [none] body)

def regions (body : List Stmt) : List Region := .module body :: (outline body).regions

def entryPlace (body : List Stmt) : ProcId := ⟨(outline body).next⟩

/-- The procedure that a region becomes. -/
def Region.procedure (r : Region) (body : List Stmt) : ProcId := r.place.getD (entryPlace body)

/-! ## Stated types -/

mutual

/--
The types that a statement states for names: the type hints of assignments, and
`int` for what counts a loop.  Functions inside it are regions of their own.
-/
def Stmt.hints : Stmt → List (String × Ty)
  | .annAssign _ target typeHint _ =>
      match target.identifier?, Builtin.hintTy typeHint with
      | some name, .ok ty => [(name, ty)]
      | _, _ => []
  | .forLoop _ target _ body _ =>
      (target.identifier?.map fun name => (name, Ty.int)).toList ++ Stmt.hintsAll body
  | .whileLoop _ _ body _ => Stmt.hintsAll body
  | .branch _ _ body orelse => Stmt.hintsAll body ++ Stmt.hintsAll orelse
  | _ => []

def Stmt.hintsAll : List Stmt → List (String × Ty)
  | [] => []
  | s :: rest => s.hints ++ Stmt.hintsAll rest

end

/--
The type that a parameter starts with: that of its hint, else what the supplied
signature of its function says, else nothing.
-/
def Parameter.seed (signatures : SignatureTable) (owner : String) (position : Nat)
    (p : Parameter) : Ty :=
  match p.typeHint with
  | some hint => (Builtin.hintTy hint).toOption.getD .unknown
  | none => ((signatures.get? owner).bind (·.argumentTy? p.name position)).getD .unknown

def Parameter.seeds (signatures : SignatureTable) (owner : String) :
    Nat → List Parameter → List (String × Ty)
  | _, [] => []
  | position, p :: ps =>
      (p.name, p.seed signatures owner position) ::
        Parameter.seeds signatures owner (position + 1) ps

theorem Parameter.map_fst_seeds (signatures : SignatureTable) (owner : String) (position : Nat)
    (ps : List Parameter) :
    (Parameter.seeds signatures owner position ps).map Prod.fst = ps.map (·.name) := by
  induction ps generalizing position with
  | nil => rfl
  | cons p ps ih => simp [Parameter.seeds, ih]

theorem Parameter.getElem?_seeds (signatures : SignatureTable) (owner : String)
    (position i : Nat) (ps : List Parameter) :
    (Parameter.seeds signatures owner position ps)[i]? =
      ps[i]?.map fun p => (p.name, p.seed signatures owner (position + i)) := by
  induction ps generalizing position i with
  | nil => rfl
  | cons p ps ih =>
      cases i with
      | zero => rfl
      | succ i =>
          rw [Parameter.seeds, List.getElem?_cons_succ, List.getElem?_cons_succ, ih,
            Nat.add_right_comm, Nat.add_assoc]

def Region.seeds (signatures : SignatureTable) (r : Region) : List (String × Ty) :=
  Parameter.seeds signatures (r.name.getD "") 0 r.parameters

/-! ## A module with a function in a function -/

/--
```
def outer(a):
    b = []
    def inner(c: int):
        b.append(c)
        return a
    return inner(a)
for i in range(3):
    outer(i)
```
-/
def nestedModule : List Stmt :=
  [.functionDef 1 "outer" ⟨[], [⟨"a", none, 1⟩], none, [], none, []⟩
    [.assign 2 [.name 2 "b" .store] (.list 2 [] .load),
      .functionDef 3 "inner" ⟨[], [⟨"c", some (.name 3 "int" .load), 3⟩], none, [], none, []⟩
        [.expression 4 (.call 4 (.attribute 4 (.name 4 "b" .load) "append" .load)
            [.name 4 "c" .load] []),
          .ret 5 (some (.name 5 "a" .load))] [] none,
      .ret 6 (some (.call 6 (.name 6 "inner" .load) [.name 6 "a" .load] []))] [] none,
    .forLoop 7 (.name 7 "i" .store)
      (.call 7 (.name 7 "range" .load) [.constant 7 (.int 3)] [])
      [.expression 8 (.call 8 (.name 8 "outer" .load) [.name 8 "i" .load] [])] []]

def outerSignature : SignatureTable :=
  OrderedMap.empty.insert "outer" ⟨.int, [⟨some "a", .int⟩]⟩

end TypedPseudocode.Tree
