import TypedPseudocode.Proofs.Carrying
import TypedPseudocode.Proofs.Closed
import TypedPseudocode.Proofs.Nodes
import TypedPseudocode.Proofs.Replacement
import TypedPseudocode.Translation

/-!
Simulation: whatever source ids are drawn from, a run is one that counts its draws.

An id is drawn where a declaration is made and stays in the table until it is published.
Nothing on the way looks at it.  Hence a table that holds the ids of a source is a table
that holds the numbers of the draws, with each number replaced by the id that the source
gave on that draw, and a step does to the one what it does to the other.
-/

namespace TypedPseudocode

open Code TypedPseudocode.Tree

/-! ## Sources seen as streams -/

namespace IdSource

variable {σ ι : Type} [IdSource σ ι]

/-- What is left of a source after so many draws. -/
def after (source : σ) : Nat → σ
  | 0 => source
  | count + 1 => (fresh (after source count)).2

/-- The id of each draw. -/
def stream (source : σ) (draw : Nat) : ι := (fresh (after source draw)).1

theorem fresh_after (source : σ) (count : Nat) :
    fresh (after source count) = (stream source count, after source (count + 1)) := rfl

theorem after_ids (ids : IdStream) (count : Nat) :
    after ids count = fun n => ids (n + count) := by
  induction count with
  | zero => rfl
  | succ count ih =>
      rw [after, ih]
      funext n
      exact congrArg ids (by omega)

theorem stream_ids (ids : IdStream) : stream ids = ids := by
  funext draw
  rw [stream, after_ids]
  exact congrArg ids (Nat.zero_add draw)

end IdSource

/-! ## Tables that draw from a source -/

section Definitions

variable {ι κ : Type} (f : ι → κ)

def Variable.mapId (v : Variable ι) : Variable κ := ⟨f v.id, v.name⟩

def Procedure.mapId (p : Procedure ι) : Procedure κ where
  id := f p.id
  name := p.name
  ty := p.ty
  parameters := p.parameters
  body := p.body
  called := p.called

def Declarations.mapIds (ds : Declarations ι) : Declarations κ where
  procedures := ds.procedures.map (Procedure.mapId f)
  vars := ds.vars.map (Variable.mapId f)
  types := ds.types

end Definitions

/-- The table that has drawn from a source as often as another has counted. -/
def Table.drawing {σ ι : Type} [IdSource σ ι] (source : σ) (t : Table) : Table σ ι where
  toDeclarations := t.toDeclarations.mapIds (IdSource.stream source)
  source := IdSource.after source t.source
  scope := t.scope
  outer := t.outer
  signatures := t.signatures
  captured := t.captured

namespace Declarations

variable {ι κ : Type} [Inhabited ι] [Inhabited κ] (f : ι → κ) (ds : Declarations ι)

theorem name_varAt_mapIds (v : VarId) : ((ds.mapIds f).varAt v).name = (ds.varAt v).name := by
  simp only [varAt, mapIds, List.getElem?_map]
  cases ds.vars[v.index]? <;> rfl

theorem ty_procAt_mapIds (p : ProcId) : ((ds.mapIds f).procAt p).ty = (ds.procAt p).ty := by
  simp only [procAt, mapIds, List.getElem?_map]
  cases ds.procedures[p.index]? <;> rfl

theorem displayName_procAt_mapIds (p : ProcId) :
    ((ds.mapIds f).procAt p).displayName = (ds.procAt p).displayName := by
  simp only [procAt, mapIds, List.getElem?_map]
  cases ds.procedures[p.index]? <;> rfl

theorem id_varAt_mapIds {v : VarId} (h : v.index < ds.vars.length) :
    ((ds.mapIds f).varAt v).id = f (ds.varAt v).id := by
  simp [varAt, mapIds, List.getElem?_eq_getElem h, Variable.mapId]

theorem id_procAt_mapIds {p : ProcId} (h : p.index < ds.procedures.length) :
    ((ds.mapIds f).procAt p).id = f (ds.procAt p).id := by
  simp [procAt, mapIds, List.getElem?_eq_getElem h, Procedure.mapId]

end Declarations

namespace Table

variable {σ ι : Type} [IdSource σ ι] (source : σ) (t : Table)

theorem updateProcedure_drawing (p : ProcId) {f : Procedure → Procedure}
    {f' : Procedure ι → Procedure ι}
    (hf : ∀ q, f' (q.mapId (IdSource.stream source)) = (f q).mapId (IdSource.stream source)) :
    (t.drawing source).updateProcedure p f' = (t.updateProcedure p f).drawing source := by
  simp only [updateProcedure, drawing, Declarations.mapIds, modify_map hf]

theorem declareVariable_drawing (name : String) (stated : Option Ty) (slot : Option Slot) :
    (t.drawing source).declareVariable name stated slot =
      ((t.declareVariable name stated slot).1,
        (t.declareVariable name stated slot).2.drawing source) := by
  simp [declareVariable, drawing, Declarations.mapIds, Variable.mapId, IdSource.fresh_after, bind,
    variableSeed]

theorem declareProcedure_drawing (name : Option String) (stated : Option Ty) :
    (t.drawing source).declareProcedure name stated =
      ((t.declareProcedure name stated).1, (t.declareProcedure name stated).2.drawing source) := by
  cases name <;> simp [declareProcedure, drawing, Declarations.mapIds, Procedure.mapId,
    IdSource.fresh_after, bind, resultSeed]

theorem leave_drawing : (t.drawing source).leave = t.leave.drawing source := by
  rcases h : t.outer with _ | ⟨scope, outer⟩ <;> simp [leave, drawing, h]

theorem called_drawing : (t.drawing source).called = t.called := by
  simp only [called, drawing, Declarations.mapIds, List.filter_map, List.filterMap_map]
  rfl

variable [Inhabited ι]

theorem capture_drawing (name : String) (p : ProcId) (arguments : List Ty) :
    (t.drawing source).capture name p arguments =
      (t.capture name p arguments).drawing source := by
  have hty : ((t.drawing source).procAt p).ty = (t.procAt p).ty :=
    t.toDeclarations.ty_procAt_mapIds _ p
  have hnews : (t.drawing source).isNews name = t.isNews name := rfl
  unfold capture
  rw [hty, hnews]
  split <;> rfl

theorem reach_drawing (name : String) (p : ProcId) (arguments : List Ty) :
    (t.drawing source).reach name p arguments = (t.reach name p arguments).drawing source := by
  have hcalled : (t.drawing source).updateProcedure p ({ · with called := true }) =
      (t.updateProcedure p ({ · with called := true })).drawing source :=
    t.updateProcedure_drawing source p fun _ => rfl
  unfold reach
  rw [hcalled, capture_drawing]

end Table

namespace Lowering

variable {σ ι : Type} [Inhabited ι] [IdSource σ ι]

theorem image_drawing (source : σ) : Image .identity (Table.drawing source) where
  lookup _ _ _ := rfl
  tyOf _ _ := rfl
  resultTy t := t.toDeclarations.ty_procAt_mapIds _
  variableName _ t := t.toDeclarations.name_varAt_mapIds _
  displayName _ t := t.toDeclarations.displayName_procAt_mapIds _
  raise _ _ _ := rfl
  reach t := t.reach_drawing source
  retype t p _ := t.updateProcedure_drawing source p fun _ => rfl
  define t p _ _ := t.updateProcedure_drawing source p fun _ => rfl
  declareVariable t name stated slot := by
    cases slot <;> exact t.declareVariable_drawing source name stated _
  declareProcedure t name stated := by
    cases name <;> exact t.declareProcedure_drawing source _ stated
  enter _ := rfl
  leave t := t.leave_drawing source

end Lowering

/-! ## Publication -/

namespace Declarations

variable {ι κ : Type} [Inhabited ι] [Inhabited κ] (f : ι → κ) (ds : Declarations ι)

theorem publishProcedure_mapIds {p : Procedure ι} (h : ds.InRange p) :
    (ds.mapIds f).publishProcedure (p.mapId f) = (ds.publishProcedure p).map f := by
  have hvariable {v : VarId} (hv : v.index < ds.vars.length) :
      (ds.mapIds f).publishVariable v = (ds.publishVariable v).map f :=
    congrArg₂ (Document.Variable.mk · · _) (ds.id_varAt_mapIds f hv) (ds.name_varAt_mapIds f v)
  have hparameters : p.parameters.map (ds.mapIds f).publishVariable =
      (p.parameters.map ds.publishVariable).map (Document.Variable.map f) := by
    rw [List.map_map]
    exact List.map_congr_left fun v hv => hvariable (h.locals v (List.mem_append_left _ hv))
  have hbody : (ds.mapIds f).publishBody p.body =
      Document.Statement.map f (ds.publishBody p.body) := by
    simp only [publishBody, Document.Statement.map, Statement.mapAll_mapAll]
    refine Statement.mapAll_congr _ _ ⟨fun v hv => ?_, fun v hv => ?_, fun v hv => ?_,
      fun q hq => ?_⟩
    · exact hvariable (h.locals v (List.mem_append_right _ hv))
    · exact ds.id_varAt_mapIds f (h.assigned v hv)
    · exact ds.id_varAt_mapIds f (h.referenced v hv)
    · exact ds.id_procAt_mapIds f (h.called q hq)
  simp only [publishProcedure, Document.Procedure.map, Procedure.mapId, hparameters, hbody]

theorem publish_mapIds (h : ∀ p ∈ ds.procedures, ds.InRange p) :
    (ds.mapIds f).publish = ds.publish.map f := by
  have hprocedures : (ds.mapIds f).procedures.map (ds.mapIds f).publishProcedure =
      (ds.procedures.map ds.publishProcedure).map (Document.Procedure.map f) := by
    simp only [mapIds, List.map_map]
    exact List.map_congr_left fun p hp => ds.publishProcedure_mapIds f (h p hp)
  simp only [publish, hprocedures]
  rfl

end Declarations

/-! ## Runs -/

namespace Lowering

variable {σ ι : Type} [Inhabited ι] [IdSource σ ι]

theorem endAlike_drawing (source : σ) (signatures : SignatureTable) (root : Root) :
    EndAlike .identity (Table.drawing source) (run signatures root)
      (runWith source signatures root) := by
  have hstart : (Table.empty signatures).drawing source = .start source signatures := rfl
  have halike := (image_drawing source).endAlike hstart root
  rwa [Root.recast_identity] at halike

/--
Whatever the source, a tree is translated as by the run that counts its draws: it fails
with the same diagnostic, or each draw stands for the id that the source gave on it.
-/
theorem translate_result (source : σ) (signatures : SignatureTable) (root : Root) :
    (translate source signatures root).result =
      (run signatures root).result.map fun lowered =>
        lowered.translation.map (IdSource.stream source) := by
  obtain ⟨htable, ⟨hrun, hrun'⟩ | ⟨d, d', hfails, hfails', hblames⟩⟩ :=
    endAlike_drawing source signatures root
  · obtain ⟨body, rfl⟩ := module_of_run hrun
    obtain ⟨s, hruns, hcomplete, hends⟩ := exists_run hrun
    have hpublish := (run signatures (.module body)).table.toDeclarations.publish_mapIds
      (IdSource.stream source) fun p hp => inRange_of_procedure hruns hcomplete hends hp
    simp only [translate, hrun, hrun', htable, Except.map, Lowered.translation, Table.lowered,
      Translation.map, Table.called_drawing]
    exact congrArg (fun document => Except.ok (Translation.mk document _ _)) hpublish
  · simp only [translate, hfails, hfails', hblames.eq]
    rfl

end Lowering

end TypedPseudocode
