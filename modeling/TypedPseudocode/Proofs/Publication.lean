import TypedPseudocode.Proofs.DocumentJson
import TypedPseudocode.Proofs.Isolation
import TypedPseudocode.Proofs.Replacement
import TypedPseudocode.Proofs.TypeNames

/-!
Publication loses nothing.

Publication puts ids for handles and stated types for types, and both can be put back:
an id tells a handle by its place among the ids, a stated type tells the type.  Putting
back what code mentions leaves the code as it was, so a document has the content of every
procedure and the names and types of all variables that it declares.
-/

namespace TypedPseudocode

open Code

/-! ## Reading back -/

def Ty.ofPublished (stated : Ty.Published) : Ty :=
  match Ty.ofName stated.name with
  | .ok ty => if stated.array then .array ty else ty
  | .error _ => .unknown

theorem Ty.ofPublished_published (ty : Ty) : Ty.ofPublished ty.published = ty := by
  have hread := ty.ofName_published
  unfold Ty.ofPublished
  cases hname : Ty.ofName ty.published.name with
  | ok element =>
      rw [hname] at hread
      exact Except.ok.inj hread
  | error base =>
      rw [hname] at hread
      cases hread

/-- A procedure but for its id and what its callers left behind. -/
def Procedure.content {ι : Type} (p : Procedure ι) :
    Option String × Ty × List VarId × List TypedStatement :=
  (p.name, p.ty, p.parameters, p.body)

/-- The content of a published procedure: an id is a handle by its place among the ids. -/
def Document.Procedure.content (vars procedures : List String) (p : Document.Procedure String) :
    Option String × Ty × List VarId × List TypedStatement :=
  (p.name, Ty.ofPublished p.ty, p.parameters.map fun v => ⟨vars.idxOf v.id⟩,
    Statement.mapAll (fun v => ⟨vars.idxOf v.id⟩) (fun id => ⟨vars.idxOf id⟩)
      (fun id => ⟨procedures.idxOf id⟩) Ty.ofPublished p.body)

theorem idxOf_map {α : Type} {key : α → String} {xs : List α} (hdistinct : (xs.map key).Nodup)
    {i : Nat} (hi : i < xs.length) : (xs.map key).idxOf (key xs[i]) = i := by
  have hlength : i < (xs.map key).length := by rwa [List.length_map]
  have hkey : (xs.map key)[i] = key xs[i] := List.getElem_map key
  rw [← hkey, hdistinct.idxOf_getElem]

namespace Declarations

variable {ds ds' : Declarations String} (hvars : (ds.vars.map (·.id)).Nodup)
  (hprocedures : (ds.procedures.map (·.id)).Nodup)

include hvars in
theorem idxOf_varAt {v : VarId} (hv : v.index < ds.vars.length) :
    VarId.mk ((ds.vars.map (·.id)).idxOf (ds.varAt v).id) = v := by
  have hvar : ds.varAt v = ds.vars[v.index] := by simp [varAt, hv]
  rw [hvar, idxOf_map hvars hv]

include hprocedures in
theorem idxOf_procAt {p : ProcId} (hp : p.index < ds.procedures.length) :
    ProcId.mk ((ds.procedures.map (·.id)).idxOf (ds.procAt p).id) = p := by
  have hprocedure : ds.procAt p = ds.procedures[p.index] := by simp [procAt, hp]
  rw [hprocedure, idxOf_map hprocedures hp]

include hvars hprocedures in
theorem content_publishProcedure {p : Procedure String} (hrange : ds.InRange p) :
    (ds.publishProcedure p).content (ds.vars.map (·.id)) (ds.procedures.map (·.id)) =
      p.content := by
  have hparameters : (ds.publishProcedure p).parameters.map
      (fun v => VarId.mk ((ds.vars.map (·.id)).idxOf v.id)) = p.parameters := by
    rw [publishProcedure, List.map_map]
    refine (List.map_congr_left fun v hv => ?_).trans (List.map_id _)
    exact idxOf_varAt hvars (hrange.locals v (List.mem_append_left _ hv))
  have hbody : Statement.mapAll (fun v => VarId.mk ((ds.vars.map (·.id)).idxOf v.id))
      (fun id => VarId.mk ((ds.vars.map (·.id)).idxOf id))
      (fun id => ProcId.mk ((ds.procedures.map (·.id)).idxOf id)) Ty.ofPublished
      (ds.publishProcedure p).body = p.body := by
    rw [publishProcedure, publishBody, Statement.mapAll_mapAll]
    have hty : Ty.ofPublished ∘ Ty.published = id := funext Ty.ofPublished_published
    rw [hty]
    refine (Statement.mapAll_congr id _ ⟨?_, ?_, ?_, ?_⟩).trans (Statement.mapAll_id p.body)
    · exact fun v hv => idxOf_varAt hvars (hrange.locals v (List.mem_append_right _ hv))
    · exact fun v hv => idxOf_varAt hvars (hrange.assigned v hv)
    · exact fun v hv => idxOf_varAt hvars (hrange.referenced v hv)
    · exact fun q hq => idxOf_procAt hprocedures (hrange.called q hq)
  have hty : Ty.ofPublished (ds.publishProcedure p).ty = p.ty := Ty.ofPublished_published p.ty
  rw [Document.Procedure.content, hparameters, hbody, hty]
  rfl

include hvars hprocedures in
theorem content_publish (hrange : ∀ p ∈ ds.procedures, ds.InRange p) :
    ds.publish.procedures.map
      (Document.Procedure.content (ds.vars.map (·.id)) (ds.procedures.map (·.id))) =
        ds.procedures.map Procedure.content := by
  rw [publish, List.map_map]
  exact List.map_congr_left fun p hp => content_publishProcedure hvars hprocedures (hrange p hp)

theorem locals_eq_of_content
    (h : ds.procedures.map Procedure.content = ds'.procedures.map Procedure.content) :
    ds.procedures.flatMap Procedure.locals = ds'.procedures.flatMap Procedure.locals := by
  have hlocals (ps : List (Procedure String)) : ps.flatMap Procedure.locals =
      (ps.map Procedure.content).flatMap fun c => c.2.2.1 ++ declared c.2.2.2 := by
    rw [List.flatMap_map]
    rfl
  rw [hlocals, h, ← hlocals]

/--
Whatever is declared is told by the document.  Declarations under the same distinct ids
whose documents are the same JSON value have procedures of the same content, and every
variable that the document declares has one name and one type in both.
-/
theorem publication_determines
    (hprocedures : ds.procedures.map (·.id) = ds'.procedures.map (·.id))
    (hvars : ds.vars.map (·.id) = ds'.vars.map (·.id))
    (hdistinctProcedures : (ds.procedures.map (·.id)).Nodup)
    (hdistinctVars : (ds.vars.map (·.id)).Nodup)
    (hrange : ∀ p ∈ ds.procedures, ds.InRange p)
    (hrange' : ∀ p ∈ ds'.procedures, ds'.InRange p)
    (hsame : Json.Same ds.publish.toJson ds'.publish.toJson) :
    ds.procedures.map Procedure.content = ds'.procedures.map Procedure.content ∧
      ∀ v ∈ ds.procedures.flatMap Procedure.locals,
        (ds.varAt v).name = (ds'.varAt v).name ∧ ds.tyOf v = ds'.tyOf v := by
  have hdocument := Document.eq_of_same hsame
  have hcontent : ds.procedures.map Procedure.content = ds'.procedures.map Procedure.content := by
    calc ds.procedures.map Procedure.content
      _ = ds.publish.procedures.map
            (Document.Procedure.content (ds.vars.map (·.id)) (ds.procedures.map (·.id))) :=
          (content_publish hdistinctVars hdistinctProcedures hrange).symm
      _ = ds'.publish.procedures.map
            (Document.Procedure.content (ds'.vars.map (·.id)) (ds'.procedures.map (·.id))) := by
          rw [hdocument, hvars, hprocedures]
      _ = ds'.procedures.map Procedure.content :=
          content_publish (hvars ▸ hdistinctVars) (hprocedures ▸ hdistinctProcedures) hrange'
  have hdeclarations := ds'.declarations_publish
  rw [← hdocument, ds.declarations_publish, ← locals_eq_of_content hcontent,
    List.map_inj_left] at hdeclarations
  refine ⟨hcontent, fun v hv => ?_⟩
  obtain ⟨-, hname, hty⟩ := Document.Variable.mk.inj (hdeclarations v hv)
  exact ⟨hname, Ty.published_injective hty⟩

/--
A procedure that fills an array and calls itself with the successor of its argument, beside
a variable that no code declares.
-/
def climb (spare : String) (called : Bool) : Declarations String where
  procedures := [{
    id := "p"
    name := some "climb"
    ty := .int
    parameters := [⟨0⟩]
    body := [.declare ⟨1⟩,
      .assign ⟨1⟩ (.aggregate [.int 0] (.array .int)),
      .assignElement ⟨1⟩ [.int 0] (.binary .add (.read ⟨0⟩ .int) (.int 1) .int),
      .ret (some (.call ⟨0⟩ [.arrayElement (.read ⟨1⟩ (.array .int)) (.int 0) .int] .int))]
    called := called }]
  vars := [⟨"x", "x"⟩, ⟨"y", "ys"⟩, ⟨"z", spare⟩]
  types := (OrderedMap.empty.insert ⟨0⟩ .int).insert ⟨1⟩ (.array .int)

theorem inRange_climb {spare : String} {called : Bool} :
    ∀ p ∈ (climb spare called).procedures, (climb spare called).InRange p := by
  have hvars : ∀ v ∈ [VarId.mk 1, ⟨0⟩, ⟨1⟩], v.index < 3 := by decide
  intro p hp
  obtain rfl := List.mem_singleton.mp hp
  refine ⟨fun v hv => hvars v (List.mem_cons_of_mem _ hv),
    fun v hv => hvars v (List.mem_cons.mpr (.inl (List.mem_singleton.mp hv))), hvars,
    fun q hq => ?_⟩
  exact List.mem_singleton.mp hq ▸ Nat.one_pos

theorem publication_determines_climb :
    let ds := climb "a" true
    let ds' := climb "b" false
    (ds.varAt ⟨2⟩).name ≠ (ds'.varAt ⟨2⟩).name ∧
      ds.procedures.map Procedure.content = ds'.procedures.map Procedure.content ∧
        ∀ v ∈ [VarId.mk 0, ⟨1⟩],
          (ds.varAt v).name = (ds'.varAt v).name ∧ ds.tyOf v = ds'.tyOf v := by
  intro ds ds'
  refine ⟨by decide, ?_⟩
  have hdocument : ds.publish = ds'.publish := rfl
  exact publication_determines rfl rfl (by decide) (by decide) inRange_climb inRange_climb
    (hdocument ▸ Json.Same.refl _)

end Declarations

end TypedPseudocode
