import TypedPseudocode.Proofs.Simulation

/-!
Lines: what line numbers are for.

The nodes of a tree carry the lines on which they were found.  Lowering looks at a line
only to blame it, so a tree whose lines are replaced is translated as before, and a
diagnostic blames the line that takes the place of the former one.  As no line comes out
of nowhere, the line that is blamed is that of a node, or zero where there is no node to
blame.
-/

namespace TypedPseudocode

open Code TypedPseudocode.Tree

def Recasting.ofLines (lines : Nat → Nat) (hzero : lines 0 = 0) : Recasting :=
  ⟨.identity, lines, hzero, false⟩

theorem Recasting.keepsWords_ofLines {lines : Nat → Nat} (hzero : lines 0 = 0) :
    (Recasting.ofLines lines hzero).KeepsWords :=
  ⟨fun _ => rfl, rfl⟩

/-- The same diagnostic, which blames the line that takes the place of its own. -/
def Diagnostic.reline (lines : Nat → Nat) (d : Diagnostic) : Diagnostic :=
  { d with line := lines d.line }

/-! ## Lines and diagnostics -/

namespace Lowering

theorem translate_ofLines {lines : Nat → Nat} (hzero : lines 0 = 0) (ids : IdStream)
    (signatures : SignatureTable) (root : Root) :
    (translate ids signatures (root.recast (.ofLines lines hzero))).result =
      (translate ids signatures root).result.mapError (·.reline lines) := by
  have hwords := Recasting.keepsWords_ofLines hzero
  have hnames : (Recasting.ofLines lines hzero).names = .identity := rfl
  have hruns := run_recast (.ofLines lines hzero) signatures root
  simp only [hnames, SignatureTable.rename_identity, Lowered.rename_identity] at hruns
  rcases hruns with ⟨lowered, hrun, hrun'⟩ | ⟨d, d', hfails, hfails', hblames⟩
  · rw [translate_result, translate_result, hrun, hrun']
    rfl
  · obtain rfl : d' = d.reline lines :=
      congrArg₂ Diagnostic.mk (hblames.words.same hwords) hblames.line
    rw [translate_result, translate_result, hfails, hfails']
    rfl

theorem blamed_line_mem {ids : IdStream} {signatures : SignatureTable} {root : Root}
    {d : Diagnostic} (h : (translate ids signatures root).result = .error d) :
    d.line = 0 ∨ d.line ∈ root.lines := by
  by_contra hnowhere
  obtain ⟨hzero, hmem⟩ := not_or.mp hnowhere
  -- No node stands on the line blamed, so moving that line away leaves the tree as it is.
  let away : Nat → Nat := fun line => if line = d.line then d.line + 1 else line
  have haway : away 0 = 0 := if_neg (Ne.symm hzero)
  have hsame : root.recast (.ofLines away haway) = root := by
    refine (Recasting.keepsWords_ofLines haway).recast_root root fun line hline => ?_
    exact if_neg fun heq : line = d.line => hmem (heq ▸ hline)
  have hmoved := translate_ofLines haway ids signatures root
  rw [hsame, h] at hmoved
  have hline : d.line = away d.line := congrArg Diagnostic.line (Except.error.inj hmoved)
  simp [away] at hline

/--
Lines are there to be blamed.  Under other lines a tree is translated to the same
document, with the same calls and captured signatures; or the diagnostic is the same but
for its line, which is the one that takes the place of the former.  The line of a
diagnostic is one of the tree, or zero.
-/
theorem lines_reach_diagnostics_only (lines : Nat → Nat) (hzero : lines 0 = 0)
    (ids : IdStream) (signatures : SignatureTable) (root : Root) :
    (translate ids signatures (root.recast (.ofLines lines hzero))).result =
        (translate ids signatures root).result.mapError (·.reline lines) ∧
      ∀ d, (translate ids signatures root).result = .error d → d.line = 0 ∨ d.line ∈ root.lines :=
  ⟨translate_ofLines hzero ids signatures root, fun _ => blamed_line_mem⟩

/--
A function whose body is only looked at after the call of it:
```
def area(width: int,
         height):
    return width * depth
area(2, 3)
```
-/
def areaModule : List Stmt :=
  [.functionDef 1 "area"
      ⟨[], [⟨"width", some (.name 1 "int" .load), 1⟩, ⟨"height", none, 2⟩], none, [], none, []⟩
      [.ret 3 (some (.binOp 3 (.name 3 "width" .load) .mult (.name 3 "depth" .load)))] [] none,
    .expression 4 (.call 4 (.name 4 "area" .load) [.constant 4 (.int 2), .constant 4 (.int 3)] [])]

theorem lines_reach_diagnostics_only_areaModule :
    let root := Root.module areaModule
    let spread := root.recast (.ofLines (10 * ·) rfl)
    let ids := IdStream.sequential "id"
    (translate ids .empty root).result = .error ⟨.missingName "depth", 3⟩ ∧
      (translate ids .empty spread).result = .error ⟨.missingName "depth", 30⟩ ∧
      ((3 : Nat) = 0 ∨ 3 ∈ root.lines) := by
  intro root spread ids
  have hfails : (translate ids .empty root).result = .error ⟨.missingName "depth", 3⟩ := rfl
  obtain ⟨hspread, hlines⟩ := lines_reach_diagnostics_only (10 * ·) rfl ids .empty root
  refine ⟨hfails, ?_, hlines _ hfails⟩
  rw [hfails] at hspread
  exact hspread

end Lowering

end TypedPseudocode
