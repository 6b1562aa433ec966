import TypedPseudocode.Document
import TypedPseudocode.Lowering.Module

/-!
Translations: what a caller gets of a tree.  The table of the run stays inside;
the document has all that was declared in it.
-/

namespace TypedPseudocode

structure Translation (ι : Type) where
  document : Document ι
  called : List String
  captured : SignatureTable

variable {σ ι κ : Type}

def Translation.map (f : ι → κ) (x : Translation ι) : Translation κ :=
  { x with document := x.document.map f }

namespace Lowering

variable [Inhabited ι] [IdSource σ ι]

def Lowered.translation (lowered : Lowered ι) : Translation ι :=
  ⟨lowered.declarations.publish, lowered.called, lowered.captured⟩

/-- Translate a tree, with ids drawn from a source as its names are declared. -/
def translate (source : σ) (signatures : SignatureTable) (root : Tree.Root) :
    Outcome (Translation ι) σ ι :=
  let outcome : Outcome (Lowered ι) σ ι := runWith source signatures root
  { outcome with result := outcome.result.map Lowered.translation }

end Lowering

end TypedPseudocode
