import TypedPseudocode.Lowering.Statement

/-!
Lowering of modules.

What stands outside of all functions becomes the body of an entry procedure
that has no name, if there is anything.
-/

namespace TypedPseudocode.Lowering

open Code TypedPseudocode.Tree

variable {σ ι : Type} [Inhabited ι] [IdSource σ ι]

/-- All that is known once a module has been lowered. -/
structure Lowered (ι : Type := Nat) where
  declarations : Declarations ι
  called : List String
  /-- What calls showed of procedures without a supplied signature. -/
  captured : SignatureTable

def wrapEntry (statements : List TypedStatement) : LoweringWith σ ι Unit := do
  if statements.isEmpty then return
  else
    let entry ← declareProcedure none (some .void)
    modify (·.define entry [] statements)
    tell .wrappedEntry

def lowerRoot : Root → LoweringWith σ ι (Lowered ι)
  | .module body => do
      let block ← lowerBlock body
      wrapEntry block.statements
      let lowered ← gets fun t => ⟨t.toDeclarations, t.called, t.captured⟩
      let supplied ← gets (·.signatures.size)
      tell (.finishedModule lowered.declarations.procedures.length
        lowered.declarations.vars.length supplied)
      return lowered
  | root => fail (.unexpectedKind [Labelled.label RootKind.module] root.label) 0

def runWith (source : σ) (signatures : SignatureTable) (root : Root) :
    Outcome (Lowered ι) σ ι :=
  lowerRoot root (Table.start source signatures)

abbrev run (signatures : SignatureTable) (root : Root) : Outcome Lowered :=
  runWith 0 signatures root

end TypedPseudocode.Lowering
