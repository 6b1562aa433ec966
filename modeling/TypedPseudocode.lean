import TypedPseudocode.Main
import TypedPseudocode.Proofs.TypeOrder
import TypedPseudocode.Proofs.Yields
import TypedPseudocode.Proofs.Parts
import TypedPseudocode.Proofs.Regions
import TypedPseudocode.Proofs.Operands
import TypedPseudocode.Proofs.Progress
import TypedPseudocode.Proofs.Runs
import TypedPseudocode.Proofs.Passes
import TypedPseudocode.Proofs.Views
import TypedPseudocode.Proofs.Changes
import TypedPseudocode.Proofs.Coherence
import TypedPseudocode.Proofs.Outcomes
import TypedPseudocode.Proofs.Scoping
import TypedPseudocode.Proofs.Closed
import TypedPseudocode.Proofs.Inference
import TypedPseudocode.Proofs.Likeness
import TypedPseudocode.Proofs.Lockstep
import TypedPseudocode.Proofs.Independence
import TypedPseudocode.Proofs.Returns
import TypedPseudocode.Proofs.Results
import TypedPseudocode.Proofs.Typing
import TypedPseudocode.Proofs.Snapshots
import TypedPseudocode.Proofs.Calls
import TypedPseudocode.Proofs.Isolation
import TypedPseudocode.Proofs.Bindings
import TypedPseudocode.Proofs.Composition
import TypedPseudocode.Proofs.Keeping
import TypedPseudocode.Proofs.Mentions
import TypedPseudocode.Proofs.Blame
import TypedPseudocode.Proofs.Renderings
import TypedPseudocode.Proofs.Emission
import TypedPseudocode.Proofs.Outlines
import TypedPseudocode.Proofs.Translation
import TypedPseudocode.Proofs.References
import TypedPseudocode.Proofs.Skeleton
import TypedPseudocode.Proofs.Frames
import TypedPseudocode.Proofs.Sessions
import TypedPseudocode.Proofs.Inertness
import TypedPseudocode.Proofs.Chronology
import TypedPseudocode.Proofs.Precedence
import TypedPseudocode.Proofs.Parametricity
import TypedPseudocode.Proofs.Omissions
import TypedPseudocode.Proofs.Renaming
import TypedPseudocode.Proofs.Recasting
import TypedPseudocode.Proofs.Correspondence
import TypedPseudocode.Proofs.Nodes
import TypedPseudocode.Proofs.Parallel
import TypedPseudocode.Proofs.ParallelRuns
import TypedPseudocode.Proofs.Carrying
import TypedPseudocode.Proofs.Replacement
import TypedPseudocode.Proofs.Simulation
import TypedPseudocode.Proofs.Dialects
import TypedPseudocode.Proofs.Hygiene
import TypedPseudocode.Proofs.Effects
import TypedPseudocode.Proofs.Lines
import TypedPseudocode.Proofs.Counting
import TypedPseudocode.Proofs.Rearrangement
import TypedPseudocode.Proofs.Execution
import TypedPseudocode.Proofs.Unification
import TypedPseudocode.Proofs.Unpacking
import TypedPseudocode.Proofs.Missing
import TypedPseudocode.Proofs.Chains
import TypedPseudocode.Proofs.JsonTexts
import TypedPseudocode.Proofs.SignatureTexts
import TypedPseudocode.Proofs.DocumentJson
import TypedPseudocode.Proofs.Publication
