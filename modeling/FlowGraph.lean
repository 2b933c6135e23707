import FlowGraph.Compilation
import FlowGraph.Graph.Merging
import FlowGraph.Library.Standard
import FlowGraph.Machine.Basic
import FlowGraph.Proofs.Arena.Refinement
import FlowGraph.Proofs.Debugging
import FlowGraph.Proofs.Evaluations
import FlowGraph.Proofs.Mirror
import FlowGraph.Proofs.Safety
import FlowGraph.Proofs.Shadowing
import FlowGraph.Proofs.Atomicity
import FlowGraph.Proofs.Merging
import FlowGraph.Proofs.Retinue
import FlowGraph.Proofs.Entrances
import FlowGraph.Proofs.Absorption
import FlowGraph.Proofs.Trimming
import FlowGraph.Proofs.Readings
import FlowGraph.Proofs.Tallies
import FlowGraph.Proofs.Presets
import FlowGraph.Proofs.Equivalence
import FlowGraph.Proofs.Arena.Supply
import FlowGraph.Proofs.Tokens
import FlowGraph.Proofs.Refusals
import FlowGraph.Proofs.Cached.Sessions
import FlowGraph.Proofs.Transfer
import FlowGraph.Proofs.Renewal
import FlowGraph.Proofs.References
import FlowGraph.Proofs.Branches
import FlowGraph.Proofs.Backbones
import FlowGraph.Proofs.Endings
import FlowGraph.Proofs.Nesting
import FlowGraph.Proofs.Unlinking
import FlowGraph.Proofs.Gathering
import FlowGraph.Proofs.Natives
import FlowGraph.Proofs.Roots
import FlowGraph.Proofs.Numbering
import FlowGraph.Proofs.ReferenceCircles
import FlowGraph.Proofs.ContentDestruction
