import Adjacency.Graph.Update
import Adjacency.Query.Plan
import Adjacency.Main
import Adjacency.Timer.Rehearsal
import Adjacency.Proofs.Optimization
import Adjacency.Proofs.Emission
import Adjacency.Proofs.Representation
import Adjacency.Proofs.WholePart
import Adjacency.Proofs.ValueOrder
import Adjacency.Proofs.NumberLine
import Adjacency.Proofs.Sorting
import Adjacency.Proofs.Preparation
import Adjacency.Proofs.Batch
import Adjacency.Proofs.Traversing
import Adjacency.Proofs.Faultless
import Adjacency.Proofs.Guarded
import Adjacency.Proofs.GuardedReading
import Adjacency.Proofs.GuardedCommit
import Adjacency.Proofs.GuardedWriting
import Adjacency.Proofs.EdgeBinding
import Adjacency.Proofs.Lockstep
import Adjacency.Proofs.Rerun
import Adjacency.Proofs.Within
import Adjacency.Proofs.Stale
import Adjacency.Proofs.Ready
import Adjacency.Proofs.Parts
import Adjacency.Proofs.Records
import Adjacency.Proofs.Failed
import Adjacency.Proofs.Kernels
import Adjacency.Proofs.Settled
import Adjacency.Proofs.Tuples
import Adjacency.Proofs.Concurrence
import Adjacency.Proofs.Replacement
import Adjacency.Proofs.Interleaving
import Adjacency.Proofs.Rehearsing
import Adjacency.Proofs.Room
import Adjacency.Proofs.Solvent
import Adjacency.Proofs.ConfigRange
import Adjacency.Proofs.Mirrored
import Adjacency.Proofs.Peopled
import Adjacency.Proofs.Oldest
import Adjacency.Proofs.FirstBatch
import Adjacency.Proofs.Answers
import Adjacency.Proofs.Overwritten
import Adjacency.Proofs.Displaced
import Adjacency.Proofs.Collapse
import Adjacency.Proofs.Tombstones
import Adjacency.Proofs.Exact
import Adjacency.Proofs.NormalForm
import Adjacency.Proofs.IdentifierOrder
import Adjacency.Proofs.Draining
import Adjacency.Proofs.Sweeping
import Adjacency.Proofs.Readers
