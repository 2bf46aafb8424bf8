import SafeRestart.Ident
import SafeRestart.Error
import SafeRestart.Ascending
import SafeRestart.BitSet
import SafeRestart.Config
import SafeRestart.Interval.Basic
import SafeRestart.Interval.Gaps
import SafeRestart.Graph.Basic
import SafeRestart.Graph.Search
import SafeRestart.Graph.Postorder
import SafeRestart.Graph.Dominators
import SafeRestart.HittingSet
import SafeRestart.VertexCover
import SafeRestart.Storage
import SafeRestart.Memory
import SafeRestart.Alias
import SafeRestart.Instruction
import SafeRestart.Function.Basic
import SafeRestart.Function.Assembly
import SafeRestart.Function.Flow
import SafeRestart.Hazard
import SafeRestart.CutPath
import SafeRestart.Boundary
import SafeRestart.Analysis
import SafeRestart.Region.Basic
import SafeRestart.Region.Walk
import SafeRestart.Liveness
import SafeRestart.Shadow.Basic
import SafeRestart.Shadow.Query
import SafeRestart.Shadow.Request
import SafeRestart.Proofs.Path
import SafeRestart.Proofs.Search
import SafeRestart.Proofs.BitSet
import SafeRestart.Proofs.Ascending
import SafeRestart.Proofs.Assembly
import SafeRestart.Proofs.Flow
import SafeRestart.Proofs.Hazard
import SafeRestart.Proofs.Dominance
import SafeRestart.Proofs.DominatorTree
import SafeRestart.Proofs.CutPath
import SafeRestart.Proofs.HittingSet
import SafeRestart.Proofs.Region
import SafeRestart.Proofs.Idempotence
import SafeRestart.Proofs.Interval
import SafeRestart.Proofs.Liveness
import SafeRestart.Proofs.Walk
import SafeRestart.Proofs.Verification
import SafeRestart.Proofs.Shadow
import SafeRestart.Proofs.Conversation
import SafeRestart.Proofs.Merging
import SafeRestart.Proofs.Renaming
import SafeRestart.Proofs.MergedVerification
import SafeRestart.Proofs.Membership
import SafeRestart.Proofs.ShadowCheck
import SafeRestart.Proofs.ShadowPoints
import SafeRestart.Proofs.Verdict
import SafeRestart.Proofs.PointSet
import SafeRestart.Proofs.Acceptance
import SafeRestart.Proofs.EdgeOrder
import SafeRestart.Proofs.LiveRanges
import SafeRestart.Proofs.Arrangement
import SafeRestart.Proofs.Guarded.Basic
import SafeRestart.Proofs.Guarded.Layout
import SafeRestart.Proofs.Guarded.Loop
import SafeRestart.Proofs.Guarded.Worklist
import SafeRestart.Proofs.Adjacency
import SafeRestart.Proofs.Builder
import SafeRestart.Proofs.Tables
import SafeRestart.Proofs.FinishedTables
import SafeRestart.Proofs.Guarded.Gaps
import SafeRestart.Proofs.Guarded.Shadow
import SafeRestart.Proofs.Guarded.Request
import SafeRestart.Proofs.BlockSearch
import SafeRestart.Proofs.HazardSearch
import SafeRestart.Proofs.BlockLiveness
import SafeRestart.Proofs.OpenRanges
import SafeRestart.Proofs.Greedy
import SafeRestart.Proofs.Tally
import SafeRestart.Proofs.HittingTrace
import SafeRestart.Proofs.Policy
import SafeRestart.Proofs.Overlap
import SafeRestart.Proofs.RegionTable
import SafeRestart.Proofs.RegionSearch
import SafeRestart.Proofs.BlockWalk
import SafeRestart.Proofs.RegionWalk
import SafeRestart.Proofs.AnalysisRun
import SafeRestart.Proofs.Reach
import SafeRestart.Proofs.Between
import SafeRestart.Proofs.ByteRanges
import SafeRestart.Proofs.CoarserOracle
import SafeRestart.Proofs.HarmonicBound
import SafeRestart.Proofs.CanonicalForm
import SafeRestart.Proofs.DepthFirst
import SafeRestart.Proofs.Postorder
import SafeRestart.Proofs.DominatorRun
import SafeRestart.Proofs.DominatorFixpoint
import SafeRestart.Proofs.Cooccurrence
import SafeRestart.Proofs.EdgeCover
import SafeRestart.Proofs.Subtraction
import SafeRestart.Proofs.Capacity
import SafeRestart.Proofs.Subsets
