import DataRace.Access
import DataRace.Alias.Cache
import DataRace.Alias.CallPath
import DataRace.Alias.Context
import DataRace.Alias.Query
import DataRace.Alias.Reached
import DataRace.Alias.Refinement
import DataRace.Alias.Solver
import DataRace.Barrier
import DataRace.Call.Component
import DataRace.Call.Graph
import DataRace.Collection
import DataRace.Config
import DataRace.Detection
import DataRace.Error
import DataRace.Flow.Dominance
import DataRace.Flow.Facts
import DataRace.Flow.Induction
import DataRace.Flow.Loop
import DataRace.Flow.Search
import DataRace.Guard.Basic
import DataRace.Guard.Exclusion
import DataRace.HeapInstance
import DataRace.Lockset
import DataRace.Log
import DataRace.Parallel.Basic
import DataRace.Parallel.Join
import DataRace.Parallel.Point
import DataRace.Parallel.Reach
import DataRace.Parallel.Site
import DataRace.Partition.Basic
import DataRace.Partition.Escape
import DataRace.Partition.RiskyPairs
import DataRace.PointsTo.Basic
import DataRace.PointsTo.Graph
import DataRace.PointsTo.Object
import DataRace.PointsTo.Solver
import DataRace.Program.Basic
import DataRace.Program.Builder
import DataRace.Program.CodeSet
import DataRace.Program.Instruction
import DataRace.Program.Library
import DataRace.Program.Predicate
import DataRace.Program.Text
import DataRace.Program.Value
import DataRace.Proofs.Alias.Arising
import DataRace.Proofs.Alias.Budget
import DataRace.Proofs.Alias.CallPath
import DataRace.Proofs.Alias.Completeness
import DataRace.Proofs.Alias.Contexts
import DataRace.Proofs.Alias.Dialogue
import DataRace.Proofs.Alias.Flows
import DataRace.Proofs.Alias.Independence
import DataRace.Proofs.Alias.Meeting
import DataRace.Proofs.Alias.Settled
import DataRace.Proofs.Alias.Stable
import DataRace.Proofs.Alias.Standing
import DataRace.Proofs.Alias.Unbroken
import DataRace.Proofs.Alias.Walk
import DataRace.Proofs.Barrier.Around
import DataRace.Proofs.Barrier.Entry
import DataRace.Proofs.Barrier.Single
import DataRace.Proofs.Barrier.Sites
import DataRace.Proofs.Barrier.Spread
import DataRace.Proofs.Call.Class
import DataRace.Proofs.Call.Component
import DataRace.Proofs.Call.Inheritance
import DataRace.Proofs.Call.Search
import DataRace.Proofs.Call.Summary
import DataRace.Proofs.Call.Visits
import DataRace.Proofs.Collection
import DataRace.Proofs.Detection.Budget
import DataRace.Proofs.Detection.Completion
import DataRace.Proofs.Detection.Numbering
import DataRace.Proofs.Detection.Phases
import DataRace.Proofs.Detection.Recheck
import DataRace.Proofs.Detection.Report
import DataRace.Proofs.Flow.BlockPath
import DataRace.Proofs.Flow.Chase
import DataRace.Proofs.Flow.DomTree
import DataRace.Proofs.Flow.Dominance
import DataRace.Proofs.Flow.ExitCondition
import DataRace.Proofs.Flow.Frontier
import DataRace.Proofs.Flow.InductionRange
import DataRace.Proofs.Flow.InductionStep
import DataRace.Proofs.Flow.InductionValue
import DataRace.Proofs.Flow.Loop
import DataRace.Proofs.Flow.LoopForest
import DataRace.Proofs.Flow.LoopRun
import DataRace.Proofs.Flow.Passes
import DataRace.Proofs.Flow.ReversePostorder
import DataRace.Proofs.Flow.Run
import DataRace.Proofs.Flow.Search
import DataRace.Proofs.Flow.Through
import DataRace.Proofs.Guard.Change
import DataRace.Proofs.Guard.Entry
import DataRace.Proofs.Guard.Exclusion
import DataRace.Proofs.Guard.Meaning
import DataRace.Proofs.Guard.Order
import DataRace.Proofs.Guard.Outcome
import DataRace.Proofs.Guard.Table
import DataRace.Proofs.HeapInstance.Handed
import DataRace.Proofs.HeapInstance.Order
import DataRace.Proofs.Lockset.CommonLock
import DataRace.Proofs.Lockset.Entry
import DataRace.Proofs.Lockset.Held
import DataRace.Proofs.Lockset.Kept
import DataRace.Proofs.Lockset.Sites
import DataRace.Proofs.Lockset.Spread
import DataRace.Proofs.Parallel.Closure
import DataRace.Proofs.Parallel.Enter
import DataRace.Proofs.Parallel.Index
import DataRace.Proofs.Parallel.Join
import DataRace.Proofs.Parallel.LoopExit
import DataRace.Proofs.Parallel.LoopJoin
import DataRace.Proofs.Parallel.Reach
import DataRace.Proofs.Parallel.Refinement
import DataRace.Proofs.Parallel.Site
import DataRace.Proofs.Parallel.SiteRange
import DataRace.Proofs.Parallel.Trunk
import DataRace.Proofs.Partition.Budget
import DataRace.Proofs.Partition.Classes
import DataRace.Proofs.Partition.Escape
import DataRace.Proofs.Partition.Narrowing
import DataRace.Proofs.Partition.Seeding
import DataRace.Proofs.PointsTo.Casts
import DataRace.Proofs.PointsTo.Constraints
import DataRace.Proofs.PointsTo.Denote
import DataRace.Proofs.PointsTo.Edges
import DataRace.Proofs.PointsTo.Layout
import DataRace.Proofs.PointsTo.LeastSolution
import DataRace.Proofs.PointsTo.Linking
import DataRace.Proofs.PointsTo.Narrow
import DataRace.Proofs.PointsTo.Objects
import DataRace.Proofs.PointsTo.OffsetRange
import DataRace.Proofs.PointsTo.Params
import DataRace.Proofs.PointsTo.Propagation
import DataRace.Proofs.PointsTo.Seed
import DataRace.Proofs.PointsTo.Worklist
import DataRace.Proofs.Program.Age
import DataRace.Proofs.Program.Arranged
import DataRace.Proofs.Program.Finished
import DataRace.Proofs.Program.Library
import DataRace.Proofs.Program.Linked
import DataRace.Proofs.Program.Linking
import DataRace.Proofs.Program.Script
import DataRace.Proofs.Program.Session
import DataRace.Proofs.Program.WellFormed
import DataRace.Proofs.Report.CheckPlan
import DataRace.Proofs.Report.PairFile
import DataRace.Proofs.Report.PairFormat
import DataRace.Proofs.Report.PairOrder
import DataRace.Proofs.Subject
import DataRace.Proofs.Success
import DataRace.Proofs.Text.Grammar
import DataRace.Proofs.Text.Line
import DataRace.Report.CheckPlan
import DataRace.Report.PairFile
import DataRace.Report.Warning
import DataRace.Statistics
import DataRace.Subject
import DataRace.Text.Decimal
import DataRace.Text.Line
import DataRace.Text.Quoted
import DataRace.Text.Unprinted
import DataRace.View.Alias
import DataRace.View.Apart
import DataRace.View.Datum
import DataRace.View.Detection
import DataRace.View.Parallel
import DataRace.View.Partition
import DataRace.View.PointsTo
import DataRace.View.Program
