import Liveness.Graph.Group
import Liveness.Graph.Stored
import Liveness.Schedule.OfGraph
import Liveness.Proofs.Ascending
import Liveness.Proofs.Schedule.Exchange
import Liveness.Proofs.Graph.WellFormed
import Liveness.Proofs.Graph.Edits
import Liveness.Proofs.Success
import Liveness.Proofs.Graph.Built
import Liveness.Proofs.Schedule.Coherent
import Liveness.Proofs.Schedule.Room
import Liveness.Proofs.Schedule.Exchanged
import Liveness.Proofs.Schedule.Apply
import Liveness.Proofs.Schedule.Legal
import Liveness.Proofs.Schedule.Resize
import Liveness.Proofs.Schedule.Admissible
import Liveness.Proofs.Schedule.Run
import Liveness.Proofs.Graph.Order
import Liveness.Proofs.Schedule.Checked
import Liveness.Proofs.Frontier
import Liveness.Proofs.Graph.Contraction
import Liveness.Proofs.Closure
import Liveness.Proofs.Refinement.Passes
import Liveness.Proofs.Refinement.Slides
import Liveness.Proofs.Refinement.Rounds
import Liveness.Proofs.Schedule.OfGraph
import Liveness.Proofs.Weight.Exact
import Liveness.Proofs.Schedule.Span
import Liveness.Proofs.Schedule.Pull
import Liveness.Proofs.Schedule.Sweep
import Liveness.Proofs.Refinement.Rebuilt
import Liveness.Proofs.Schedule.Searches
import Liveness.Proofs.Schedule.Agreement
import Liveness.Proofs.Schedule.Settled
import Liveness.Proofs.Schedule.Converged
import Liveness.Proofs.Reach
import Liveness.Proofs.Peeling
import Liveness.Proofs.Closure.Exact
import Liveness.Proofs.Closure.Update
import Liveness.Proofs.Schedule.Undisturbed
import Liveness.Proofs.Schedule.Cramped
import Liveness.Proofs.Schedule.IdleSince
import Liveness.Proofs.Schedule.Watched
import Liveness.Proofs.Schedule.Again
import Liveness.Proofs.Graph.LinkChains
import Liveness.Proofs.Graph.Schedulable
import Liveness.Proofs.Graph.Expansion
import Liveness.Proofs.Refinement.PassSuccess
import Liveness.Proofs.Refinement.SlideSuccess
import Liveness.Proofs.Refinement.RoundSuccess
import Liveness.Proofs.Refinement.Sound
import Liveness.Proofs.Closure.Spans
import Liveness.Proofs.Refinement.Costs
import Liveness.Proofs.Refinement.Differences
import Liveness.Proofs.Schedule.Priority
import Liveness.Proofs.Schedule.FirstOrder
import Liveness.Proofs.Schedule.Liveness
import Liveness.Proofs.Schedule.Accounts
import Liveness.Proofs.Schedule.Succeeds
import Liveness.Graph.InPlace
import Liveness.Proofs.Graph.Repeated
import Liveness.Proofs.Graph.Record
import Liveness.Proofs.Graph.Stored
import Liveness.Proofs.Graph.InPlace
import Liveness.Proofs.Graph.Obtained
import Liveness.Proofs.Weight.Order
import Liveness.Proofs.Graph.TightChains
import Liveness.Proofs.Schedule.Cut
import Liveness.Proofs.Schedule.Trade
import Liveness.Proofs.Schedule.Cheapest
import Liveness.Proofs.Refinement.ChangeBounds
import Liveness.Proofs.Refinement.ClosePairs
import Liveness.Proofs.Graph.ParallelChains
import Liveness.Proofs.Refinement.OrderedChains
import Liveness.Proofs.Graph.Reordered
import Liveness.Proofs.Weight.Finite
import Liveness.Proofs.Json.Finite
import Liveness.Proofs.Graph.Restored
import Liveness.Proofs.Schedule.Descent
import Liveness.Proofs.Schedule.Termination
import Liveness.Proofs.Schedule.Complete
import Liveness.Proofs.Closure.Extremes
import Liveness.Proofs.Closure.Places
import Liveness.Proofs.Closure.Filters
import Liveness.Proofs.Closure.Reduction
import Liveness.Proofs.Refinement.TightDrops
import Liveness.Proofs.Refinement.Reduction
import Liveness.Proofs.Schedule.LegalMoves
import Liveness.Proofs.Schedule.InPlace
import Liveness.Proofs.Refinement.SlideExact
import Liveness.Proofs.Refinement.FixedPoint
import Liveness.Proofs.Graph.Linkable
import Liveness.Proofs.Graph.Bins
import Liveness.Proofs.Graph.Attractors
import Liveness.Proofs.Schedule.FirstOrderRule
import Liveness.Proofs.Schedule.Reversal
import Liveness.Proofs.Schedule.LiveWeights
import Liveness.Proofs.Schedule.AnyOrder
import Liveness.Proofs.Weight.Words
import Liveness.Proofs.Weight.Naturals
import Liveness.Proofs.Weight.Tiers
import Liveness.Proofs.Graph.DistinctValues
import Liveness.Proofs.Graph.AttractorRanks
import Liveness.Proofs.Walk
import Liveness.Proofs.Graph.ExactChains
import Liveness.Proofs.Schedule.Restricted
import Liveness.Proofs.Schedule.AnyPriority
import Liveness.Proofs.Schedule.PriceInPlace
