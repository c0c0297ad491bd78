/-! # Passes

The nine passes that may refine a graph before it is scheduled, in the order in which
enabled passes run.
-/

namespace Liveness

/-- A pass over the graph. -/
inductive Pass where
  | slideLinks
  | linkTightDrops
  | linkClosePairs
  | orderParallelChains
  | dropWeightless
  | dropSolitary
  | dropInner
  | dropFixed
  | combine
  deriving DecidableEq, Repr

namespace Pass

def all : List Pass :=
  [.slideLinks, .linkTightDrops, .linkClosePairs, .orderParallelChains, .dropWeightless,
    .dropSolitary, .dropInner, .dropFixed, .combine]

def name : Pass → String
  | .slideLinks => "SlideLinks"
  | .linkTightDrops => "LinkTightDrops"
  | .linkClosePairs => "LinkCloseTightPairs"
  | .orderParallelChains => "ConstrainParallelChains"
  | .dropWeightless => "DisconnectAllocsWithZeroWeight"
  | .dropSolitary => "DisconnectAllocsWithOneOp"
  | .dropInner => "DisconnectInbetweenerAllocs"
  | .dropFixed => "DisconnectFixedDurationAllocs"
  | .combine => "CombineAllocsWithCommonOps"

def ofName? (text : String) : Option Pass := all.find? fun p => p.name == text

end Pass

end Liveness
