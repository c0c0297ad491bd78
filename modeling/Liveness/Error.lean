import Liveness.Refinement.Pass
import Liveness.Text.Quoted

/-! # Errors

Every way in which building, reading, refining or scheduling a graph can fail, as a
cause with its data. `Error.message` is the one place where causes become words, and
`Error.kind` tells bad input, cycles and broken invariants apart.
-/

namespace Liveness

inductive Direction where
  | forward
  | backward
  deriving DecidableEq, Repr

/-- Where two lists were expected to have equal lengths. -/
inductive LengthContext where
  | startAttractors
  | constraintDifference
  | closureEdges
  deriving DecidableEq, Repr

/-- What is wrong with a setting. -/
inductive SettingFault where
  | unknownTieBreak (text : String)
  | unknownSearch (text : String)
  | badValue (text key : String)
  | unknownKey (key : String)
  deriving DecidableEq, Repr

inductive RecordKind where
  | op
  | alloc
  deriving DecidableEq, Repr

/-- What is wrong with a stored graph whose text is well formed. -/
inductive RecordFault where
  | addressTooLarge (kind : RecordKind) (address count : Nat)
  | addressRepeated (kind : RecordKind) (address : Nat)
  | badLink (link : Int) (address : Nat)
  deriving DecidableEq, Repr

/-- What is wrong with the data kept beside a schedule. -/
inductive ScheduleFault where
  | misplaced (index op recorded : Nat)
  | inputMissing (op input : Nat)
  | inputLate (op index input inputIndex : Nat)
  | outputMissing (op output : Nat)
  | linkBroken (before after : Nat)
  | staleRoom (start window back backNow ahead aheadNow : Nat)
  deriving DecidableEq, Repr

inductive Error where
  | opOutOfRange (address count : Nat)
  | allocOutOfRange (address count : Nat)
  | selfConstraint (address : Nat)
  | linkConflict (before after owner existing : Nat) (direction : Direction)
  | lengthMismatch (context : LengthContext) (left right : Nat)
  | duplicateOp (address : Nat)
  | invalidTier (tier : Int)
  | invalidSetting (fault : SettingFault)
  | unreadable
  | malformedGraph (fault : RecordFault)
  | cycle (scheduled total : Nat)
  | chainCycle (source target : Nat)
  | nonFiniteWeight (magnitude : String)
  | costMismatch (start window : Nat) (details : String)
  | inconsistent (fault : ScheduleFault)
  | passBroke (pass : Pass) (cause : Error)
  | drift (accumulated observed : String)
  deriving DecidableEq, Repr

/-- The classes of failure: bad input, a cycle among constraints and links, or a broken
invariant of the scheduler. -/
inductive ErrorKind where
  | structural
  | cycle
  | internal
  deriving DecidableEq, Repr

namespace Direction

def name : Direction → String
  | .forward => "forward"
  | .backward => "backward"

/-- The step of a schedule index in this direction. -/
def sign : Direction → Int
  | .forward => 1
  | .backward => -1

end Direction

namespace LengthContext

def name : LengthContext → String
  | .startAttractors => "insert_start_attractors"
  | .constraintDifference => "constraint_diff"
  | .closureEdges => "transitive closure edges"

end LengthContext

namespace SettingFault

def message : SettingFault → String
  | .unknownTieBreak text =>
    "unknown Kahn tie-breaker " ++ Text.quoted text ++ ", expected Random, Greedy or Fifo"
  | .unknownSearch text =>
    "unknown rotation algorithm " ++ Text.quoted text ++ ", expected Simple or Ripple"
  | .badValue text key => "invalid value " ++ Text.quoted text ++ " for " ++ key
  | .unknownKey key => "unrecognised setting " ++ Text.quoted key

end SettingFault

namespace RecordKind

def name : RecordKind → String
  | .op => "Op"
  | .alloc => "Alloc"

end RecordKind

namespace RecordFault

def message : RecordFault → String
  | .addressTooLarge kind address count =>
    let noun := kind.name
    s!"{noun} address {address} is not below the number of {noun}s, {count}"
  | .addressRepeated kind address =>
    let noun := kind.name
    s!"{noun} address {address} appears more than once"
  | .badLink link address => s!"invalid fwdLink {link} for Op {address}"

end RecordFault

namespace ScheduleFault

def message : ScheduleFault → String
  | .misplaced index op recorded =>
    s!"schedule index {index} holds Op {op}, but Op {op} is recorded at {recorded}"
  | .inputMissing op input => s!"input schedule of Op {op} does not contain input {input}"
  | .inputLate op index input inputIndex =>
    s!"Op {op} is scheduled at {index} but its input {input} is at {inputIndex}"
  | .outputMissing op output => s!"output schedule of Op {op} does not contain output {output}"
  | .linkBroken before after => s!"link {before} -> {after} is not satisfied"
  | .staleRoom start window back backNow ahead aheadNow =>
    s!"stale bounds for window ({start}, {window}): back {back} vs {backNow}, " ++
      s!"forward {ahead} vs {aheadNow}"

end ScheduleFault

namespace Error

def message : Error → String
  | opOutOfRange address count =>
    s!"Op address {address} is out of range, there are only {count} Ops"
  | allocOutOfRange address count =>
    s!"Alloc address {address} is out of range, there are only {count} Allocs"
  | selfConstraint address => s!"Cannot constrain Op {address} to be before itself"
  | linkConflict before after owner existing direction =>
    s!"Cannot link {before} -> {after}: Op {owner} already has a " ++ direction.name ++
      s!" link to {existing}"
  | lengthMismatch context left right =>
    "Length mismatch in " ++ context.name ++ s!": {left} vs {right}"
  | duplicateOp address => s!"Duplicate Op address {address}"
  | invalidTier tier => s!"Tier {tier} is outside the supported range [-3, 3]"
  | invalidSetting fault => "Invalid setting: " ++ fault.message
  | unreadable => "Failed to parse serialized graph"
  | malformedGraph fault => "Malformed serialized graph: " ++ fault.message
  | cycle scheduled total =>
    s!"Only {scheduled} of {total} Ops could be scheduled, there is a cycle in the graph"
  | chainCycle source target =>
    s!"Constraint {source} -> {target} points backwards along the chain of {target}, " ++
      "there is a cycle in the graph"
  | nonFiniteWeight magnitude => s!"Weight {magnitude} is not finite"
  | costMismatch start window details =>
    s!"Ripple and simple cost evaluation disagree at start {start}, window {window}: {details}"
  | inconsistent fault => "Schedule state is inconsistent: " ++ fault.message
  | passBroke pass cause =>
    "Schedule state is inconsistent: " ++ pass.name ++ " left the graph unschedulable: " ++
      cause.message
  | drift accumulated observed =>
    s!"Accumulated improvements {accumulated} do not match the liveness change {observed}"

def kind : Error → ErrorKind
  | cycle .. | chainCycle .. => .cycle
  | costMismatch .. | inconsistent _ | passBroke .. | drift .. => .internal
  | _ => .structural

end Error

end Liveness
