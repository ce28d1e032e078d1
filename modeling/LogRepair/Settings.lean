import LogRepair.Error

/-!
# Settings

The bounds of a reconciliation cycle and of the loop that runs cycles. Every bound has to be
positive; `Settings.validate` names the first one that is not.
-/

namespace LogRepair

/-- The bounds of cycles and of the loop that runs them. -/
structure Settings where
  batchSize : UInt64 := 10
  maxConcurrentBatches : UInt64 := 4
  maxProposeAttempts : UInt64 := 3
  /-- Whether leading layout segments of equal topology are joined before a proposal. -/
  mergeSegments : Bool := true
  /-- Room of the channel that feeds layout events to the loop. -/
  eventChannelCapacity : UInt64 := 16
deriving DecidableEq, Inhabited

/-- A bound among the settings. -/
inductive Settings.Bound
  | batchSize | maxConcurrentBatches | maxProposeAttempts | eventChannelCapacity
deriving DecidableEq

namespace Settings.Bound

/-- The bounds in the order in which they are checked. -/
def all : List Bound := [batchSize, maxConcurrentBatches, maxProposeAttempts, eventChannelCapacity]

def name : Bound → String
  | batchSize => "batch_size"
  | maxConcurrentBatches => "max_concurrent_batches"
  | maxProposeAttempts => "max_propose_attempts"
  | eventChannelCapacity => "event_channel_capacity"

def value (s : Settings) : Bound → UInt64
  | batchSize => s.batchSize
  | maxConcurrentBatches => s.maxConcurrentBatches
  | maxProposeAttempts => s.maxProposeAttempts
  | eventChannelCapacity => s.eventChannelCapacity

end Settings.Bound

/-- Refuses settings with a bound of zero. -/
def Settings.validate (s : Settings) : Except Error Unit :=
  match Bound.all.find? fun b => b.value s = 0 with
  | some b => .error (.invalidConfig (b.name ++ " must be > 0"))
  | none => .ok ()

end LogRepair
