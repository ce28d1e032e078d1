/-!
# Metrics

Counters of what the cycles of one node did, modulo `2 ^ 64`, and two gauges of what stands
now. `Metrics.failureRate` is the share of the batches that failed.
-/

namespace LogRepair

/-- The counters and gauges of one node. -/
structure Metrics where
  cycles : UInt64 := 0
  batchesSucceeded : UInt64 := 0
  batchesFailed : UInt64 := 0
  addressesTransferred : UInt64 := 0
  /-- Addresses passed over because the local log held them already. -/
  addressesSkipped : UInt64 := 0
  proposalsCommitted : UInt64 := 0
  proposalsRejected : UInt64 := 0
  /-- Segments that the layout came to list for this node. -/
  segmentsRestored : UInt64 := 0
  /-- Segments of the published list that are failed. -/
  segmentsFailed : Int64 := 0
  segmentsInFlight : Int64 := 0
deriving DecidableEq, Inhabited

/-- A value that only grows. -/
inductive Counter
  | cycles | batchesSucceeded | batchesFailed | addressesTransferred | addressesSkipped
  | proposalsCommitted | proposalsRejected | segmentsRestored
deriving DecidableEq

/-- A value that moves both ways. -/
inductive Gauge
  | segmentsFailed | segmentsInFlight
deriving DecidableEq

namespace Metrics

def add (m : Metrics) (c : Counter) (n : UInt64) : Metrics :=
  match c with
  | .cycles => { m with cycles := m.cycles + n }
  | .batchesSucceeded => { m with batchesSucceeded := m.batchesSucceeded + n }
  | .batchesFailed => { m with batchesFailed := m.batchesFailed + n }
  | .addressesTransferred => { m with addressesTransferred := m.addressesTransferred + n }
  | .addressesSkipped => { m with addressesSkipped := m.addressesSkipped + n }
  | .proposalsCommitted => { m with proposalsCommitted := m.proposalsCommitted + n }
  | .proposalsRejected => { m with proposalsRejected := m.proposalsRejected + n }
  | .segmentsRestored => { m with segmentsRestored := m.segmentsRestored + n }

def set (m : Metrics) (g : Gauge) (value : Int64) : Metrics :=
  match g with
  | .segmentsFailed => { m with segmentsFailed := value }
  | .segmentsInFlight => { m with segmentsInFlight := value }

def gauge (m : Metrics) : Gauge → Int64
  | .segmentsFailed => m.segmentsFailed
  | .segmentsInFlight => m.segmentsInFlight

/-- What a gauge reports: its value, or zero below zero. -/
def reading (m : Metrics) (g : Gauge) : UInt64 :=
  if m.gauge g < 0 then 0 else (m.gauge g).toUInt64

/-- Counts a batch that wrote `addresses` addresses. -/
def countBatch (m : Metrics) (succeeded : Bool) (addresses : UInt64) : Metrics :=
  (m.add (if succeeded then .batchesSucceeded else .batchesFailed) 1).add
    .addressesTransferred addresses

def countProposal (m : Metrics) (committed : Bool) : Metrics :=
  m.add (if committed then .proposalsCommitted else .proposalsRejected) 1

/-- The share of the batches that failed; zero when there was none. -/
def failureRate (m : Metrics) : Float :=
  let total := m.batchesSucceeded + m.batchesFailed
  if total = 0 then 0 else m.batchesFailed.toFloat / total.toFloat

/-- A single reading or change of the metrics. -/
inductive Event
  | batch (succeeded : Bool) (addresses : UInt64)
  | proposal (committed : Bool)
  | count (counter : Counter) (n : UInt64)
  | gauge (gauge : Gauge) (value : Int64)

def record (m : Metrics) : Event → Metrics
  | .batch succeeded addresses => m.countBatch succeeded addresses
  | .proposal committed => m.countProposal committed
  | .count c n => m.add c n
  | .gauge g value => m.set g value

end Metrics

end LogRepair
