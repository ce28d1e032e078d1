import LogRepair.Batch.Cursor
import LogRepair.Cycle.Query
import LogRepair.Metrics
import LogRepair.Tracked.Segment

/-!
# The workload of a cycle

The segments that a cycle copies are its targets. Each is handed out in chunks, the ranges of its
cursor; a target with chunks left goes to the back of the queue, so targets are served in turn.
Workers take the chunks off the queue, each waiting for the replies to its own questions. Every
worker keeps a tally of what came of its chunks, and at the end the tallies of a target decide how
its segment goes on.

* `Tally.note`, `Tally.append`: one more chunk, or the tally of another worker.
* `Workload.take`: the next chunk for the worker at its turn, passing over cancelled targets.
* `Workload.park`, `Workload.hire`, `Workload.retire`: a worker waits, begins or ends.
* `Workload.cancelUnneeded`: targets that no needed segment overlaps are cut short.
* `Target.close`: the segment of a target after its tallies.
-/

namespace LogRepair

/-- What came of one chunk of a target. -/
inductive ChunkOutcome
  /-- `present` addresses were held already, and the rest went through a batch. -/
  | processed (present : UInt64) (result : BatchResult)
  | held (present : UInt64)
  /-- The target was cut short before the chunk was handed out. -/
  | dropped
deriving DecidableEq

namespace ChunkOutcome

/-- The outcome of a chunk whose held addresses could not be read. -/
def unreadable (sources : List NodeId) (e : Error) : ChunkOutcome :=
  .processed 0 (.failed (Batch.empty.withSources sources) (.ofError e))

def count (m : Metrics) : ChunkOutcome → Metrics
  | .processed present result =>
    (m.add .addressesSkipped present).countBatch result.isSuccess result.transferred
  | .held present => m.add .addressesSkipped present
  | .dropped => m

end ChunkOutcome

/-- The result of a batch of which the reply lists `returned` as written. Addresses that were not
asked for do not count. -/
def BatchResult.ofWritten (batch : Batch) (returned : List Address) : BatchResult :=
  let written := batch.addresses.filter returned.contains
  if written.length = batch.size then .succeeded batch
  else
    let first := batch.first?.getD noAddress
    let count := written.length
    let size := batch.size
    .failed { batch with addresses := written }
      ⟨s!"wrote {count} of {size} addresses in batch starting at {first}"⟩

/-- The result of a batch that could not be copied. -/
def BatchResult.ofError (batch : Batch) (e : Error) : BatchResult :=
  .failed { batch with addresses := [] } (.ofError e)

/-! ## Tallies -/

/-- What the chunks of one target came to. -/
structure Tally where
  present : UInt64 := 0
  written : UInt64 := 0
  failure : Option Failure := none
  /-- The target was cut short while chunks were left. -/
  cancelled : Bool := false
deriving DecidableEq, Inhabited

namespace Tally

/-- The tally with the outcome of one more chunk. -/
def note (t : Tally) : ChunkOutcome → Tally
  | .processed present result =>
    { t with
      present := t.present + present
      written := t.written + result.transferred
      failure := t.failure.or result.failure }
  | .held present => { t with present := t.present + present }
  | .dropped => { t with cancelled := true }

/-- The tallies of two workers in one. -/
def append (t u : Tally) : Tally :=
  ⟨t.present + u.present, t.written + u.written, t.failure.or u.failure,
    t.cancelled || u.cancelled⟩

/-- The tally of a worker that saw these outcomes, one after another. -/
def ofOutcomes (outcomes : List ChunkOutcome) : Tally := outcomes.foldl note {}

/-- The tallies of the workers with the outcome of one more chunk of one of them. -/
def noteFor (worker : Nat) (o : ChunkOutcome) : List (Nat × Tally) → List (Nat × Tally)
  | [] => [(worker, note {} o)]
  | (k, t) :: rest => if k = worker then (k, t.note o) :: rest else (k, t) :: noteFor worker o rest

/-- The tallies of all workers in one, in the order in which the workers ended. -/
def ofWorkers (tallies : List Tally) : Tally := tallies.foldl append {}

/-- The addresses of the target that the local log holds now. -/
def total (t : Tally) : UInt64 := t.present + t.written

end Tally

/-! ## Targets -/

/-- A segment that a cycle copies. -/
structure Target where
  /-- The segment as it was before. -/
  segment : TrackedSegment
  sources : List NodeId
  cursor : Cursor
  /-- No further chunk is to be handed out. -/
  cancelled : Bool
  /-- The tallies of its workers; those that have ended come last, in the order of their ends. -/
  tallies : List (Nat × Tally) := []
deriving DecidableEq, Inhabited

namespace Target

/-- What all chunks of the target came to. -/
def tally (t : Target) : Tally := Tally.ofWorkers (t.tallies.map (·.2))

/-- The segment after its tallies, and whether it was cut short. -/
def close (t : Target) : Except Error (TrackedSegment × Bool) :=
  let tally := t.tally
  if tally.cancelled then (·, true) <$> t.segment.interrupted tally.total
  else (·, false) <$> t.segment.attempted tally.total tally.failure

/-- Adds the outcome of a chunk that a worker was given. -/
def note (t : Target) (worker : Nat) (o : ChunkOutcome) : Target :=
  { t with tallies := Tally.noteFor worker o t.tallies }

/-- Puts the tally of a worker that has ended behind the others. -/
def retire (t : Target) (worker : Nat) : Target :=
  { t with
    tallies := t.tallies.filter (·.1 != worker) ++ t.tallies.filter (·.1 == worker) }

end Target

/-! ## Workers -/

/-- What a worker waits for. -/
inductive Errand
  /-- To know which addresses of a chunk of a target are held. -/
  | checking (target : Nat) (span : Span)
  /-- To have the rest of a chunk copied, `present` addresses of which are held. -/
  | copying (target : Nat) (present : UInt64) (batch : Batch)
deriving DecidableEq

/-- The targets of a cycle, the order in which they are served, and the workers that do it. One
worker is at its turn; what that one waits for is not kept here. -/
structure Workload where
  targets : List Target
  /-- The places in `targets` of those with chunks left, next first. -/
  queue : List Nat
  /-- The workers that have not begun; they are numbered downwards as they begin. -/
  spareWorkers : Nat
  /-- The worker at its turn. -/
  worker : Nat
  /-- The workers that wait besides. -/
  others : List (Nat × Errand) := []
  /-- A worker died. -/
  crashed : Bool := false
deriving DecidableEq, Inhabited

namespace Workload

/-- A workload with nothing handed out. -/
def ofTargets (targets : List Target) (workers : Nat) : Workload :=
  ⟨targets, List.range targets.length, workers - 1, workers - 1, [], false⟩

/-- The next chunk of the targets in the queue: its target, its span and what is queued behind
it. A cancelled target leaves the queue with what it has. -/
def takeFrom (worker : Nat) (targets : List Target) :
    List Nat → List Target × Option (Nat × Span × List Nat)
  | [] => (targets, none)
  | i :: queue =>
    match targets[i]? with
    | none => takeFrom worker targets queue
    | some t =>
      if t.cancelled then takeFrom worker (targets.set i (t.note worker .dropped)) queue
      else
        match t.cursor.next? with
        | none => takeFrom worker targets queue
        | some (span, cursor) =>
          (targets.set i { t with cursor },
            some (i, span, if cursor.isDone then queue else queue ++ [i]))

/-- The worker at its turn takes the next chunk off the queue: its target and its span. -/
def take (w : Workload) : Workload × Option (Nat × Span) :=
  match takeFrom w.worker w.targets w.queue with
  | (targets, some (i, span, queue)) => ({ w with targets, queue }, some (i, span))
  | (targets, none) => ({ w with targets, queue := [] }, none)

def note (w : Workload) (i : Nat) (o : ChunkOutcome) : Workload :=
  { w with targets := w.targets.modify i (·.note w.worker o) }

def sources (w : Workload) (i : Nat) : List NodeId := (w.targets[i]?.map (·.sources)).getD []

/-- The worker at its turn waits besides the others. -/
def park (w : Workload) (errand : Errand) : Workload :=
  { w with others := w.others ++ [(w.worker, errand)] }

/-- A spare worker begins, and it is its turn. -/
def hire (w : Workload) : Workload :=
  { w with worker := w.spareWorkers - 1, spareWorkers := w.spareWorkers - 1 }

/-- The worker at its turn has found the queue empty and ends. -/
def retire (w : Workload) : Workload := { w with targets := w.targets.map (·.retire w.worker) }

def cancelAll (w : Workload) : Workload :=
  { w with targets := w.targets.map ({ · with cancelled := true }) }

/-- Whether a target may be cut short: no needed segment overlaps it, and it was not cut short
before. -/
def isUnneeded (needed : List TrackedSegment) (t : Target) : Bool :=
  !needed.any (·.overlaps t.segment) && !t.cancelled

/-- Cuts the targets short that no needed segment overlaps, and counts them. -/
def cancelUnneeded (w : Workload) (needed : List TrackedSegment) : Workload × Nat :=
  ({ w with
      targets := w.targets.map fun t =>
        if isUnneeded needed t then { t with cancelled := true } else t },
    w.targets.countP (isUnneeded needed))

def close (w : Workload) : Except Error (List (TrackedSegment × Bool)) :=
  w.targets.mapM Target.close

end Workload

end LogRepair
