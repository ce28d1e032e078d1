import LogRepair.Cycle.Listing
import LogRepair.Cycle.Workload
import LogRepair.Settings
import LogRepair.Tracked.Reconcile

/-!
# Reconciliation cycles

A coordinator restores the redundancy of one node, cycle by cycle. A cycle reads the layout and
the trim mark, reconciles what is tracked with what the layout requires, copies the segments
that need it, and proposes a layout that lists the node for what is copied.

A cycle is a state machine. `Coordinator.begin` starts it, and after that it either waits for
the reply to a question (`Stage.query`) or is over; `Coordinator.resume` takes it from a reply
to the next question or to its end. Between two replies the coordinator can be told of a newer
layout (`Coordinator.adaptTo`) or be shut down (`Coordinator.shutdown`).

While it copies, several workers wait at once. The stage is that of the worker at its turn; the
turn can pass to any other (`Coordinator.switch`), a spare worker can begin
(`Coordinator.hire`), and once a worker has died the others can be left behind
(`Coordinator.abandon`).

* A cycle fails if another is running, after a shutdown, if the layout or the trim mark cannot
  be read, or if a worker dies. Failed copies and refused proposals do not fail it.
* The tracked list is published at once, at the end of a cycle.
-/

namespace LogRepair

/-- The summary of a cycle. -/
structure Report where
  epoch : Epoch
  trimMark : Address
  /-- Segments that needed an attempt to copy them. -/
  candidates : Nat
  /-- Candidates with every address copied. -/
  transferred : Nat := 0
  /-- Candidates whose attempt failed. -/
  failed : Nat := 0
  /-- Candidates cut short. -/
  cancelled : Nat := 0
  /-- Segments restored by the layout that the cycle committed or found. -/
  restored : Nat := 0
  committedEpoch : Option Epoch := none
deriving DecidableEq, Inhabited

abbrev Outcome := Except Error Report

/-- The tracked list that a cycle works on, before it is published. -/
structure Draft where
  layout : Layout
  trimMark : Address
  tracked : List TrackedSegment
  report : Report
  /-- Segments that waited for the layout when the copying was over. -/
  awaiting : Nat := 0
deriving DecidableEq, Inhabited

/-- The point at which a cycle waits for a reply. -/
inductive Stage
  | readingLayout
  | readingTrimMark (layout : Layout)
  /-- Asking which addresses of a chunk of a target are held. -/
  | checking (draft : Draft) (work : Workload) (target : Nat) (span : Span)
  /-- Copying the rest of a chunk, `present` addresses of which are held. -/
  | copying (draft : Draft) (work : Workload) (target : Nat) (present : UInt64) (batch : Batch)
  /-- Proposing a layout, made from `base`, that lists the node for the ready segments; so many
  further attempts are left. -/
  | proposing (draft : Draft) (base : Layout) (ready : List TrackedSegment) (proposal : Layout)
    (left : Nat)
  /-- Reading the layout anew after a refused proposal. -/
  | refreshing (draft : Draft) (left : Nat)
deriving DecidableEq

namespace Stage

def query : Stage → Query
  | readingLayout => .layout
  | readingTrimMark _ => .trimMark
  | checking _ _ _ span => .present span
  | copying _ _ _ _ batch => .transfer batch
  | proposing _ _ _ proposal _ => .propose proposal
  | refreshing _ _ => .layout

/-- The workload of a stage that copies. -/
def workload? : Stage → Option Workload
  | checking _ work _ _ | copying _ work _ _ _ => some work
  | readingLayout | readingTrimMark _ | proposing _ _ _ _ _ | refreshing _ _ => none

/-- The draft, the workload and the errand of a stage that copies. -/
def errand? : Stage → Option (Draft × Workload × Errand)
  | checking draft work i span => some (draft, work, .checking i span)
  | copying draft work i present batch => some (draft, work, .copying i present batch)
  | readingLayout | readingTrimMark _ | proposing _ _ _ _ _ | refreshing _ _ => none

/-- The stage with another workload, if it copies. -/
def withWorkload (s : Stage) (work : Workload) : Stage :=
  match s with
  | checking draft _ i span => checking draft work i span
  | copying draft _ i present batch => copying draft work i present batch
  | s => s

end Stage

/-- The stage at which the worker at its turn waits. -/
def Errand.stage (draft : Draft) (work : Workload) : Errand → Stage
  | checking i span => .checking draft work i span
  | copying i present batch => .copying draft work i present batch

/-- The restoration of one node. -/
structure Coordinator where
  node : NodeId
  settings : Settings
  /-- The published list. -/
  tracked : List TrackedSegment := []
  /-- The trim mark that was read last. -/
  trimMark : Address := noAddress
  metrics : Metrics := {}
  /-- Shutdown was signalled. -/
  stopped : Bool := false
  /-- Where the running cycle waits, if one is running. -/
  stage : Option Stage := none
deriving DecidableEq, Inhabited

/-- A coordinator after a step of a cycle, with the end of the cycle if this was it. -/
structure Turn where
  coordinator : Coordinator
  outcome : Option Outcome

def countIn (state : CopyState) (tracked : List TrackedSegment) : Nat :=
  tracked.countP (·.state = state)

namespace Coordinator

/-- A coordinator that tracks nothing yet; refused if the settings are unusable. -/
def create (node : NodeId) (settings : Settings) : Except Error Coordinator :=
  (fun _ => { node, settings }) <$> settings.validate

/-- The published segments whose last attempt failed. -/
def failures (c : Coordinator) : List TrackedSegment := c.tracked.filter (·.state = .failed)

/-! ## Ends of a step -/

def wait (c : Coordinator) (s : Stage) : Turn := ⟨{ c with stage := some s }, none⟩

def finish (c : Coordinator) (outcome : Outcome) : Turn :=
  ⟨{ c with stage := none }, some outcome⟩

def publish (c : Coordinator) (tracked : List TrackedSegment) : Coordinator :=
  { c with
    tracked
    metrics := c.metrics.set .segmentsFailed (.ofNat (countIn .failed tracked)) }

/-! ## Listing the copied segments -/

/-- Publishes the draft of a cycle that ran to its end. -/
def conclude (c : Coordinator) (d : Draft) : Turn :=
  let report := { d.report with restored := d.awaiting - countIn .transferred d.tracked }
  let c := c.publish d.tracked
  { c with metrics := c.metrics.add .cycles 1 }.finish (.ok report)

/-- Marks the ready segments of the draft as restored. A list that cannot be marked stays. -/
def settle (c : Coordinator) (d : Draft) (ready : List TrackedSegment)
    (committed : Option Epoch) : Turn :=
  match Listing.markListed ready d.tracked with
  | .error _ => c.conclude d
  | .ok tracked =>
    let count : UInt64 := .ofNat (d.tracked.countP (Listing.isReady ready))
    { c with metrics := c.metrics.add .segmentsRestored count }.conclude
      { d with tracked, report := { d.report with committedEpoch := committed } }

/-- Lists the ready segments in a layout made from a base, with so many attempts to propose it. -/
def attempt (c : Coordinator) (d : Draft) (base : Layout) : Nat → Turn
  | 0 => c.conclude d
  | left + 1 =>
    match Listing.plan c.node c.settings.mergeSegments d.tracked base d.trimMark with
    | .incomplete => c.conclude d
    | .reflected ready => c.settle d ready none
    | .propose ready proposal => c.wait (.proposing d base ready proposal left)

/-- Begins to list the copied segments in the layout, if a segment waits for that. -/
def listCopied (c : Coordinator) (d : Draft) : Turn :=
  let awaiting := countIn .transferred d.tracked
  if awaiting = 0 then c.conclude d
  else c.attempt { d with awaiting } d.layout c.settings.maxProposeAttempts.toNat

/-! ## Copying -/

/-- Goes on once the copying is over. A shutdown ends the cycle instead. -/
def afterCopying (c : Coordinator) (d : Draft) : Turn :=
  if c.stopped then (c.publish d.tracked).finish (.error .cancelled) else c.listCopied d

/-- The tracked list with the segments that needed a copy replaced, one after another. -/
def replaceCandidates : List TrackedSegment → List TrackedSegment → List TrackedSegment
  | s :: rest, u :: updates =>
    if s.isDue then u :: replaceCandidates rest updates
    else s :: replaceCandidates rest (u :: updates)
  | rest, [] => rest
  | [], _ => []

/-- The report with the fates of the candidates. -/
def tallyFates (r : Report) (fates : List (TrackedSegment × Bool)) : Report :=
  let kept := (fates.filter (!·.2)).map (·.1)
  { r with
    cancelled := fates.countP (·.2)
    transferred := countIn .transferred kept
    failed := countIn .failed kept }

/-- Takes the results of a workload that is through. -/
def closeWorkload (c : Coordinator) (d : Draft) (w : Workload) : Turn :=
  let c := { c with metrics := c.metrics.set .segmentsInFlight 0 }
  if w.crashed then c.finish (.error .workerCrashed)
  else
    match w.close with
    | .error e => c.finish (.error e)
    | .ok fates =>
      c.afterCopying
        { d with
          tracked := replaceCandidates d.tracked (fates.map (·.1))
          report := tallyFates d.report fates }

/-- Passes the turn of a worker that is gone to one that waits. -/
def passTurn (c : Coordinator) (d : Draft) (w : Workload) : Turn :=
  match w.others with
  | (worker, errand) :: others => c.wait (errand.stage d { w with worker, others })
  | [] => c.closeWorkload d w

/-- Goes on with the next chunk of the workload. -/
def nextChunk (c : Coordinator) (d : Draft) (w : Workload) : Turn :=
  match w.take with
  | (w, some (i, span)) => c.wait (.checking d w i span)
  | (w, none) => c.passTurn d w.retire

/-- Goes on after the death of the worker at its turn. A spare one must begin if no other waits. -/
def loseWorker (c : Coordinator) (d : Draft) (w : Workload) : Turn :=
  let w := { w with crashed := true }
  if w.others.isEmpty && w.spareWorkers != 0 then c.nextChunk d w.hire else c.passTurn d w

def noteChunk (c : Coordinator) (d : Draft) (w : Workload) (i : Nat) (o : ChunkOutcome) : Turn :=
  { c with metrics := o.count c.metrics }.nextChunk d (w.note i o)

def targetOf (c : Coordinator) (layout : Layout) (s : TrackedSegment) : Target where
  segment := s
  sources := layout.sources c.node s.toSpan
  cursor := .ofSpan s.toSpan c.settings.batchSize
  cancelled := c.stopped

/-- Begins to copy the segments of the draft that need it. -/
def copy (c : Coordinator) (d : Draft) : Turn :=
  match d.tracked.filter (·.isDue) with
  | [] => c.afterCopying d
  | candidates =>
    let targets := candidates.map (c.targetOf d.layout)
    { c with metrics := c.metrics.set .segmentsInFlight (.ofNat targets.length) }.nextChunk d
      (.ofTargets targets c.settings.maxConcurrentBatches.toNat)

/-- Takes the reply to the question which addresses of a chunk are held. A chunk whose ends are
the wrong way round has no addresses to compare with, so any reported one kills the worker. -/
def resumeChecking (c : Coordinator) (d : Draft) (w : Workload) (i : Nat) (span : Span) :
    Except Error (List Address) → Turn
  | .error e => c.noteChunk d w i (.unreadable (w.sources i) e)
  | .ok present =>
    let held : UInt64 := .ofNat (span.toList.countP present.contains)
    let batch := Batch.missing span present
    if span.last < span.first && !present.isEmpty then c.loseWorker d w
    else if batch.isEmpty then c.noteChunk d w i (.held held)
    else c.wait (.copying d w i held (batch.withSources (w.sources i)))

def resumeCopying (c : Coordinator) (d : Draft) (w : Workload) (i : Nat) (present : UInt64)
    (batch : Batch) : TransferReply → Turn
  | .written addresses => c.noteChunk d w i (.processed present (.ofWritten batch addresses))
  | .failed e => c.noteChunk d w i (.processed present (.ofError batch e))
  | .crashed => c.loseWorker d w

/-! ## The cycle -/

/-- What a cycle works on: the published list reconciled with the requirement of the layout,
without what lies behind the trim mark. -/
def draft (c : Coordinator) (layout : Layout) (trimMark : Address) : Except Error Draft := do
  let required ← layout.requirement c.node trimMark
  let merged ← reconcile c.tracked required
  let tracked := merged.filter fun s => trimMark < s.last
  return {
    layout, trimMark, tracked
    report := {
      epoch := layout.epoch, trimMark
      candidates := tracked.countP (·.isDue) } }

/-- Starts a cycle, unless one is running or the coordinator was shut down. -/
def begin (c : Coordinator) : Turn :=
  if c.stage.isSome then ⟨c, some (.error .cycleInProgress)⟩
  else if c.stopped then ⟨c, some (.error .cancelled)⟩
  else c.wait .readingLayout

/-- Takes the reply to the question of a stage. -/
def resume (c : Coordinator) : (s : Stage) → s.query.Reply → Turn
  | .readingLayout, .error e => c.finish (.error e)
  | .readingLayout, .ok layout => c.wait (.readingTrimMark layout)
  | .readingTrimMark _, .error e => c.finish (.error e)
  | .readingTrimMark layout, .ok trimMark =>
    let c := { c with trimMark }
    match c.draft layout trimMark with
    | .error e => c.finish (.error e)
    | .ok d => c.copy d
  | .checking d w i span, reply => c.resumeChecking d w i span reply
  | .copying d w i present batch, reply => c.resumeCopying d w i present batch reply
  | .proposing d _ ready proposal _, .ok () =>
    { c with metrics := c.metrics.countProposal true }.settle d ready (some proposal.epoch)
  | .proposing d _ _ _ left, .error (.staleEpoch _ _) =>
    { c with metrics := c.metrics.countProposal false }.wait (.refreshing d left)
  | .proposing d _ _ _ _, .error _ => c.conclude d
  | .refreshing d left, .ok base => c.attempt d base left
  | .refreshing d _, .error _ => c.conclude d

/-! ## Between two replies -/

/-- Passes the turn to another worker that waits. -/
def switch (c : Coordinator) (k : Nat) : Turn :=
  match c.stage.bind Stage.errand? with
  | none => ⟨c, none⟩
  | some (d, w, errand) =>
    match w.others[k]? with
    | none => ⟨c, none⟩
    | some (worker, errand') =>
      c.wait (errand'.stage d { w with worker, others := w.others.set k (w.worker, errand) })

/-- Lets a spare worker begin. -/
def hire (c : Coordinator) : Turn :=
  match c.stage.bind Stage.errand? with
  | none => ⟨c, none⟩
  | some (d, w, errand) =>
    if w.spareWorkers = 0 then ⟨c, none⟩ else c.nextChunk d (w.park errand).hire

/-- Ends the copying once a worker has died, and leaves the others behind. -/
def abandon (c : Coordinator) : Turn :=
  match c.stage.bind Stage.workload? with
  | none => ⟨c, none⟩
  | some w =>
    if w.crashed then
      { c with metrics := c.metrics.set .segmentsInFlight 0 }.finish (.error .workerCrashed)
    else ⟨c, none⟩

/-- Cuts the targets short that a newer layout no longer requires, and counts them. What is
already handed out runs to its end and is credited. -/
def adaptTo (c : Coordinator) (layout : Layout) : Coordinator × Except Error Nat :=
  match layout.requirement c.node c.trimMark with
  | .error e => (c, .error e)
  | .ok required =>
    match c.stage with
    | none => (c, .ok 0)
    | some stage =>
      match stage.workload? with
      | none => (c, .ok 0)
      | some work =>
        let (work, count) := work.cancelUnneeded (required.filter (·.isDue))
        ({ c with stage := some (stage.withWorkload work) }, .ok count)

/-- Signals shutdown: every target of a running cycle is cut short. -/
def shutdown (c : Coordinator) : Coordinator :=
  { c with
    stopped := true
    stage := c.stage.map fun stage =>
      match stage.workload? with
      | none => stage
      | some work => stage.withWorkload work.cancelAll }

end Coordinator

end LogRepair
