import LogRepair.Cycle.EventLoop
import LogRepair.Simulation.World

/-!
# Rehearsals

A scenario runs one service in a scripted world, step by step. Hooks act in the middle of a
cycle, when a question of a given kind is asked for the n-th time. `Scenario.advance` makes one
move: it begins the next step, answers the open question of the running cycle, or ends the step.
A step has ended once no cycle runs any more, and only then is the state read.

* `Scenario.act`: what an action does, in a step or in a hook.
* `Scenario.answers`: what the steps so far gave.
-/

namespace LogRepair

/-- The kind of a question. -/
inductive QueryKind
  | layout | trimMark | present | transfer | propose
deriving DecidableEq, Inhabited

def Query.kind : Query → QueryKind
  | .layout => .layout
  | .trimMark => .trimMark
  | .present _ => .present
  | .transfer _ => .transfer
  | .propose _ => .propose

namespace Scenario

/-- What a step or a hook does. -/
inductive Action
  | cycle
  | layoutChange (layout : Layout)
  | segments
  | metrics
  | shutdown
  | event (layout : Layout)
  | close
  | startLoop
  | state
  | change (change : World.Change)

def Action.isReported : Action → Bool
  | cycle | layoutChange _ | shutdown | event _ | close | startLoop | state => true
  | segments | metrics | change _ => false

inductive Result
  | nothing
  | flag (value : Bool)
  | count (n : Nat)
  | report (summary : Report)
  | refused (error : Error)
  | segments (segments : List TrackedSegment)
  | metrics (metrics : Metrics)

/-- The result of a cycle that is over. -/
def Result.ofOutcome : Outcome → Result
  | .ok summary => .report summary
  | .error e => .refused e

/-- An action in the middle of a cycle. -/
structure Hook where
  kind : QueryKind
  turn : Nat
  action : Action

/-- What was observed since the state was read last. -/
structure Records where
  requests : List Batch := []
  queries : List Span := []
  proposals : List Layout := []
  hooks : List (QueryKind × Nat × Result) := []

/-- The records with a question that is about to be answered. -/
def Records.note (r : Records) : Query → Records
  | .layout | .trimMark => r
  | .present span => { r with queries := r.queries ++ [span] }
  | .transfer batch => { r with requests := r.requests ++ [batch] }
  | .propose layout => { r with proposals := r.proposals ++ [layout] }

inductive LoopStatus
  /-- None was started, or its end was told before. -/
  | absent
  | running
  | ended

/-- The state as it is read after a step. -/
structure Reading where
  segments : List TrackedSegment
  failed : List TrackedSegment
  metrics : Metrics
  layout : Layout
  /-- The epochs of the proposals that were committed so far. -/
  commits : List Epoch
  records : Records
  loop : LoopStatus

structure Answer where
  result : Result
  reading : Option Reading

end Scenario

open Scenario in
/-- A rehearsal at some point. -/
structure Scenario where
  service : Service
  world : World
  hooks : List Hook
  steps : List Action
  /-- The step that is under way, and what it gave so far. -/
  current : Option (Action × Result) := none
  /-- The kinds of the questions asked so far. -/
  asked : List QueryKind := []
  records : Records := {}
  /-- A loop was started whose end was not told yet. -/
  loopUntold : Bool := false
  answers : List Answer := []

namespace Scenario

/-- The rehearsal of a node with a layout in the store; refused if the settings are unusable. -/
def start (node : NodeId) (settings : Settings) (layout : Layout) (hooks : List Hook)
    (steps : List Action) : Except Error Scenario :=
  let world : World := { store := { layout } }
  (fun coordinator => { service := { coordinator }, world, hooks, steps })
    <$> Coordinator.create node settings

def isOver (s : Scenario) : Bool :=
  s.steps.isEmpty && s.current.isNone && s.service.coordinator.stage.isNone

def withCoordinator (s : Scenario) (coordinator : Coordinator) : Scenario :=
  { s with service := { s.service with coordinator } }

/-- Performs an action. A cycle is only begun. -/
def act (s : Scenario) : Action → Scenario × Result
  | .cycle =>
    let turn := s.service.coordinator.begin
    (s.withCoordinator turn.coordinator, (turn.outcome.map Result.ofOutcome).getD .nothing)
  | .layoutChange layout =>
    let (coordinator, count) := s.service.coordinator.adaptTo layout
    (s.withCoordinator coordinator,
      match count with
      | .ok n => .count n
      | .error e => .refused e)
  | .segments => (s, .segments s.service.coordinator.tracked)
  | .metrics => (s, .metrics s.service.coordinator.metrics)
  | .shutdown => (s.withCoordinator s.service.coordinator.shutdown, .flag true)
  | .event layout =>
    if s.service.isListening then
      ({ s with service := s.service.deliver layout }, .flag true)
    else (s, .flag false)
  | .close => ({ s with service := s.service.close }, .nothing)
  | .startLoop =>
    ({ s with service := s.service.startLoop, loopUntold := true },
      .count s.service.coordinator.settings.eventChannelCapacity.toNat)
  | .state => (s, .nothing)
  | .change change => ({ s with world := s.world.change change }, .nothing)

/-- Whether the loop comes to run before the action returns. -/
def Action.letsLoopRun : Action → Bool
  | .event _ | .close => true
  | _ => false

def runHook (turn : Nat) (s : Scenario) (hook : Hook) : Scenario :=
  let (s, result) := s.act hook.action
  let s := if hook.action.letsLoopRun then { s with service := s.service.noticeShutdown } else s
  { s with records := { s.records with hooks := s.records.hooks ++ [(hook.kind, turn, result)] } }

/-- Notes a question and runs the hooks that wait for it. -/
def observe (s : Scenario) (q : Query) : Scenario :=
  let asked := q.kind :: s.asked
  let turn := asked.count q.kind
  let due := s.hooks.filter fun hook => hook.kind = q.kind && hook.turn = turn
  due.foldl (runHook turn) { s with asked, records := s.records.note q }

/-- Takes a step of a cycle. -/
def accept (s : Scenario) (turn : Turn) : Scenario :=
  match s.service.accept turn with
  | (service, none) => { s with service }
  | (service, some outcome) =>
    { s with
      service
      current := s.current.map fun (action, _) => (action, .ofOutcome outcome) }

/-- Answers the question that is open at a stage. -/
def reply (s : Scenario) (stage : Stage) : Scenario :=
  let (world, reply) := s.world.answer stage.query
  let s := { s with world }.accept (s.service.coordinator.resume stage reply)
  -- The workers start after the trim mark was read, and a waiting loop gets its turn then.
  if stage matches .readingTrimMark _ then { s with service := s.service.noticeShutdown } else s

def loopStatus (s : Scenario) : LoopStatus :=
  if s.service.loop.phase != .off then .running
  else if s.loopUntold then .ended
  else .absent

def reading (s : Scenario) : Reading where
  segments := s.service.coordinator.tracked
  failed := s.service.coordinator.failures
  metrics := s.service.coordinator.metrics
  layout := s.world.store.layout
  commits := s.world.store.committed.map (·.epoch)
  records := s.records
  loop := s.loopStatus

def endStep (s : Scenario) (action : Action) (result : Result) : Scenario :=
  let s := { s with service := s.service.noticeShutdown, current := none }
  if action.isReported then
    { s with
      answers := s.answers ++ [⟨result, some s.reading⟩]
      records := {}
      loopUntold := s.loopUntold && s.service.loop.phase != .off }
  else { s with answers := s.answers ++ [⟨result, none⟩] }

/-- One move of the rehearsal. -/
def advance (s : Scenario) : Scenario :=
  match s.service.coordinator.stage with
  | some stage =>
    let s := s.observe stage.query
    match s.service.coordinator.stage with
    | some stage => s.reply stage
    | none => s
  | none =>
    match s.current with
    | some (action, result) => s.endStep action result
    | none =>
      match s.steps with
      | [] => s
      | action :: steps =>
        let (s, result) := { s with steps }.act action
        { s with current := some (action, result) }

end Scenario

end LogRepair
