import LogRepair.Cycle.Coordinator

/-!
# The event loop

The loop runs a cycle for each layout event. An event that arrives during a cycle first cuts
the work short that the new layout does not need, and then asks for one more cycle once the
present one is over. The loop ends when its channel is closed, after a shutdown, or when a cycle
says that it was cancelled.

The loop itself only keeps its flags. Whatever it wants done it asks for by an `EventLoop.Call`.
A `Service` is a coordinator together with the loop that drives it, and carries the calls out.
Cycles can also be started by hand; while one of those runs, a cycle of the loop is refused like
any other.
-/

namespace LogRepair

/-- What the loop is about. -/
inductive EventLoop.Phase
  | off
  | waiting
  | cycling
deriving DecidableEq, Inhabited

/-- What the loop asks of the coordinator. -/
inductive EventLoop.Call
  /-- To run a cycle. -/
  | cycle
  /-- To take note of a newer layout during a cycle. -/
  | adapt (layout : Layout)
deriving DecidableEq

/-- The loop that runs a cycle for each event. -/
structure EventLoop where
  phase : EventLoop.Phase := .off
  /-- An event came during the present cycle. -/
  pending : Bool := false
  /-- No event will come any more. -/
  closed : Bool := false
deriving DecidableEq, Inhabited

namespace EventLoop

/-- Whether the channel takes an event. -/
def isListening (l : EventLoop) : Bool := l.phase != .off && !l.closed

def stop (l : EventLoop) : EventLoop := { l with phase := .off }

/-- The loop waits for the next event, unless none can come. -/
def rest (l : EventLoop) (stopped : Bool) : EventLoop :=
  if l.closed || stopped then l.stop else { l with phase := .waiting }

/-- The loop begins a cycle, which settles all events that came so far. -/
def launch (l : EventLoop) : EventLoop × Option Call :=
  ({ l with phase := .cycling, pending := false }, some .cycle)

/-- The loop after an event; `stopped` tells whether shutdown was signalled. -/
def receive (l : EventLoop) (stopped : Bool) (layout : Layout) : EventLoop × Option Call :=
  match l.phase with
  | .off => (l, none)
  | .waiting => if stopped then (l.stop, none) else l.launch
  | .cycling => ({ l with pending := true }, some (.adapt layout))

/-- The loop after the cycle that it drove. -/
def cycleEnded (l : EventLoop) (stopped : Bool) (outcome : Outcome) : EventLoop × Option Call :=
  if outcome matches .error .cancelled then (l.stop, none)
  else if l.pending && !stopped then l.launch
  else (l.rest stopped, none)

def close (l : EventLoop) : EventLoop :=
  match l.phase with
  | .off => l
  | .waiting => { l with closed := true }.stop
  | .cycling => { l with closed := true }

/-- A waiting loop notices a shutdown. -/
def notice (l : EventLoop) (stopped : Bool) : EventLoop :=
  if l.phase = .waiting && stopped then l.stop else l

end EventLoop

/-- A coordinator and the loop that drives it. -/
structure Service where
  coordinator : Coordinator
  loop : EventLoop := {}
deriving DecidableEq, Inhabited

namespace Service

def isListening (s : Service) : Bool := s.loop.isListening

def startLoop (s : Service) : Service := { s with loop := { phase := .waiting } }

/-- Does what the loop asks for. A cycle that is refused at once has ended for the loop, which
asks for nothing then, since no event is pending. -/
def obey (s : Service) : EventLoop × Option EventLoop.Call → Service
  | (loop, none) => { s with loop }
  | (loop, some (.adapt layout)) => ⟨(s.coordinator.adaptTo layout).1, loop⟩
  | (loop, some .cycle) =>
    let turn := s.coordinator.begin
    match turn.outcome with
    | none => ⟨turn.coordinator, loop⟩
    | some outcome =>
      ⟨turn.coordinator, (loop.cycleEnded turn.coordinator.stopped outcome).1⟩

def deliver (s : Service) (layout : Layout) : Service :=
  s.obey (s.loop.receive s.coordinator.stopped layout)

def close (s : Service) : Service := { s with loop := s.loop.close }

def noticeShutdown (s : Service) : Service :=
  { s with loop := s.loop.notice s.coordinator.stopped }

/-- Takes a step of a cycle into the service: the end of a cycle of the loop goes to the loop, and
the end of one started by hand is handed back. -/
def accept (s : Service) (turn : Turn) : Service × Option Outcome :=
  let s := { s with coordinator := turn.coordinator }
  match turn.outcome with
  | none => (s, none)
  | some outcome =>
    if s.loop.phase = .cycling then
      (s.obey (s.loop.cycleEnded s.coordinator.stopped outcome), none)
    else (s, some outcome)

end Service

end LogRepair
