import LogRepair.Cycle.EventLoop
import LogRepair.Cycle.Run

/-!
# Runs of a service

A run of a service is a run of its coordinator with the loop beside it: the loop receives events
one at a time, its channel closes, it notices a shutdown, and someone else may start cycles by
hand, all in any order. A cycle that the loop drives is begun by the loop only.

* `Service.Moment.ending`: how the cycle of the loop ended, if a moment ended it.
* `Service.Moment.call`: what the loop asked for at a moment.
* `Service.Moment.after_eq_obey`: a moment takes its course with the coordinator first, and then
  the service does what the loop asks for.
-/

namespace LogRepair.Service

/-- Something that happens to a service. -/
inductive Happening
  /-- A cycle is started by hand. -/
  | cycle
  /-- Something else happens to the coordinator. -/
  | step (h : Coordinator.Happening)
  /-- The loop receives an event. -/
  | receive (layout : Layout)
  /-- The loop finds its channel closed. -/
  | close
  /-- The loop looks whether shutdown was signalled. -/
  | notice

namespace Happening

/-- The service lets it happen: events come through the open channel of a loop that is on. -/
def Possible (s : Service) : Happening → Prop
  | step .begin => False
  | step h => h.Possible s.coordinator
  | receive _ | close => s.isListening = true
  | cycle | notice => True

/-- The service afterwards. -/
def apply (s : Service) : Happening → Service
  | cycle => { s with coordinator := s.coordinator.begin.coordinator }
  | step h => (s.accept (h.turn s.coordinator)).1
  | receive layout => s.deliver layout
  | close => s.close
  | notice => s.noticeShutdown

end Happening

/-- A happening and the service before it. -/
structure Moment where
  before : Service
  happening : Happening

namespace Moment

def after (m : Moment) : Service := m.happening.apply m.before

/-- The loop receives an event. -/
def isReceipt (m : Moment) : Bool := m.happening matches .receive _

/-- The coordinator once the moment has taken its course, before the loop has a say. -/
def settled (m : Moment) : Coordinator :=
  match m.happening with
  | .cycle => m.before.coordinator.begin.coordinator
  | .step h => (h.turn m.before.coordinator).coordinator
  | .receive _ | .close | .notice => m.before.coordinator

/-- How the cycle of the loop ended, if the moment ended it. -/
def ending (m : Moment) : Option Outcome :=
  match m.happening with
  | .step h =>
    if m.before.loop.phase = .cycling then (h.turn m.before.coordinator).outcome else none
  | .cycle | .receive _ | .close | .notice => none

/-- The loop after the moment, and what it asks for. -/
def reaction (m : Moment) : EventLoop × Option EventLoop.Call :=
  match m.happening with
  | .receive layout => m.before.loop.receive m.settled.stopped layout
  | .close => (m.before.loop.close, none)
  | .notice => (m.before.loop.notice m.settled.stopped, none)
  | .cycle => (m.before.loop, none)
  | .step _ =>
    match m.ending with
    | none => (m.before.loop, none)
    | some outcome => m.before.loop.cycleEnded m.settled.stopped outcome

/-- What the loop asks for. -/
def call (m : Moment) : Option EventLoop.Call := m.reaction.2

theorem after_eq_obey (m : Moment) : m.after = obey ⟨m.settled, m.before.loop⟩ m.reaction := by
  obtain ⟨s, happening⟩ := m
  cases happening with
  | step h =>
    simp only [after, Happening.apply, accept, reaction, ending, settled]
    cases (h.turn s.coordinator).outcome with
    | none => simp [obey]
    | some outcome => by_cases hphase : s.loop.phase = .cycling <;> simp [hphase, obey]
  | _ => rfl

end Moment

/-- The moments that lead from one service to another, latest first. -/
inductive Run (start : Service) : List Moment → Service → Prop
  | nil : Run start [] start
  | cons {moments : List Moment} {s : Service} (run : Run start moments s) (h : Happening)
      (possible : h.Possible s) : Run start (⟨s, h⟩ :: moments) (h.apply s)

end LogRepair.Service
