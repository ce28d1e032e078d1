import LogRepair.Cycle.Coordinator
import LogRepair.Layout.View

/-!
# Runs of a coordinator

A run is whatever may happen to a coordinator: cycles are begun, open questions get any reply,
newer layouts are announced, and shutdown is signalled, in any order, while the workers of a cycle
take turns as they like. `Coordinator.Run` records each happening together with the coordinator
before it, so that a statement about a run can speak of what was asked, answered and published on
the way.

* `Coordinator.Run.sameTask`: a run changes neither the node nor its settings.
-/

namespace LogRepair

/-- The worker that waits for the reply dies of it. -/
def Stage.losesWorker : (s : Stage) → s.query.Reply → Bool
  | .checking _ _ _ span, .ok present => span.last < span.first && !present.isEmpty
  | .copying _ _ _ _ _, .crashed => true
  | _, _ => false

namespace Coordinator

/-- Something that happens to a coordinator. -/
inductive Happening
  | begin
  | reply (stage : Stage) (answer : stage.query.Reply)
  | announce (layout : Layout)
  | shutdown
  /-- The turn passes to the `k`-th of the other workers. -/
  | switch (k : Nat)
  /-- A spare worker begins. -/
  | hire
  /-- The death of a worker is noticed while others wait. -/
  | abandon

namespace Happening

/-- The coordinator lets it happen: a reply comes only to the open question. -/
def Possible (c : Coordinator) : Happening → Prop
  | reply stage _ => c.stage = some stage
  | begin | announce _ | shutdown | switch _ | hire | abandon => True

/-- Every layout that comes from outside is valid. -/
def Lawful : Happening → Prop
  | reply .readingLayout (.ok layout) => layout.Valid
  | reply (.refreshing _ _) (.ok layout) => layout.Valid
  | announce layout => layout.Valid
  | _ => True

/-- The coordinator afterwards, with the end of a cycle if this was it. -/
def turn (c : Coordinator) : Happening → Turn
  | begin => c.begin
  | reply stage answer => c.resume stage answer
  | announce layout => ⟨(c.adaptTo layout).1, none⟩
  | shutdown => ⟨c.shutdown, none⟩
  | switch k => c.switch k
  | hire => c.hire
  | abandon => c.abandon

end Happening

/-- A happening and the coordinator before it. -/
structure Moment where
  before : Coordinator
  happening : Happening

namespace Moment

def turn (m : Moment) : Turn := m.happening.turn m.before

def after (m : Moment) : Coordinator := m.turn.coordinator

/-- The end of a cycle, if the moment brought one. -/
def outcome (m : Moment) : Option Outcome := m.turn.outcome

/-- A worker dies of the reply. -/
def LosesWorker (m : Moment) : Prop :=
  match m.happening with
  | .reply s answer => s.losesWorker answer = true
  | _ => False

end Moment

/-- The moments that lead from one coordinator to another, latest first. -/
inductive Run (start : Coordinator) : List Moment → Coordinator → Prop
  | nil : Run start [] start
  | cons {moments : List Moment} {c : Coordinator} (run : Run start moments c) (h : Happening)
      (possible : h.Possible c) : Run start (⟨c, h⟩ :: moments) (h.turn c).coordinator

/-- Every layout that came from outside was valid. -/
def Lawful (moments : List Moment) : Prop := ∀ m ∈ moments, m.happening.Lawful

/-! ## What a run keeps -/

/-- Two coordinators are for the same node, with the same settings. -/
structure SameTask (c d : Coordinator) : Prop where
  node_eq : d.node = c.node
  settings_eq : d.settings = c.settings

theorem SameTask.refl (c : Coordinator) : SameTask c c := ⟨rfl, rfl⟩

theorem SameTask.trans {c d e : Coordinator} (h : SameTask c d) (h' : SameTask d e) :
    SameTask c e :=
  ⟨h'.node_eq.trans h.node_eq, h'.settings_eq.trans h.settings_eq⟩

/-- Only the task of the first coordinator matters. -/
theorem SameTask.of_start {b c d : Coordinator} (h : SameTask c d) (hn : c.node = b.node)
    (hs : c.settings = b.settings) : SameTask b d :=
  ⟨h.node_eq.trans hn, h.settings_eq.trans hs⟩

/-- Two coordinators have the same task, and shutdown was signalled to both or to neither. -/
structure SameOrders (c d : Coordinator) : Prop extends SameTask c d where
  stopped_eq : d.stopped = c.stopped

theorem SameOrders.refl (c : Coordinator) : SameOrders c c := ⟨.refl c, rfl⟩

theorem SameOrders.trans {c d e : Coordinator} (h : SameOrders c d) (h' : SameOrders d e) :
    SameOrders c e :=
  ⟨h.toSameTask.trans h'.toSameTask, h'.stopped_eq.trans h.stopped_eq⟩

/-- Only the orders of the first coordinator matter. -/
theorem SameOrders.of_start {b c d : Coordinator} (h : SameOrders c d) (hn : c.node = b.node)
    (hs : c.settings = b.settings) (hstopped : c.stopped = b.stopped) : SameOrders b d :=
  ⟨h.toSameTask.of_start hn hs, h.stopped_eq.trans hstopped⟩

theorem sameOrders_conclude (c : Coordinator) (d : Draft) :
    SameOrders c (c.conclude d).coordinator :=
  ⟨⟨rfl, rfl⟩, rfl⟩

theorem sameOrders_settle (c : Coordinator) (d : Draft) (ready : List TrackedSegment)
    (committed : Option Epoch) : SameOrders c (c.settle d ready committed).coordinator := by
  unfold settle
  split <;> exact ⟨⟨rfl, rfl⟩, rfl⟩

theorem sameOrders_attempt (c : Coordinator) (d : Draft) (base : Layout) (left : Nat) :
    SameOrders c (c.attempt d base left).coordinator := by
  cases left with
  | zero => exact sameOrders_conclude c d
  | succ left =>
    rw [attempt]
    split
    · exact sameOrders_conclude c d
    · exact sameOrders_settle c d _ none
    · exact ⟨⟨rfl, rfl⟩, rfl⟩

theorem sameOrders_afterCopying (c : Coordinator) (d : Draft) :
    SameOrders c (c.afterCopying d).coordinator := by
  unfold afterCopying listCopied
  split
  · exact ⟨⟨rfl, rfl⟩, rfl⟩
  · dsimp only
    split
    · exact sameOrders_conclude c d
    · exact sameOrders_attempt c _ _ _

theorem sameOrders_closeWorkload (c : Coordinator) (d : Draft) (w : Workload) :
    SameOrders c (c.closeWorkload d w).coordinator := by
  unfold closeWorkload
  dsimp only
  split
  · exact ⟨⟨rfl, rfl⟩, rfl⟩
  · split
    · exact ⟨⟨rfl, rfl⟩, rfl⟩
    · exact (sameOrders_afterCopying _ _).of_start rfl rfl rfl

theorem sameOrders_passTurn (c : Coordinator) (d : Draft) (w : Workload) :
    SameOrders c (c.passTurn d w).coordinator := by
  unfold passTurn
  split
  · exact ⟨⟨rfl, rfl⟩, rfl⟩
  · exact sameOrders_closeWorkload c d w

theorem sameOrders_nextChunk (c : Coordinator) (d : Draft) (w : Workload) :
    SameOrders c (c.nextChunk d w).coordinator := by
  unfold nextChunk
  split
  · exact ⟨⟨rfl, rfl⟩, rfl⟩
  · exact sameOrders_passTurn c d _

theorem sameOrders_loseWorker (c : Coordinator) (d : Draft) (w : Workload) :
    SameOrders c (c.loseWorker d w).coordinator := by
  unfold loseWorker
  dsimp only
  split
  · exact sameOrders_nextChunk c d _
  · exact sameOrders_passTurn c d _

theorem sameOrders_noteChunk (c : Coordinator) (d : Draft) (w : Workload) (i : Nat)
    (o : ChunkOutcome) : SameOrders c (c.noteChunk d w i o).coordinator := by
  unfold noteChunk
  exact (sameOrders_nextChunk _ _ _).of_start rfl rfl rfl

theorem sameOrders_copy (c : Coordinator) (d : Draft) : SameOrders c (c.copy d).coordinator := by
  unfold copy
  split
  · exact sameOrders_afterCopying c d
  · dsimp only
    exact (sameOrders_nextChunk _ _ _).of_start rfl rfl rfl

theorem sameOrders_resume (c : Coordinator) (s : Stage) (reply : s.query.Reply) :
    SameOrders c (c.resume s reply).coordinator := by
  cases s with
  | readingLayout => cases reply <;> exact ⟨⟨rfl, rfl⟩, rfl⟩
  | readingTrimMark layout =>
    cases reply with
    | error e => exact ⟨⟨rfl, rfl⟩, rfl⟩
    | ok trimMark =>
      simp only [resume]
      split
      · exact ⟨⟨rfl, rfl⟩, rfl⟩
      · exact (sameOrders_copy _ _).of_start rfl rfl rfl
  | checking d w i span =>
    cases reply with
    | error e => exact sameOrders_noteChunk c d w i _
    | ok present =>
      simp only [resume, resumeChecking]
      split
      · exact sameOrders_loseWorker c d w
      · split
        · exact sameOrders_noteChunk c d w i _
        · exact ⟨⟨rfl, rfl⟩, rfl⟩
  | copying d w i present batch =>
    cases reply with
    | written addresses => exact sameOrders_noteChunk c d w i _
    | failed e => exact sameOrders_noteChunk c d w i _
    | crashed => exact sameOrders_loseWorker c d w
  | proposing d base ready proposal left =>
    cases reply with
    | ok u => exact (sameOrders_settle _ _ _ _).of_start rfl rfl rfl
    | error e => cases e <;> exact ⟨⟨rfl, rfl⟩, rfl⟩
  | refreshing d left =>
    cases reply with
    | error e => exact sameOrders_conclude c d
    | ok base => exact sameOrders_attempt c d base left

theorem sameOrders_switch (c : Coordinator) (k : Nat) : SameOrders c (c.switch k).coordinator := by
  unfold switch
  split
  · exact .refl c
  · split <;> exact ⟨⟨rfl, rfl⟩, rfl⟩

theorem sameOrders_hire (c : Coordinator) : SameOrders c c.hire.coordinator := by
  unfold hire
  split
  · exact .refl c
  · split
    · exact .refl c
    · exact sameOrders_nextChunk c _ _

theorem sameOrders_abandon (c : Coordinator) : SameOrders c c.abandon.coordinator := by
  unfold abandon
  split
  · exact .refl c
  · split <;> exact ⟨⟨rfl, rfl⟩, rfl⟩

theorem sameOrders_adaptTo (c : Coordinator) (layout : Layout) :
    SameOrders c (c.adaptTo layout).1 := by
  unfold adaptTo
  split
  · exact .refl c
  · split
    · exact .refl c
    · split <;> exact ⟨⟨rfl, rfl⟩, rfl⟩

theorem sameOrders_begin (c : Coordinator) : SameOrders c c.begin.coordinator := by
  unfold begin
  split
  · exact .refl c
  · split <;> exact ⟨⟨rfl, rfl⟩, rfl⟩

/-- Nothing but a shutdown changes the orders. -/
theorem sameOrders_turn (c : Coordinator) {h : Happening} (hgoing : h ≠ .shutdown) :
    SameOrders c (h.turn c).coordinator := by
  cases h with
  | begin => exact sameOrders_begin c
  | reply stage reply => exact sameOrders_resume c stage reply
  | announce layout => exact sameOrders_adaptTo c layout
  | shutdown => exact absurd rfl hgoing
  | switch k => exact sameOrders_switch c k
  | hire => exact sameOrders_hire c
  | abandon => exact sameOrders_abandon c

theorem sameTask_turn (c : Coordinator) (h : Happening) : SameTask c (h.turn c).coordinator := by
  by_cases hshutdown : h = .shutdown
  · rw [hshutdown]
    exact ⟨rfl, rfl⟩
  · exact (sameOrders_turn c hshutdown).toSameTask

/-- Shutdown is never taken back. -/
theorem stopped_turn {c : Coordinator} (h : Happening) (hstopped : c.stopped = true) :
    (h.turn c).coordinator.stopped = true := by
  by_cases hshutdown : h = .shutdown
  · rw [hshutdown]
    rfl
  · exact (sameOrders_turn c hshutdown).stopped_eq.trans hstopped

theorem Run.sameTask {start c : Coordinator} {moments : List Moment} (run : Run start moments c) :
    SameTask start c := by
  induction run with
  | nil => exact .refl start
  | cons _ h _ ih => exact ih.trans (sameTask_turn _ h)

end Coordinator

end LogRepair
