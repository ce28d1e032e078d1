import LogRepair.Cycle.Visits

/-!
# Targets that are cut short

A cycle, from the beginning of its copying on, while newer layouts cut some of its targets short
and a shutdown cuts all of them short, at any time. Answers may be anything, and workers take turns
as they like, but none dies.

* `Coordinator.CycleRun`: what may happen to a cycle from one of its turns on.
* `Coordinator.HandedOut`: which chunks of a target are handed out, and what is asked about them.
* `TrackedSegment.LeftAs`: what becomes of a target.
* `Coordinator.CopiedAs`: how the copying ends, and what the report says of it.
* `Coordinator.flag`, `Coordinator.Moment.SameBut`: the same cycle, had a target been cut short, or
  had it not.
-/

namespace LogRepair

/-! ## Errands -/

namespace Errand

/-- The chunk of the target that the worker asks about. -/
def chunk? (i : Nat) : Errand → Option Span
  | checking j span => if j = i then some span else none
  | copying _ _ _ => none

/-- The addresses of the target that the worker asks to copy. -/
def request? (i : Nat) : Errand → Option (List Address)
  | checking _ _ => none
  | copying j _ batch => if j = i then some batch.addresses else none

end Errand

namespace Coordinator

/-- The errands of the workers, the one at its turn first. -/
def errands (c : Coordinator) : List Errand :=
  match c.stage.bind Stage.errand? with
  | none => []
  | some (_, w, errand) => errand :: w.others.map (·.2)

/-- The target is in flight, and no further chunk of it is to be handed out. -/
def CutShort (c : Coordinator) (i : Nat) : Prop :=
  ∃ t, c.inFlight[i]? = some t ∧ t.cancelled = true

/-- The cursor with which a cycle begins to copy the segment. -/
def cursorOf (c : Coordinator) (s : TrackedSegment) : Cursor :=
  .ofSpan s.toSpan c.settings.batchSize

/-! ## Runs of a cycle -/

/-- The moments that lead from one turn of a cycle to another, latest first. They stop at the latest
when the cycle ends. -/
inductive CycleRun (start : Turn) : List Moment → Turn → Prop
  | refl : CycleRun start [] start
  | cons {moments : List Moment} {turn : Turn} (run : CycleRun start moments turn)
      (running : turn.coordinator.stage.isSome = true) (h : Happening)
      (possible : h.Possible turn.coordinator)
      (alive : ¬Moment.LosesWorker ⟨turn.coordinator, h⟩) :
      CycleRun start (⟨turn.coordinator, h⟩ :: moments) (h.turn turn.coordinator)

/-! ## What is told of a target -/

namespace Moment

/-- The errand that the moment ends with a reply. -/
def errand? (m : Moment) : Option Errand :=
  match m.happening with
  | .reply s _ => s.errand?.map (·.2.2)
  | _ => none

/-- The addresses that the reply leaves to be copied of a chunk of the target. -/
def missing? (i : Nat) (m : Moment) : Option (List Address) :=
  match m.happening with
  | .reply (.checking _ _ j span) (.ok present) =>
    let batch := Batch.missing span present
    if j = i ∧ batch.isEmpty = false then some batch.addresses else none
  | _ => none

/-- The number of addresses of the target that were asked about or asked for, and that the reply
lists as held or as written. -/
def credit (i : Nat) (m : Moment) : Nat :=
  match m.happening with
  | .reply (.checking _ _ j span) (.ok present) =>
    if j = i then span.toList.countP present.contains else 0
  | .reply (.copying _ _ j _ batch) (.written returned) =>
    if j = i then batch.addresses.countP returned.contains else 0
  | _ => 0

/-- The reply fails a chunk of the target. -/
def Fails (i : Nat) (m : Moment) : Prop :=
  match m.happening with
  | .reply (.checking _ _ j _) (.error _) => j = i
  | .reply (.copying _ _ j _ _) (.failed _) => j = i
  | .reply (.copying _ _ j _ batch) (.written returned) => j = i ∧ ¬batch.addresses ⊆ returned
  | _ => False

end Moment

section

variable (moments : List Moment) (waiting : List Errand) (i : Nat)

/-- All errands that workers were given: those that wait, and those that were answered. -/
def given : List Errand := waiting ++ moments.filterMap Moment.errand?

/-- The chunks of the target that were handed out. -/
def started : List Span := (given moments waiting).filterMap (Errand.chunk? i)

/-- The addresses of the target that were asked for, one list for each chunk. -/
def requested : List (List Address) := (given moments waiting).filterMap (Errand.request? i)

/-- The number of addresses of the target that the replies credit. -/
def credited : Nat := (moments.map (Moment.credit i)).sum

/-- The target was cut short when the copying began, or at one of the moments. -/
def WasCutShort (c : Coordinator) : Prop :=
  c.stopped = true ∨ ∃ m ∈ moments, m.before.CutShort i

/-- The first chunks of the segment are handed out, each once, but none any more once the target is
cut short. What is missing of a chunk when it was checked is then asked for. -/
structure HandedOut (c : Coordinator) (s : TrackedSegment) : Prop where
  started_perm : (started moments waiting i).Perm
    ((List.range (started moments waiting i).length).filterMap (c.cursorOf s).range?)
  requested_perm : (requested moments waiting i).Perm (moments.filterMap (Moment.missing? i))
  unstarted : c.stopped = true → started moments waiting i = []
  frozen : ∀ later m earlier, moments = later ++ m :: earlier → m.before.CutShort i →
    (started moments waiting i).Perm (started earlier m.before.errands i)

end

end Coordinator

/-! ## How the copying ends -/

/-- What becomes of a target that is handed out by the cursor. If a chunk is left it is cut short,
and keeps its state and the cause of its failure. Else it was attempted. In both cases it counts all
that the replies credit, or what it counted before if that is more. -/
structure TrackedSegment.LeftAs (cursor : Cursor) (moments : List Coordinator.Moment) (i : Nat)
    (s : TrackedSegment) (fate : TrackedSegment × Bool) : Prop where
  span_eq : fate.1.toSpan = s.toSpan
  copied_eq : fate.1.progress.copied.toNat =
    max s.progress.copied.toNat (Coordinator.credited moments i)
  cut_iff : fate.2 = true ↔ (cursor.range? (Coordinator.started moments [] i).length).isSome = true
  of_cut : fate.2 = true →
    fate.1.state = s.state ∧ fate.1.progress.failure = s.progress.failure
  of_whole : fate.2 = false → ∃ failure,
    fate.1.progress = s.outcome (.ofNat (Coordinator.credited moments i)) failure ∧
      (failure = none ↔ ∀ m ∈ moments, ¬m.Fails i)

/-- The draft with the fates of its targets. -/
def Draft.withFates (d : Draft) (fates : List (TrackedSegment × Bool)) : Draft :=
  { d with
    tracked := Coordinator.replaceCandidates d.tracked (fates.map (·.1))
    report := Coordinator.tallyFates d.report fates }

namespace Coordinator

/-- The copying of the draft came to its end with these fates of its targets, and the cycle went on
with that. A target was cut short only if a layout or a shutdown said so. -/
structure CopiedAs (c : Coordinator) (d : Draft) (moments : List Moment) (turn : Turn)
    (fates : List (TrackedSegment × Bool)) : Prop where
  ended : ∃ (c' : Coordinator) (later earlier : List Moment),
    SameTask c c' ∧ moments = later ++ earlier ∧
    CycleRun (c.copy d) earlier (c'.afterCopying (d.withFates fates)) ∧
    CycleRun (c'.afterCopying (d.withFates fates)) later turn
  length_eq : fates.length = d.tracked.countP (·.isDue)
  left : ∀ (i : Nat) (s : TrackedSegment) (fate : TrackedSegment × Bool),
    (d.tracked.filter (·.isDue))[i]? = some s → fates[i]? = some fate →
      s.LeftAs (c.cursorOf s) moments i fate ∧ (fate.2 = true → WasCutShort moments i c)

end Coordinator

/-! ## Had a target been cut short, or had it not -/

/-- The workload with a target cut short, or not. -/
def Workload.flag (i : Nat) (cancelled : Bool) (w : Workload) : Workload :=
  { w with targets := w.targets.modify i ({ · with cancelled }) }

/-- The stage with a target of its workload cut short, or not. -/
def Stage.flag (i : Nat) (cancelled : Bool) : Stage → Stage
  | checking d w j span => checking d (w.flag i cancelled) j span
  | copying d w j present batch => copying d (w.flag i cancelled) j present batch
  | s => s

namespace Coordinator

/-- The coordinator with a target in flight cut short, or not. -/
def flag (i : Nat) (cancelled : Bool) (c : Coordinator) : Coordinator :=
  { c with stage := c.stage.map (Stage.flag i cancelled) }

/-- The same happening to a coordinator with a target cut short, or not. -/
def Happening.flag (i : Nat) (cancelled : Bool) : Happening → Happening
  | reply (.checking d w j span) answer =>
    reply (.checking d (w.flag i cancelled) j span) answer
  | reply (.copying d w j present batch) answer =>
    reply (.copying d (w.flag i cancelled) j present batch) answer
  | h => h

end Coordinator

/-- The turn with a target in flight cut short, or not. -/
def Turn.flag (i : Nat) (cancelled : Bool) (turn : Turn) : Turn :=
  { turn with coordinator := turn.coordinator.flag i cancelled }

/-- The same happens, and the same comes of it, but for whether the target is cut short. -/
def Coordinator.Moment.SameBut (i : Nat) (m m' : Moment) : Prop :=
  ∃ before after, m' = ⟨m.before.flag i before, m.happening.flag i before⟩ ∧
    m'.turn = m.turn.flag i after

end LogRepair
