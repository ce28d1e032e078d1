import LogRepair.Cycle.Run
import Mathlib.Algebra.GroupWithZero.Nat
import Mathlib.Data.List.Basic

/-!
# Copying, chunk by chunk

The copying of a cycle as seen from outside: which questions are asked, in which order, and what is
answered. Answers may be anything. Chunks are taken one after another, but idle workers may come
and go besides, and layouts may be announced as long as they cut nothing short.

* `Span.chunk`: the consecutive chunks of a span.
* `Place.Before`: the order in which the chunks of all targets are visited.
* `Visit.exchanges`: the questions about one chunk, with their answers.
* `Coordinator.CopyRun`: the runs of a copying, from its beginning up to its end.
* `TrackedSegment.CopiedBy`: what the visits to a segment make of it.
-/

namespace LogRepair

/-! ## Chunks -/

namespace Span

/-- The number of chunks of at most `size` addresses. -/
def chunkCount (s : Span) (size : Nat) : Nat := (s.length.toNat + size - 1) / size

/-- The chunk behind `k` others. -/
def chunk (s : Span) (size k : Nat) : Span :=
  let first := s.first.toInt + k * size
  ⟨.ofInt first, .ofInt (min (first + size - 1) s.last.toInt)⟩

end Span

/-- A chunk of one of several targets: the one behind `round` others of that target. -/
structure Place where
  round : Nat
  target : Nat
deriving DecidableEq

/-- Every target has its turn in a round before any has its turn in the next. -/
def Place.Before (p q : Place) : Prop :=
  p.round < q.round ∨ p.round = q.round ∧ p.target < q.target

instance (p q : Place) : Decidable (p.Before q) :=
  inferInstanceAs (Decidable (p.round < q.round ∨ p.round = q.round ∧ p.target < q.target))

/-! ## Visits -/

/-- A question with its answer. -/
structure Exchange where
  query : Query
  reply : query.Reply

/-- What is answered about one chunk. -/
inductive Answers
  /-- What is held of it could not be read. -/
  | unreadable (e : Error)
  /-- All of it is held, so that nothing is copied. -/
  | held (present : List Address)
  /-- The rest was copied, as far as `returned` says. -/
  | written (present returned : List Address)
  /-- The rest could not be copied. -/
  | failed (present : List Address) (e : Error)

/-- The addresses that are said to be held. -/
def Answers.present : Answers → List Address
  | unreadable _ => []
  | held present | written present _ | failed present _ => present

/-- A chunk, the servers that can be read from, and what is answered about it. -/
structure Visit where
  place : Place
  span : Span
  sources : List NodeId
  answers : Answers

namespace Visit

/-- What is asked for: the addresses of the chunk that are not held, ascending. -/
def request (v : Visit) : Batch :=
  (Batch.missing v.span v.answers.present).withSources v.sources

/-- Copying is asked for exactly if it is known what is held, and something is not. -/
def Consistent (v : Visit) : Prop :=
  match v.answers with
  | .unreadable _ => True
  | .held _ => v.request.isEmpty = true
  | .written _ _ | .failed _ _ => v.request.isEmpty = false

def exchanges (v : Visit) : List Exchange :=
  match v.answers with
  | .unreadable e => [⟨.present v.span, .error e⟩]
  | .held present => [⟨.present v.span, .ok present⟩]
  | .written present returned =>
    [⟨.present v.span, .ok present⟩, ⟨.transfer v.request, .written returned⟩]
  | .failed present e => [⟨.present v.span, .ok present⟩, ⟨.transfer v.request, .failed e⟩]

/-- It was answered what is held, and all that was asked for was copied. -/
def Complete (v : Visit) : Prop :=
  match v.answers with
  | .unreadable _ | .failed _ _ => False
  | .held _ => True
  | .written _ returned => v.request.addresses ⊆ returned

/-- The number of addresses that are held. -/
def heldCount (v : Visit) : Nat := v.span.toList.countP v.answers.present.contains

/-- The number of addresses that are held now: those that were, and those that were asked for and
are said to be copied. -/
def credit (v : Visit) : Nat :=
  v.heldCount +
    match v.answers with
    | .unreadable _ | .held _ | .failed _ _ => 0
    | .written _ returned => v.request.addresses.countP returned.contains

/-- Why the visit is not complete. -/
def cause? (v : Visit) : Option Failure :=
  match v.answers with
  | .unreadable e | .failed _ e => some (.ofError e)
  | .held _ => none
  | .written _ returned => (BatchResult.ofWritten v.request returned).failure

end Visit

/-- What visits make of a segment. It is transferred if all of them are complete. Otherwise it has
failed for the cause of the first that is not, and counts all that is held, or what it counted
before if that is more. -/
structure TrackedSegment.CopiedBy (visits : List Visit) (s u : TrackedSegment) : Prop where
  span_eq : u.toSpan = s.toSpan
  transferred_iff : u.state = .transferred ↔ ∀ v ∈ visits, v.Complete
  transferred : u.state = .transferred → u.progress = .transferred s.length
  failed : u.state ≠ .transferred → ∃ v ∈ visits, ∃ f, v.cause? = some f ∧ ¬v.Complete ∧
    (∀ v' ∈ visits, v'.place.Before v.place → v'.Complete) ∧
    u.state = .failed ∧ u.progress.failure = some f ∧
    u.progress.copied.toNat = max s.progress.copied.toNat (visits.map Visit.credit).sum

/-! ## Plans -/

/-- What is to be copied. -/
structure Plan where
  segments : List TrackedSegment
  sources : TrackedSegment → List NodeId
  batchSize : Nat

namespace Plan

/-- The number of chunks of a target. -/
def chunkCount (plan : Plan) (i : Nat) : Nat :=
  (plan.segments[i]?.map (·.toSpan.chunkCount plan.batchSize)).getD 0

/-- The number of chunks of all targets. -/
def size (plan : Plan) : Nat :=
  (plan.segments.map (·.toSpan.chunkCount plan.batchSize)).sum

/-- What is to be copied at a place, and the servers to read it from. -/
def Locates (plan : Plan) (p : Place) (span : Span) (sources : List NodeId) : Prop :=
  ∃ s, plan.segments[p.target]? = some s ∧ span = s.toSpan.chunk plan.batchSize p.round ∧
    sources = plan.sources s

/-- The chunk that is visited is the one at its place, and copying is asked for as it should. -/
def Has (plan : Plan) (v : Visit) : Prop := v.Consistent ∧ plan.Locates v.place v.span v.sources

/-- The visit is to the addresses of one target from the end of the chunk before on, as many as a
batch has, and asks to copy those of them that are not held, in ascending order. -/
def Asks (plan : Plan) (v : Visit) : Prop :=
  ∃ s, plan.segments[v.place.target]? = some s ∧
    (∀ x, x ∈ v.span ↔ x ∈ s.toSpan ∧
      s.first.toInt + v.place.round * plan.batchSize ≤ x.toInt ∧
      x.toInt < s.first.toInt + (v.place.round + 1) * plan.batchSize) ∧
    v.request.addresses.Pairwise (· < ·) ∧
    ∀ x, x ∈ v.request.addresses ↔ x ∈ v.span ∧ x ∉ v.answers.present

/-- The visits to one target. -/
def visitsTo (visits : List Visit) (i : Nat) : List Visit := visits.filter (·.place.target = i)

/-- Every chunk of every target is visited once, round by round. -/
structure FollowedBy (plan : Plan) (visits : List Visit) : Prop where
  sorted : (visits.map (·.place)).Pairwise Place.Before
  mem_iff : ∀ p, p ∈ visits.map (·.place) ↔ p.round < plan.chunkCount p.target
  has : ∀ v ∈ visits, plan.Has v

end Plan

/-! ## Runs -/

namespace Coordinator

def copyPlan (c : Coordinator) (d : Draft) : Plan :=
  ⟨d.tracked.filter (·.isDue), fun s => d.layout.sources c.node s.toSpan,
    c.settings.batchSize.toNat⟩

/-- What the coordinator copies, if it does. -/
def workload? (c : Coordinator) : Option Workload := c.stage.bind Stage.workload?

/-- The targets that are in flight. -/
def inFlight (c : Coordinator) : List Target := (c.workload?.map (·.targets)).getD []

/-- Nothing is cut short and no worker dies when this happens to the coordinator. -/
def Happening.Undisturbed (c : Coordinator) : Happening → Prop
  | reply (.copying _ _ _ _ _) answer => answer ≠ TransferReply.crashed
  | announce layout => (c.adaptTo layout).1 = c
  | shutdown => False
  | _ => True

/-- The moments of a copying, latest first, with the turn that they lead to. No worker takes a chunk
while another waits. They stop at the latest when the copying ends. -/
inductive CopyRun (c : Coordinator) (d : Draft) : List Moment → Turn → Prop
  | begun : CopyRun c d [] (c.copy d)
  | cons {moments : List Moment} {turn : Turn} (run : CopyRun c d moments turn)
      (copying : turn.coordinator.workload?.isSome = true) (h : Happening)
      (possible : h.Possible turn.coordinator) (undisturbed : h.Undisturbed turn.coordinator)
      (alone : ∀ w ∈ (h.turn turn.coordinator).coordinator.workload?, w.others = []) :
      CopyRun c d (⟨turn.coordinator, h⟩ :: moments) (h.turn turn.coordinator)

/-- The question that the moment answers, if it is a reply. -/
def Moment.exchange? (m : Moment) : Option Exchange :=
  match m.happening with
  | .reply s answer => some ⟨s.query, answer⟩
  | _ => none

/-- The questions and their answers, in the order in which they were asked. -/
def exchanges (moments : List Moment) : List Exchange :=
  moments.reverse.filterMap Moment.exchange?

/-- The copying has come to its end with the turn: the plan was followed, each segment that needed a
copy is replaced by what the visits to it make of it, and the cycle goes on with that. -/
structure CopiedBy (c : Coordinator) (d : Draft) (visits : List Visit) (turn : Turn) : Prop where
  followed : (c.copyPlan d).FollowedBy visits
  ended : ∃ (c' : Coordinator) (segments : List TrackedSegment) (report : Report),
    SameOrders c c' ∧
    turn = c'.afterCopying
      { d with tracked := replaceCandidates d.tracked segments, report } ∧
    segments.length = (c.copyPlan d).segments.length ∧
    ∀ (i : Nat) (s u : TrackedSegment), (c.copyPlan d).segments[i]? = some s →
      segments[i]? = some u → s.CopiedBy (Plan.visitsTo visits i) u

end Coordinator

end LogRepair
