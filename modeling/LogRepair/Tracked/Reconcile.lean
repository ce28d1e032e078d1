import LogRepair.Tracked.Segment

/-!
# Reconciliation of two segment lists

Each cycle computes afresh which ranges of the log matter. The fresh list decides which ranges
are tracked; the list of the cycle before contributes how far each of them came.

* A fresh segment keeps its bounds. Where old segments overlap it, the shared part takes the
  joined progress, and the fresh segment is split only where the states differ.
* An old segment that overlaps no fresh one passes through. If it was copied, nothing waits for
  it any more, and it counts as restored.
* What an old segment has outside every fresh one is dropped.

`reconcile` does this for two lists and sorts the result by first address.
-/

namespace LogRepair.TrackedSegment

/-- The part of `fresh` from `cursor` on, cut where the `old` segments begin and end. The old
segments are taken in their order, each from its own beginning. -/
def cut (fresh : TrackedSegment) (cursor : Address) : List TrackedSegment → List TrackedSegment
  | [] => if cursor ≤ fresh.last then [⟨⟨cursor, fresh.last⟩, fresh.progress⟩] else []
  | old :: rest =>
    let first := if fresh.first < old.first then old.first else fresh.first
    let last := if old.last < fresh.last then old.last else fresh.last
    let shared : TrackedSegment := ⟨⟨first, last⟩, old.progress.join fresh.progress⟩
    let tail := shared :: cut fresh (last + 1) rest
    if cursor < first then ⟨⟨cursor, first - 1⟩, fresh.progress⟩ :: tail else tail

/-- A piece with its progress in terms of its own length. -/
def restated (p : TrackedSegment) : TrackedSegment :=
  { p with progress := p.progress.restate p.progress.copied p.length }

/-- Whether `next` begins right after `p`, in the same state. -/
def continuedBy (p next : TrackedSegment) : Bool :=
  p.last + 1 = next.first && p.state = next.state

/-- The piece `p` grown by the piece after it. -/
def extendBy (p next : TrackedSegment) : TrackedSegment :=
  let span : Span := ⟨p.first, next.last⟩
  ⟨span, p.progress.restate (p.progress.copied + next.progress.copied) span.length⟩

/-- The pieces after the open piece `p`, with neighbours of one state joined. -/
def joinAfter (p : TrackedSegment) : List TrackedSegment → List TrackedSegment
  | [] => [p]
  | next :: rest =>
    if p.continuedBy next then joinAfter (p.extendBy next) rest
    else p :: joinAfter next.restated rest

def joinNeighbours : List TrackedSegment → List TrackedSegment
  | [] => []
  | p :: rest => joinAfter p.restated rest

/-- A fresh segment in the light of the old segments that overlap it. -/
def overlay (old : List TrackedSegment) (fresh : TrackedSegment) :
    Except Error (List TrackedSegment) :=
  let overlapping := (old.filter (·.overlaps fresh)).mergeSort startsBy
  (joinNeighbours (cut fresh fresh.first overlapping)).mapM checked

/-- An old segment that no fresh one overlaps. -/
def carried (old : TrackedSegment) : Except Error TrackedSegment :=
  if old.state = .transferred then old.listed else .ok old

/-- The old segments that overlap no fresh one. -/
def unclaimed (old fresh : List TrackedSegment) : List TrackedSegment :=
  old.filter fun o => !fresh.any (·.overlaps o)

end TrackedSegment

open TrackedSegment

/-- The progress of `old` carried over to the ranges of `fresh`. -/
def reconcile (old fresh : List TrackedSegment) : Except Error (List TrackedSegment) := do
  let claimed ← fresh.mapM (overlay old)
  let carried ← (unclaimed old fresh).mapM carried
  return (claimed.flatten ++ carried).mergeSort startsBy

/-- The list tracked after each of a series of fresh lists; a list that cannot be reconciled is
reported and leaves the tracked list as it was. -/
def reconcileAll (tracked : List TrackedSegment) :
    List (List TrackedSegment) → List (Except Error (List TrackedSegment))
  | [] => []
  | fresh :: rest =>
    let result := reconcile tracked fresh
    result :: reconcileAll (match result with | .ok next => next | .error _ => tracked) rest

end LogRepair
