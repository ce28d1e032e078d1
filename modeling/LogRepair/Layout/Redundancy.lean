import LogRepair.Layout.Basic
import LogRepair.Tracked.Segment

/-!
# What a node has to copy, and what it may then claim

The requirement of a node is read off the layout: the ranges above the trim mark, each restored
if the layout lists the node for it. Once ranges are copied, the node is added to the regions
that it holds in full.

* `Layout.requirement`: the ranges that matter to a node, in layout order.
* `Layout.claimable`: the copied segments whose regions are covered by copied ranges.
* `Layout.replicateCopied`: the layout with the node on the regions of copied segments.
-/

namespace LogRepair.Layout

/-- The addresses of a region above the trim mark. -/
def neededSpan (trimMark : Address) (r : Region) : Span :=
  let needed := firstAbove trimMark
  ⟨if r.start < needed then needed else r.start, r.last⟩

/-- The tracked segment that a region asks of a node. -/
def required (node : NodeId) (trimMark : Address) (r : Region) : Except Error TrackedSegment :=
  if r.heldBy node then TrackedSegment.restored (neededSpan trimMark r)
  else TrackedSegment.notTransferred (neededSpan trimMark r)

/-- The ranges of the layout above the trim mark, each restored if `node` holds its region and
not transferred otherwise. -/
def requirement (l : Layout) (node : NodeId) (trimMark : Address) :
    Except Error (List TrackedSegment) :=
  (l.regions.filter fun r => (neededSpan trimMark r).first ≤ (neededSpan trimMark r).last).mapM
    (required node trimMark)

/-- The fully copied ranges of a list, in ascending order. -/
def copiedSpans (segments : List TrackedSegment) : List Span :=
  ((segments.filter (·.isComplete)).map (·.toSpan)).mergeSort Span.le

/-- The copied segments that wait for the layout and whose every region is covered, above the
trim mark, by fully copied ranges. Listing a node for a region claims all of it, so the others
wait until their neighbours are copied. -/
def claimable (l : Layout) (segments : List TrackedSegment) (trimMark : Address) :
    List TrackedSegment :=
  let copied := copiedSpans segments
  segments.filter fun s =>
    s.state = .transferred
      && (l.overlapping s.toSpan).all fun r => Span.covers copied (neededSpan trimMark r)

/-- The layout with `node` on every region that overlaps a fully copied segment. -/
def replicateCopied (l : Layout) (node : NodeId) (segments : List TrackedSegment) : Layout :=
  (segments.filter (·.isComplete)).foldl (fun l s => l.replicate node s.toSpan) l

/-! ## Changes as data -/

/-- A change of a layout. -/
inductive Edit
  | successor
  | joinFirst
  | collapse
  | replicate (node : NodeId) (segment : TrackedSegment)
  | replicateCopied (node : NodeId) (segments : List TrackedSegment)

def edit (l : Layout) : Edit → Except Error Layout
  | .successor => .ok l.successor
  | .joinFirst => l.joinFirst
  | .collapse => .ok l.collapse
  | .replicate node segment => .ok (l.replicate node segment.toSpan)
  | .replicateCopied node segments => .ok (l.replicateCopied node segments)

end LogRepair.Layout
