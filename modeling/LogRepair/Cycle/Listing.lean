import LogRepair.Layout.Redundancy

/-!
# Listing the node in the layout

Copied segments become restored only once a committed layout lists this node for them.

* `Listing.plan`: what a tracked list asks of a base layout. The proposal adds the node to the
  regions of the claimable segments, joins leading regions if that is wanted, and takes the next
  epoch.
* `Listing.markListed`: the tracked list once the layout lists the ready segments.
-/

namespace LogRepair

/-- What a tracked list asks of a base layout. -/
inductive Listing
  /-- Every copied segment waits for the rest of its regions. -/
  | incomplete
  /-- The base lists the node for every ready segment already. -/
  | reflected (ready : List TrackedSegment)
  | propose (ready : List TrackedSegment) (proposal : Layout)
deriving DecidableEq

namespace Listing

/-- The base with the node on the regions of the ready segments, in the base's epoch. -/
def candidate (node : NodeId) (merge : Bool) (ready : List TrackedSegment) (base : Layout) :
    Layout :=
  let listed := base.replicateCopied node ready
  if merge then listed.collapse else listed

/-- What the tracked list asks of the base. -/
def plan (node : NodeId) (merge : Bool) (tracked : List TrackedSegment) (base : Layout)
    (trimMark : Address) : Listing :=
  let ready := base.claimable tracked trimMark
  let next := candidate node merge ready base
  if ready.isEmpty then .incomplete
  else if next = base then .reflected ready
  else .propose ready next.successor

/-- Whether a tracked segment is one of the ready segments and still waits. -/
def isReady (ready : List TrackedSegment) (s : TrackedSegment) : Bool :=
  s.state = .transferred && ready.any (·.toSpan = s.toSpan)

/-- The tracked list once the layout lists the ready segments. -/
def markListed (ready tracked : List TrackedSegment) : Except Error (List TrackedSegment) :=
  tracked.mapM fun s => if isReady ready s then s.listed else .ok s

end Listing

end LogRepair
