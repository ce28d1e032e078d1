import LogRepair.Error

/-!
# Layouts

A layout says which servers replicate which part of the log. It is a sequence of regions that
follow each other without gap, each with stripes that name their servers. `Layout.create` checks
that; the type itself also holds what documents claim before they are checked. In messages a
region is called a segment.

* `Layout.fault?`: the first thing wrong with a sequence of regions.
* `Layout.edit`: the changes that lead from one layout to the next.
-/

namespace LogRepair

/-- A share of a region's addresses, and the servers that replicate it in chain order. -/
structure Stripe where
  servers : List NodeId
deriving DecidableEq, Inhabited

namespace Stripe

/-- Whether `node` replicates the stripe. -/
def contains (s : Stripe) (node : NodeId) : Bool := s.servers.contains node

/-- Whether two stripes name the same servers, in any order and however often. -/
def sameServers (s t : Stripe) : Bool := s.servers.all t.contains && t.servers.all s.contains

/-- The stripe with `node` at the end of the chain, unless it is there already. -/
def withServer (s : Stripe) (node : NodeId) : Stripe :=
  if s.contains node then s else ⟨s.servers ++ [node]⟩

end Stripe

/-- The addresses from `start` to just below `stop`, replicated alike. -/
structure Region where
  start : Address
  stop : Address
  stripes : List Stripe
deriving DecidableEq, Inhabited

namespace Region

def last (r : Region) : Address := r.stop - 1

def span (r : Region) : Span := ⟨r.start, r.last⟩

/-- Whether some stripe names `node`. -/
def mentions (r : Region) (node : NodeId) : Bool := r.stripes.any (·.contains node)

/-- Whether every stripe names `node`, so that it holds a full copy. -/
def heldBy (r : Region) (node : NodeId) : Bool :=
  !r.stripes.isEmpty && r.stripes.all (·.contains node)

/-- Whether two regions replicate each stripe on the same servers. -/
def replicatedLike (r t : Region) : Bool :=
  r.stripes.length = t.stripes.length
    && (r.stripes.zip t.stripes).all fun (a, b) => a.sameServers b

def servers (r : Region) : List NodeId := r.stripes.flatMap (·.servers)

def withServer (r : Region) (node : NodeId) : Region :=
  { r with stripes := r.stripes.map (·.withServer node) }

/-- One region in place of two neighbours; it takes the stripes of the second. -/
def join (r t : Region) : Region := ⟨r.start, t.stop, t.stripes⟩

end Region

/-- A version of the assignment of servers to the log. -/
structure Layout where
  epoch : Epoch
  /-- The regions in the order of their addresses. -/
  regions : List Region
deriving DecidableEq, Inhabited

/-- What is wrong with a sequence of regions. -/
inductive LayoutFault
  | empty
  /-- The bounds of a region are below zero, empty or the wrong way round. -/
  | badRange (index : Nat) (start stop : Address)
  | noStripes (index : Nat)
  /-- A region that ends at `stop` is followed by one that starts elsewhere. -/
  | gap (stop start : Address)
  /-- There is no second region to join with the first. -/
  | single
deriving DecidableEq

def LayoutFault.reason : LayoutFault → String
  | empty => "layout has no segments"
  | badRange index start stop => s!"segment {index} has invalid range [{start}, {stop})"
  | noStripes index => s!"segment {index} has no stripes"
  | gap stop start => s!"segment ending at {stop} is followed by segment starting at {start}"
  | single => "need at least two segments to merge"

namespace Layout

/-- The first region with bad bounds or without stripes, counted from `index`. -/
def regionFault? (index : Nat) : List Region → Option LayoutFault
  | [] => none
  | r :: rest =>
    if r.start < 0 || r.stop ≤ r.start then some (.badRange index r.start r.stop)
    else if r.stripes.isEmpty then some (.noStripes index)
    else regionFault? (index + 1) rest

/-- The first place where a region does not start at the end of the one before. -/
def gap? : List Region → Option LayoutFault
  | r :: t :: rest => if r.stop = t.start then gap? (t :: rest) else some (.gap r.stop t.start)
  | _ => none

/-- The first thing wrong with a sequence of regions, if any. -/
def fault? (regions : List Region) : Option LayoutFault :=
  if regions.isEmpty then some .empty
  else (regionFault? 0 regions).or (gap? regions)

/-- A layout whose regions are in order. -/
def create (epoch : Epoch) (regions : List Region) : Except Error Layout :=
  match fault? regions with
  | some fault => .error (.invalidLayout fault.reason)
  | none => .ok ⟨epoch, regions⟩

/-- Nothing is wrong with the regions of the layout. -/
def Valid (l : Layout) : Prop := fault? l.regions = none

instance (l : Layout) : Decidable l.Valid := inferInstanceAs (Decidable (fault? l.regions = none))

def last (l : Layout) : Address :=
  match l.regions.getLast? with
  | some r => r.last
  | none => noAddress

def overlapping (l : Layout) (s : Span) : List Region := l.regions.filter (·.span.overlaps s)

/-- The elements of a list, each at its first place only. -/
def firstAppearances (nodes : List NodeId) : List NodeId :=
  nodes.foldl (fun seen node => if seen.contains node then seen else seen ++ [node]) []

/-- Every server that the layout names, in the order of first appearance. -/
def servers (l : Layout) : List NodeId := firstAppearances (l.regions.flatMap (·.servers))

/-- The servers other than `node` that hold a part of the span. -/
def sources (l : Layout) (node : NodeId) (s : Span) : List NodeId :=
  firstAppearances (((l.overlapping s).flatMap (·.servers)).filter (· != node))

/-! ## Changes of a layout -/

def successor (l : Layout) : Layout := { l with epoch := l.epoch + 1 }

/-- The layout with its first two regions in one. -/
def joinFirst (l : Layout) : Except Error Layout :=
  match l.regions with
  | r :: t :: rest => .ok { l with regions := r.join t :: rest }
  | _ => .error (.invalidLayout LayoutFault.single.reason)

/-- Whether the border between the first two regions says nothing. -/
def canJoinFirst (l : Layout) : Bool :=
  match l.regions with
  | r :: t :: _ => r.replicatedLike t
  | _ => false

/-- Leading regions joined for as long as the first two have the same topology. -/
def joinLeading : List Region → List Region
  | [] => []
  | [r] => [r]
  | r :: t :: rest => if r.replicatedLike t then joinLeading (r.join t :: rest) else r :: t :: rest
termination_by regions => regions.length

/-- The layout with its leading regions of one topology in one. -/
def collapse (l : Layout) : Layout := { l with regions := joinLeading l.regions }

/-- The layout with `node` in every stripe of every region that overlaps the span. -/
def replicate (l : Layout) (node : NodeId) (s : Span) : Layout :=
  { l with regions := l.regions.map fun r => if r.span.overlaps s then r.withServer node else r }

/-- Whether `node` holds the last region but has no part in some region before. -/
def hasHistoryToRestore (l : Layout) (node : NodeId) : Bool :=
  match l.regions.getLast? with
  | some last => last.heldBy node && l.regions.dropLast.any (fun r => !r.mentions node)
  | none => false

end Layout

end LogRepair
