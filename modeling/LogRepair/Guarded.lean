import LogRepair.Cycle.Workload
import LogRepair.Layout.Redundancy
import LogRepair.Tracked.Reconcile

/-!
# Guarded arithmetic

A cycle reckons with machine words, and a sum of words that is too large wraps. Here the same is
reckoned with integers, and a computation stops at the first result that no word stands for.

* `Guarded.length`: the number of addresses of a span.
* `Guarded.neededSpan`, `Guarded.covered`: what a region asks of a node above a trim mark, and
  whether copied spans cover that.
* `Guarded.overlay`: a fresh segment in the light of old ones.
* `Guarded.noteFor`, `Guarded.ofWorkers`, `Guarded.total`: what the chunks of a target come to.
-/

namespace LogRepair.Guarded

/-! ## Words for integers -/

/-- The address for an integer, if it has one. -/
def address? (i : Int) : Option Address :=
  if Int64.minValue.toInt ≤ i ∧ i ≤ Int64.maxValue.toInt then some (.ofInt i) else none

/-- The word for a count, if it has one. -/
def count? (n : Nat) : Option UInt64 := if n < UInt64.size then some (.ofNat n) else none

def add (x y : Address) : Option Address := address? (x.toInt + y.toInt)

def sub (x y : Address) : Option Address := address? (x.toInt - y.toInt)

def addCounts (m n : UInt64) : Option UInt64 := count? (m.toNat + n.toNat)

/-! ## Spans and layouts -/

def length (s : Span) : Option UInt64 :=
  if s.last < s.first then some 0
  else do
    let distance ← sub s.last s.first
    let number ← add distance 1
    return number.toUInt64

/-- Whether the spans contain every address from `from_` to `last`. -/
def coversFrom (from_ last : Address) : List Span → Option Bool
  | [] => some false
  | s :: rest =>
    if s.last < from_ then coversFrom from_ last rest
    else if from_ < s.first then some false
    else if last ≤ s.last then some true
    else do
      let next ← add s.last 1
      coversFrom next last rest

/-- What a region asks of a node above the trim mark, if anything. The address after the trim mark
need not be a word. -/
def neededSpan (trimMark : Address) (r : Region) : Option (Option Span) := do
  let last ← sub r.stop 1
  let first := max r.start.toInt (max 0 (trimMark.toInt + 1))
  if last.toInt < first then return none
  else
    let first ← address? first
    return some ⟨first, last⟩

/-- Whether the spans cover what a region asks. -/
def covered (trimMark : Address) (spans : List Span) (r : Region) : Option Bool := do
  match ← neededSpan trimMark r with
  | none => return true
  | some s => coversFrom s.first s.last spans

/-! ## Reconciliation -/

/-- The part of `fresh` from `cursor` on, cut where the `old` segments begin and end. -/
def cut (fresh : TrackedSegment) (cursor : Address) :
    List TrackedSegment → Option (List TrackedSegment)
  | [] => some (if cursor ≤ fresh.last then [⟨⟨cursor, fresh.last⟩, fresh.progress⟩] else [])
  | old :: rest => do
    let first := if fresh.first < old.first then old.first else fresh.first
    let last := if old.last < fresh.last then old.last else fresh.last
    let shared : TrackedSegment := ⟨⟨first, last⟩, old.progress.join fresh.progress⟩
    let next ← add last 1
    let tail ← cut fresh next rest
    if cursor < first then
      let before ← sub first 1
      return ⟨⟨cursor, before⟩, fresh.progress⟩ :: shared :: tail
    else return shared :: tail

/-- A piece with its progress in terms of its own length. -/
def restated (p : TrackedSegment) : Option TrackedSegment := do
  let number ← length p.toSpan
  return { p with progress := p.progress.restate p.progress.copied number }

/-- The piece `p` grown by the piece after it. -/
def extendBy (p next : TrackedSegment) : Option TrackedSegment := do
  let copied ← addCounts p.progress.copied next.progress.copied
  let number ← length ⟨p.first, next.last⟩
  return ⟨⟨p.first, next.last⟩, p.progress.restate copied number⟩

/-- The pieces after the open piece `p`, with neighbours of one state joined. -/
def joinAfter (p : TrackedSegment) : List TrackedSegment → Option (List TrackedSegment)
  | [] => some [p]
  | next :: rest => do
    let behind ← add p.last 1
    if behind = next.first && p.state = next.state then
      let grown ← extendBy p next
      joinAfter grown rest
    else
      let opened ← restated next
      let joined ← joinAfter opened rest
      return p :: joined

def joinNeighbours : List TrackedSegment → Option (List TrackedSegment)
  | [] => some []
  | p :: rest => do
    let opened ← restated p
    joinAfter opened rest

/-- The pieces of a fresh segment in the light of the old segments that overlap it. -/
def overlay (old : List TrackedSegment) (fresh : TrackedSegment) :
    Option (List TrackedSegment) := do
  let overlapping := (old.filter (·.overlaps fresh)).mergeSort TrackedSegment.startsBy
  let pieces ← cut fresh fresh.first overlapping
  joinNeighbours pieces

/-! ## Tallies -/

/-- The tally with the outcome of one more chunk. -/
def note (t : Tally) : ChunkOutcome → Option Tally
  | .processed present result => do
    let present ← addCounts t.present present
    let written ← addCounts t.written result.transferred
    return { t with present, written, failure := t.failure.or result.failure }
  | .held present => do
    let present ← addCounts t.present present
    return { t with present }
  | .dropped => some { t with cancelled := true }

/-- The tallies of the workers with the outcome of one more chunk of one of them. -/
def noteFor (worker : Nat) (o : ChunkOutcome) : List (Nat × Tally) → Option (List (Nat × Tally))
  | [] => do
    let noted ← note {} o
    return [(worker, noted)]
  | (k, t) :: rest =>
    if k = worker then do
      let noted ← note t o
      return (k, noted) :: rest
    else do
      let noted ← noteFor worker o rest
      return (k, t) :: noted

/-- The tallies of two workers in one. -/
def append (t u : Tally) : Option Tally := do
  let present ← addCounts t.present u.present
  let written ← addCounts t.written u.written
  return ⟨present, written, t.failure.or u.failure, t.cancelled || u.cancelled⟩

/-- The tally `t` with those of further workers, one after another. -/
def appendAll (t : Tally) : List Tally → Option Tally
  | [] => some t
  | u :: us => do
    let joined ← append t u
    appendAll joined us

/-- The tallies of all workers in one, in the order in which the workers ended. -/
def ofWorkers (tallies : List Tally) : Option Tally := appendAll {} tallies

/-- The addresses of the target that the local log holds now. -/
def total (t : Tally) : Option UInt64 := addCounts t.present t.written

end LogRepair.Guarded
