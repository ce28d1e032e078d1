import LogRepair.Tracked.Progress

/-!
# Tracked segments

A tracked segment is a span of addresses under restoration together with its progress.
`TrackedSegment.create` refuses what cannot be: bounds below zero or the wrong way round, a
fully copied segment that does not report its whole length, or a report above the length. Values
that come from documents are not checked, so the type itself admits anything.

* `TrackedSegment.attempted`, `interrupted`, `listed`: the segment after an attempt to copy it,
  after an attempt that was cut short, and once the layout lists this node.
* `TrackedSegment.Event`, `TrackedSegment.apply`: these changes as data.
-/

namespace LogRepair

/-- A span under restoration, and how far its copy has come. -/
structure TrackedSegment extends Span where
  progress : Progress
deriving DecidableEq, Inhabited

/-- What is wrong with the bounds or the progress of a segment. -/
inductive SegmentFault
  | negativeFirst
  | negativeLast
  /-- The first address is after the last. -/
  | inverted
  /-- A fully copied segment of `length` addresses reports `copied` of them. -/
  | incomplete (state : CopyState) (copied length : UInt64)
  /-- A segment of `length` addresses reports more of them as copied. -/
  | excessive (copied length : UInt64)
  /-- A segment from parts has no progress. -/
  | missingProgress
deriving DecidableEq

def SegmentFault.reason : SegmentFault → String
  | negativeFirst => "start address is negative"
  | negativeLast => "end address is negative"
  | inverted => "start address is after end address"
  | incomplete state copied length =>
    let name := state.text
    s!"{name} segment reports {copied} of {length} addresses transferred"
  | excessive copied length =>
    s!"{copied} addresses transferred exceeds segment length {length}"
  | missingProgress => "status is missing"

namespace TrackedSegment

def state (s : TrackedSegment) : CopyState := s.progress.state

def length (s : TrackedSegment) : UInt64 := s.toSpan.length

def isDue (s : TrackedSegment) : Bool := s.state.isDue

/-- Whether this node holds the whole segment. -/
def isComplete (s : TrackedSegment) : Bool := s.state.isComplete

def overlaps (s t : TrackedSegment) : Bool := s.toSpan.overlaps t.toSpan

/-- The first thing wrong with a segment, if any. -/
def fault? (s : TrackedSegment) : Option SegmentFault :=
  if s.first < 0 then some .negativeFirst
  else if s.last < 0 then some .negativeLast
  else if s.last < s.first then some .inverted
  else if s.isComplete && s.progress.copied != s.length then
    some (.incomplete s.state s.progress.copied s.length)
  else if s.length < s.progress.copied then some (.excessive s.progress.copied s.length)
  else none

/-- The error that reports a fault of a segment. -/
def invalid (span : Span) (fault : SegmentFault) : Error :=
  .invalidSegment span.first span.last fault.reason

/-- The segment itself if nothing is wrong with it. -/
def checked (s : TrackedSegment) : Except Error TrackedSegment :=
  match s.fault? with
  | some fault => .error (invalid s.toSpan fault)
  | none => .ok s

/-- A checked segment over a span. -/
def create (span : Span) (progress : Progress) : Except Error TrackedSegment :=
  checked ⟨span, progress⟩

def notTransferred (span : Span) : Except Error TrackedSegment :=
  create span (.notTransferred 0)

/-- A segment that this node holds and the layout lists. -/
def restored (span : Span) : Except Error TrackedSegment :=
  create span (.restored span.length)

/-- A segment from parts that may be missing; a missing bound counts as no address. -/
def ofParts (first last : Option Address) (progress : Option Progress) :
    Except Error TrackedSegment :=
  let span : Span := ⟨first.getD noAddress, last.getD noAddress⟩
  match progress with
  | none => .error (invalid span .missingProgress)
  | some progress => create span progress

/-- The segment over the same span with other progress. -/
def withProgress (s : TrackedSegment) (progress : Progress) : Except Error TrackedSegment :=
  create s.toSpan progress

/-- The addresses that count as copied after an attempt that copied `copied` of them: never
fewer than before and never more than there are. -/
def creditFor (s : TrackedSegment) (copied : UInt64) : UInt64 :=
  min (max copied s.progress.copied) s.length

/-- The progress after an attempt that copied `copied` addresses. Without a failure a complete
copy is a success, and a short one is itself a failure. -/
def outcome (s : TrackedSegment) (copied : UInt64) : Option Failure → Progress
  | some failure => .failed (s.creditFor copied) failure
  | none =>
    let total := s.creditFor copied
    let length := s.length
    if total = length then .transferred length
    else .failed total ⟨s!"transferred {total} of {length} addresses"⟩

/-- The segment after an attempt to copy it, which only an eligible segment can have had. -/
def attempted (s : TrackedSegment) (copied : UInt64) (failure : Option Failure) :
    Except Error TrackedSegment :=
  if s.isDue then s.withProgress (s.outcome copied failure)
  else
    let name := s.state.text
    .error (.internal
      s!"segment [{s.first}, {s.last}] in state {name} is not eligible for transfer")

/-- The segment after an attempt that was cut short: the copied addresses are credited and the
state stays. -/
def interrupted (s : TrackedSegment) (copied : UInt64) : Except Error TrackedSegment :=
  s.withProgress { s.progress with copied := s.creditFor copied }

/-- The segment once the layout lists this node for all of it. -/
def listed (s : TrackedSegment) : Except Error TrackedSegment :=
  if s.isComplete then s.withProgress (.restored s.length)
  else
    let name := s.state.text
    .error (.internal s!"segment [{s.first}, {s.last}] cannot be restored from state {name}")

/-- A segment in words. -/
def describe (s : TrackedSegment) : String :=
  let name := s.state.text
  let copied := s.progress.copied
  let length := s.length
  s!"[{s.first}, {s.last}] {name} ({copied}/{length})"
    ++ (match s.progress.failure with
        | some failure => ": " ++ failure.cause
        | none => "")

/-- A change in the life of a segment. -/
inductive Event
  | attempt (copied : UInt64) (failure : Option Failure)
  | interruption (copied : UInt64)
  | listing
  | replacement (progress : Progress)

def apply (s : TrackedSegment) : Event → Except Error TrackedSegment
  | .attempt copied failure => s.attempted copied failure
  | .interruption copied => s.interrupted copied
  | .listing => s.listed
  | .replacement progress => s.withProgress progress

/-- The order of segments by their first address alone. -/
def startsBy (s t : TrackedSegment) : Bool := s.first ≤ t.first

end TrackedSegment

end LogRepair
