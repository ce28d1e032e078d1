import LogRepair.Batch.Basic
import LogRepair.Json.Basic
import LogRepair.Layout.Basic
import LogRepair.Tracked.Segment

/-!
# Documents of the domain

How values are written as documents and read back. Writing a record gives an object with every
field, `null` for what is absent. Reading takes a record also as an array of its fields, lets
optional fields be missing, and passes over fields that it does not know. Only layouts are
checked when they are read.

* `toJson` of each type: its document.
* `ofJson?` of each type: the value of a document, if it has one.
* `Layout.ofJson`: a layout, or whether the document or the layout is at fault.
-/

namespace LogRepair

/-! ## Names -/

/-- Reads one of a list of names, given as a string or as the only member of an object, with
`null`. -/
def Json.variant? {α : Type} (names : List (String × α)) : Json → Option α
  | .string name => names.lookup name
  | .object [(name, .null)] => names.lookup name
  | _ => none

namespace CopyState

def name : CopyState → String
  | notTransferred => "NotTransferred"
  | transferred => "Transferred"
  | failed => "Failed"
  | restored => "Restored"

def toJson (s : CopyState) : Json := .string s.name

def ofJson? : Json → Option CopyState :=
  Json.variant? ([notTransferred, transferred, failed, restored].map fun s => (s.name, s))

end CopyState

namespace BatchStatus

def name : BatchStatus → String
  | succeeded => "Succeeded"
  | failed => "Failed"

def toJson (s : BatchStatus) : Json := .string s.name

def ofJson? : Json → Option BatchStatus :=
  Json.variant? ([succeeded, failed].map fun s => (s.name, s))

end BatchStatus

/-! ## Records -/

namespace Failure

def fieldNames : List String := ["cause"]

def toJson (f : Failure) : Json := .record fieldNames [.string f.cause]

def ofJson? (j : Json) : Option Failure := do
  match ← j.fields? fieldNames with
  | [cause] => return ⟨← Json.required? Json.string? cause⟩
  | _ => none

end Failure

namespace Progress

def fieldNames : List String := ["segment_state", "total_transferred", "cause_of_failure"]

def toJson (p : Progress) : Json :=
  .record fieldNames
    [p.state.toJson, .ofUInt64 p.copied, .ofOption Failure.toJson p.failure]

def ofJson? (j : Json) : Option Progress := do
  match ← j.fields? fieldNames with
  | [state, copied, failure] =>
    return ⟨← Json.required? CopyState.ofJson? state, ← Json.required? Json.uint64? copied,
      ← Json.optional? Failure.ofJson? failure⟩
  | _ => none

end Progress

namespace TrackedSegment

def fieldNames : List String := ["start_address", "end_address", "status"]

def toJson (s : TrackedSegment) : Json :=
  .record fieldNames [.ofInt64 s.first, .ofInt64 s.last, s.progress.toJson]

def ofJson? (j : Json) : Option TrackedSegment := do
  match ← j.fields? fieldNames with
  | [first, last, progress] =>
    let span : Span := ⟨← Json.required? Json.int64? first, ← Json.required? Json.int64? last⟩
    return ⟨span, ← Json.required? Progress.ofJson? progress⟩
  | _ => none

end TrackedSegment

namespace Batch

def fieldNames : List String := ["addresses", "source_nodes"]

def toJson (b : Batch) : Json :=
  .record fieldNames
    [.ofList .ofInt64 b.addresses, .ofOption (.ofList .string) b.sources]

def ofJson? (j : Json) : Option Batch := do
  match ← j.fields? fieldNames with
  | [addresses, sources] =>
    return ⟨← Json.required? (Json.list? Json.int64?) addresses,
      ← Json.optional? (Json.list? Json.string?) sources⟩
  | _ => none

end Batch

namespace Stripe

def fieldNames : List String := ["log_servers"]

def toJson (s : Stripe) : Json := .record fieldNames [.ofList .string s.servers]

def ofJson? (j : Json) : Option Stripe := do
  match ← j.fields? fieldNames with
  | [servers] => return ⟨← Json.required? (Json.list? Json.string?) servers⟩
  | _ => none

end Stripe

namespace Region

def fieldNames : List String := ["start", "end", "stripes"]

def toJson (r : Region) : Json :=
  .record fieldNames
    [.ofInt64 r.start, .ofInt64 r.stop, .ofList Stripe.toJson r.stripes]

def ofJson? (j : Json) : Option Region := do
  match ← j.fields? fieldNames with
  | [start, stop, stripes] =>
    return ⟨← Json.required? Json.int64? start, ← Json.required? Json.int64? stop,
      ← Json.required? (Json.list? Stripe.ofJson?) stripes⟩
  | _ => none

end Region

namespace Layout

def fieldNames : List String := ["epoch", "segments"]

def toJson (l : Layout) : Json :=
  .record fieldNames [.ofUInt64 l.epoch, .ofList Region.toJson l.regions]

/-- The epoch and the regions of a document, not yet checked. -/
def partsOfJson? (j : Json) : Option (Epoch × List Region) := do
  match ← j.fields? fieldNames with
  | [epoch, regions] =>
    return (← Json.required? Json.uint64? epoch,
      ← Json.required? (Json.list? Region.ofJson?) regions)
  | _ => none

/-- Why a document gives no layout. -/
inductive ReadError
  /-- The document has another form. -/
  | malformed
  /-- The form is right, but the layout is refused. -/
  | refused (error : Error)

/-- Reads a layout and checks it. -/
def ofJson (j : Json) : Except ReadError Layout :=
  match partsOfJson? j with
  | none => .error .malformed
  | some (epoch, regions) => (create epoch regions).mapError .refused

end Layout

end LogRepair
