import LogRepair.Error

/-!
# Batches

A batch is what one transfer request asks for: addresses in ascending order and, if any are
known, the servers to read them from. A `BatchResult` says which addresses a request wrote.

* `BatchResult.append`: two results in one; the first cause and the first hint are kept.
* `BatchResult.concat`: the combination of a whole list.
-/

namespace LogRepair

/-- What one transfer request asks for. -/
structure Batch where
  /-- The addresses to copy, ascending. -/
  addresses : List Address
  /-- The servers that hold the addresses, in order of preference. -/
  sources : Option (List NodeId)
deriving DecidableEq, Inhabited

namespace Batch

def empty : Batch := ⟨[], none⟩

/-- The addresses of a span that are not among `present`. -/
def missing (s : Span) (present : List Address) : Batch :=
  ⟨s.toList.filter (!present.contains ·), none⟩

/-- The batch with the servers to read from; no server is no hint. -/
def withSources (b : Batch) (nodes : List NodeId) : Batch :=
  { b with sources := if nodes.isEmpty then none else some nodes }

def size (b : Batch) : Nat := b.addresses.length

def isEmpty (b : Batch) : Bool := b.addresses.isEmpty

def first? (b : Batch) : Option Address := b.addresses.head?

def last? (b : Batch) : Option Address := b.addresses.getLast?

end Batch

/-- Whether a batch copied all it was asked to. -/
inductive BatchStatus
  | succeeded
  | failed
deriving DecidableEq, Inhabited

/-- What came of a batch. -/
structure BatchResult where
  /-- The addresses that were written: all of the batch after a success. -/
  batch : Batch
  status : BatchStatus
  failure : Option Failure
deriving DecidableEq, Inhabited

namespace BatchResult

def succeeded (batch : Batch) : BatchResult := ⟨batch, .succeeded, none⟩

/-- The request failed after `written`. -/
def failed (written : Batch) (failure : Failure) : BatchResult := ⟨written, .failed, some failure⟩

def empty : BatchResult := succeeded .empty

def isSuccess (r : BatchResult) : Bool := r.status = .succeeded

def transferred (r : BatchResult) : UInt64 := .ofNat r.batch.size

/-- Two results in one. The written addresses accumulate, any failure wins, and the earliest
cause is kept. -/
def append (a b : BatchResult) : BatchResult where
  batch :=
    { addresses := (a.batch.addresses ++ b.batch.addresses).mergeSort fun x y => x ≤ y
      sources := a.batch.sources.or b.batch.sources }
  status := if a.isSuccess && b.isSuccess then .succeeded else .failed
  failure := if a.isSuccess && b.isSuccess then none else a.failure.or b.failure

/-- A list of results in one; no work is a success. -/
def concat (results : List BatchResult) : BatchResult := results.foldl append empty

/-- The results of combining one after another, beginning with no work. -/
def partials (results : List BatchResult) : List BatchResult :=
  go empty results
where
  go (sofar : BatchResult) : List BatchResult → List BatchResult
    | [] => [sofar]
    | r :: rest => sofar :: go (sofar.append r) rest

end BatchResult

end LogRepair
