import LogRepair.Error

/-!
# Copy progress

How far the copy of a range has come: a state, a count of copied addresses and, after a
failed attempt, its cause. States are ranked; when two records speak of the same addresses,
`Progress.join` keeps the one of higher rank, so nothing restored is taken back and no failure
is forgotten for a range that was never tried.

* `Progress.join`: the record that survives.
* `Progress.restate`: a record put in terms of a range of another length.
-/

namespace LogRepair

/-- How the copy of a range stands. -/
inductive CopyState
  /-- Nothing was tried yet, or an attempt was cut short. -/
  | notTransferred
  /-- Every address is copied, and the layout does not list this node yet. -/
  | transferred
  /-- The last attempt failed. -/
  | failed
  /-- The layout lists this node for the range. -/
  | restored
deriving DecidableEq, Inhabited

namespace CopyState

def text : CopyState → String
  | notTransferred => "not_transferred"
  | transferred => "transferred"
  | failed => "failed"
  | restored => "restored"

def rank : CopyState → Nat
  | notTransferred => 0
  | transferred => 1
  | failed => 2
  | restored => 3

/-- Whether an attempt to copy is due. -/
def isDue : CopyState → Bool
  | notTransferred | failed => true
  | transferred | restored => false

/-- Whether every address is held by this node. -/
def isComplete : CopyState → Bool
  | transferred | restored => true
  | notTransferred | failed => false

end CopyState

/-- How far the copy of a range has come. -/
structure Progress where
  state : CopyState
  copied : UInt64
  failure : Option Failure
deriving DecidableEq, Inhabited

namespace Progress

/-- Nothing is settled but `copied` addresses. -/
def notTransferred (copied : UInt64) : Progress := ⟨.notTransferred, copied, none⟩

/-- All of the `copied` addresses are there. -/
def transferred (copied : UInt64) : Progress := ⟨.transferred, copied, none⟩

/-- An attempt failed after `copied` addresses. -/
def failed (copied : UInt64) (failure : Failure) : Progress := ⟨.failed, copied, some failure⟩

/-- All of the `copied` addresses are there, and the layout says so. -/
def restored (copied : UInt64) : Progress := ⟨.restored, copied, none⟩

/-- A failure is recorded exactly in the failed state. -/
def WellFormed (p : Progress) : Prop := p.failure.isSome = true ↔ p.state = .failed

instance (p : Progress) : Decidable p.WellFormed :=
  inferInstanceAs (Decidable (p.failure.isSome = true ↔ p.state = .failed))

/-- Whether `old` survives beside `fresh`: it has the higher state, or the same state and more
addresses copied. -/
def outranks (old fresh : Progress) : Bool :=
  fresh.state.rank < old.state.rank
    || (old.state = fresh.state && fresh.copied < old.copied)

/-- The record that survives where an old and a fresh one describe the same addresses. -/
def join (old fresh : Progress) : Progress :=
  if old.outranks fresh then old else fresh

/-- The record `p` for a range of `length` addresses of which `copied` are said to be copied. A
fully copied range has all of them, and any other at most all. The count of a failed record is
its own and never grows. -/
def restate (p : Progress) (copied length : UInt64) : Progress :=
  match p.state with
  | .transferred => .transferred length
  | .restored => .restored length
  | .notTransferred => .notTransferred (min copied length)
  | .failed => { p with copied := min p.copied (min copied length) }

end Progress

end LogRepair
