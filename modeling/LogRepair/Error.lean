import LogRepair.Address

/-!
# Errors

The ways in which an operation of the library is refused, each with its wording
(`Error.message`), and whether trying again may help (`Error.isRetryable`). A failed copy is
not an error of a cycle: it is kept as a `Failure` on the segment that it struck.
-/

namespace LogRepair

/-- Why an operation is refused. -/
inductive Error
  /-- The bounds or the progress of a tracked segment cannot be. -/
  | invalidSegment (first last : Address) (reason : String)
  /-- The settings are unusable. -/
  | invalidConfig (reason : String)
  | invalidLayout (reason : String)
  /-- The proposal does not follow the committed layout. -/
  | staleEpoch (proposed current : Epoch)
  /-- Addresses could not be copied. -/
  | transfer (reason : String)
  | cancelled
  | cycleInProgress
  /-- An operation was asked for that the state of things does not allow. -/
  | internal (reason : String)
  /-- A worker died while it copied a batch. -/
  | workerCrashed
deriving DecidableEq

namespace Error

def message : Error → String
  | invalidSegment first last reason =>
    s!"invalid transfer segment [{first}, {last}]: {reason}"
  | invalidConfig reason => s!"config error: {reason}"
  | invalidLayout reason => s!"invalid layout: {reason}"
  | staleEpoch proposed current => s!"stale epoch: proposed {proposed}, current {current}"
  | transfer reason => s!"transfer failed: {reason}"
  | cancelled => "operation cancelled"
  | cycleInProgress => "reconciliation cycle already in progress"
  | internal reason => s!"internal error: {reason}"
  | workerCrashed => "internal error: batch worker failed"

/-- Whether the same request may succeed later, with nothing changed by the caller. -/
def isRetryable : Error → Bool
  | transfer _ | staleEpoch _ _ | cancelled | cycleInProgress => true
  | invalidSegment _ _ _ | invalidConfig _ | invalidLayout _ | internal _ | workerCrashed => false

end Error

/-- Why the last attempt to copy a segment failed. -/
structure Failure where
  cause : String
deriving DecidableEq, Inhabited

def Failure.ofError (e : Error) : Failure := ⟨e.message⟩

end LogRepair
