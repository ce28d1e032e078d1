import LogRepair.Layout.Basic

/-!
# A store of layouts

One committed layout, the layouts that were committed by proposal, and the trim mark. A
proposal is accepted only if its epoch follows that of the committed layout, so of two writers
who started from one layout the second is refused.
-/

namespace LogRepair

/-- The committed layout, how it came to be, and the trim mark. -/
structure LayoutStore where
  layout : Layout
  /-- The accepted proposals, oldest first. -/
  committed : List Layout := []
  trimMark : Address := noAddress
deriving DecidableEq, Inhabited

namespace LayoutStore

/-- Commits a proposal whose epoch is the next one. -/
def propose (s : LayoutStore) (proposal : Layout) : LayoutStore × Except Error Unit :=
  if proposal.epoch = s.layout.epoch + 1 then
    ({ s with layout := proposal, committed := s.committed ++ [proposal] }, .ok ())
  else (s, .error (.staleEpoch proposal.epoch s.layout.epoch))

/-- Replaces the layout whatever its epoch, as another component would that reconfigures the
cluster. -/
def install (s : LayoutStore) (layout : Layout) : LayoutStore := { s with layout }

def setTrimMark (s : LayoutStore) (trimMark : Address) : LayoutStore := { s with trimMark }

/-- A request to the store. -/
inductive Request
  | propose (layout : Layout)
  /-- Proposes the committed layout itself, with the next epoch. -/
  | proposeNext
  | install (layout : Layout)
  | setTrimMark (trimMark : Address)

def serve (s : LayoutStore) : Request → LayoutStore × Except Error Unit
  | .propose layout => s.propose layout
  | .proposeNext => s.propose s.layout.successor
  | .install layout => (s.install layout, .ok ())
  | .setTrimMark trimMark => (s.setTrimMark trimMark, .ok ())

end LayoutStore

end LogRepair
