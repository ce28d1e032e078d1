import LogRepair.Cycle.Run
import LogRepair.Layout.Store

/-!
# Coordinators that share a store

Several coordinators, each for a node of its own, read their layouts from one store and propose
to it. The store answers one request after another; what else happens to the coordinators is
interleaved with that as it likes.

* `LayoutStore.Answers`: a reply that speaks for the store says what the store says.
* `LayoutStore.after`: the store once a question was answered.
* `Cluster.Run`: the runs of coordinators that share a store.
-/

namespace LogRepair

namespace LayoutStore

/-- The replies about layouts are those of the store. Nothing is said of other replies. -/
def Answers (s : LayoutStore) : Coordinator.Happening → Prop
  | .reply .readingLayout answer => answer = .ok s.layout
  | .reply (.refreshing _ _) answer => answer = .ok s.layout
  | .reply (.proposing _ _ _ proposal _) answer => answer = (s.propose proposal).2
  | _ => True

/-- The store afterwards. Only proposals change it. -/
def after (s : LayoutStore) : Coordinator.Happening → LayoutStore
  | .reply (.proposing _ _ _ proposal _) _ => (s.propose proposal).1
  | _ => s

end LayoutStore

/-- A store, and the coordinators that share it. -/
structure Cluster (ι : Type) where
  store : LayoutStore
  member : ι → Coordinator

namespace Cluster

variable {ι : Type} [DecidableEq ι]

/-- Something happens to a coordinator of the cluster. -/
structure Moment (ι : Type) where
  before : Cluster ι
  who : ι
  happening : Coordinator.Happening

namespace Moment

/-- The coordinator to which it happens, before it does. -/
def actor (m : Moment ι) : Coordinator := m.before.member m.who

def after (m : Moment ι) : Cluster ι where
  store := m.before.store.after m.happening
  member i := if i = m.who then (m.happening.turn m.actor).coordinator else m.before.member i

end Moment

/-- The moments that lead from one cluster to another, latest first. -/
inductive Run (start : Cluster ι) : List (Moment ι) → Cluster ι → Prop
  | nil : Run start [] start
  | cons {moments : List (Moment ι)} {m : Moment ι} (run : Run start moments m.before)
      (possible : m.happening.Possible m.actor) (answers : m.before.store.Answers m.happening) :
      Run start (m :: moments) m.after

end Cluster

end LogRepair
