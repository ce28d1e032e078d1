import LogRepair.Cycle.Query
import LogRepair.Layout.Store

/-!
# A scripted world

The surroundings of a coordinator for rehearsals: a layout store, a local log that is only a
list of held addresses, and scripts and faults that decide how questions are answered.

* `World.answer`: the reply to a question, and the world after it.
* `World.change`: the changes that a rehearsal can make.
-/

namespace LogRepair

/-- What happens before a proposal reaches the store. -/
inductive ProposalTwist
  /-- Another writer commits the present layout in the next epoch. -/
  | bump
  /-- Another writer installs a layout. -/
  | install (layout : Layout)
  /-- The proposal is refused and does not reach the store. -/
  | refuse (error : Error)

/-- The surroundings of a coordinator. -/
structure World where
  store : LayoutStore
  held : List Address := []
  /-- Addresses that cannot be copied, latest first, and with which error. -/
  failing : List (Address × Option Error) := []
  /-- Addresses that a copy leaves out without a word. -/
  dropped : List Address := []
  /-- Addresses that kill the worker. -/
  deadly : List Address := []
  /-- Addresses that every copy claims to have written besides. -/
  extra : List Address := []
  /-- Addresses that are reported as held besides. -/
  presentExtra : List Address := []
  /-- The error that stands in for every report of held addresses. -/
  presentError : Option Error := none
  /-- Replies to come in place of the layout. -/
  layoutScript : List (Option Error) := []
  /-- Replies to come in place of the trim mark. -/
  trimScript : List (Option Error) := []
  proposeScript : List (Option ProposalTwist) := []

namespace World

/-- The error of an address that cannot be copied. -/
def failure? (w : World) (x : Address) : Option Error :=
  (w.failing.lookup x).map fun e => e.getD (.transfer s!"address {x} unavailable")

/-- The reply that a script puts in the place of `value`, and the rest of the script. -/
def scripted {α : Type} (value : α) : List (Option Error) → Except Error α × List (Option Error)
  | some e :: rest => (.error e, rest)
  | none :: rest => (.ok value, rest)
  | [] => (.ok value, [])

def hold (w : World) (addresses : List Address) : World :=
  { w with held := w.held ++ addresses.filter (!w.held.contains ·) }

def copy (w : World) (batch : Batch) : World × TransferReply :=
  if batch.addresses.any w.deadly.contains then (w, .crashed)
  else
    match batch.addresses.findSome? w.failure? with
    | some e => (w, .failed e)
    | none =>
      let written := batch.addresses.filter (!w.dropped.contains ·)
      (w.hold written, .written (written ++ w.extra))

def propose (w : World) (proposal : Layout) : World × Except Error Unit :=
  let twist := w.proposeScript.head?.join
  let w := { w with proposeScript := w.proposeScript.tail }
  let submit (store : LayoutStore) : World × Except Error Unit :=
    let (store, reply) := store.propose proposal
    ({ w with store }, reply)
  match twist with
  | some (.refuse e) => (w, .error e)
  | some .bump => submit (w.store.install w.store.layout.successor)
  | some (.install layout) => submit (w.store.install layout)
  | none => submit w.store

/-- The reply to a question, and the world after it. -/
def answer (w : World) : (q : Query) → World × q.Reply
  | .layout =>
    let (reply, layoutScript) := scripted w.store.layout w.layoutScript
    ({ w with layoutScript }, reply)
  | .trimMark =>
    let (reply, trimScript) := scripted w.store.trimMark w.trimScript
    ({ w with trimScript }, reply)
  | .present span =>
    (w, match w.presentError with
        | some e => .error e
        | none => .ok (w.held.filter (· ∈ span) ++ w.presentExtra))
  | .transfer batch => w.copy batch
  | .propose proposal => w.propose proposal

/-- A change that a rehearsal makes. -/
inductive Change
  | install (layout : Layout)
  | setTrimMark (trimMark : Address)
  | preload (addresses : List Address)
  | forget (addresses : List Address)
  | fail (addresses : List Address) (error : Option Error)
  | drop (addresses : List Address)
  | kill (addresses : List Address)
  | extra (addresses : List Address)
  | presentExtra (addresses : List Address)
  | presentError (error : Error)
  /-- Takes every fault away. -/
  | heal
  | layoutScript (script : List (Option Error))
  | trimScript (script : List (Option Error))
  | proposeScript (script : List (Option ProposalTwist))

def change (w : World) : Change → World
  | .install layout => { w with store := w.store.install layout }
  | .setTrimMark trimMark => { w with store := w.store.setTrimMark trimMark }
  | .preload addresses => w.hold addresses
  | .forget addresses => { w with held := w.held.filter (!addresses.contains ·) }
  | .fail addresses error => { w with failing := addresses.map (·, error) ++ w.failing }
  | .drop addresses => { w with dropped := addresses ++ w.dropped }
  | .kill addresses => { w with deadly := addresses ++ w.deadly }
  | .extra addresses => { w with extra := addresses }
  | .presentExtra addresses => { w with presentExtra := addresses }
  | .presentError error => { w with presentError := some error }
  | .heal =>
    { w with
      failing := [], dropped := [], deadly := [], extra := [], presentExtra := []
      presentError := none }
  | .layoutScript script => { w with layoutScript := script }
  | .trimScript script => { w with trimScript := script }
  | .proposeScript script => { w with proposeScript := script }

end World

end LogRepair
