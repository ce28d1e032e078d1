import LogRepair.Batch.Basic
import LogRepair.Layout.Basic

/-!
# Questions of a cycle

A cycle reads no state but its own. Whatever it needs from outside it asks for, and waits for the
reply. `Query.Reply` is the type of the replies to a question, so that each question can only be
answered in kind.
-/

namespace LogRepair

inductive Query
  | layout
  | trimMark
  /-- The addresses of a span that the local log holds already. -/
  | present (span : Span)
  /-- To copy a batch into the local log. -/
  | transfer (batch : Batch)
  | propose (layout : Layout)

/-- What came of a request to copy a batch. -/
inductive TransferReply
  | written (addresses : List Address)
  | failed (error : Error)
  /-- The worker that made the request is gone. -/
  | crashed

def Query.Reply : Query → Type
  | .layout => Except Error Layout
  | .trimMark => Except Error Address
  | .present _ => Except Error (List Address)
  | .transfer _ => TransferReply
  | .propose _ => Except Error Unit

end LogRepair
