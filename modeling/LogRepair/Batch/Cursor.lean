import LogRepair.Address

/-!
# Batch cursors

A cursor hands out the addresses of a span in ranges of at most `batchSize` addresses. Only the
position is kept, so a long span costs no more than a short one. A batch size is an unsigned
word that is read as a signed one: a size of `2 ^ 63` or more walks downwards and never ends.
-/

namespace LogRepair

/-- A place in a span, and how far each range reaches. -/
structure Cursor where
  /-- The next address to hand out; none once the last address of all is passed. -/
  position : Option Address
  last : Address
  batchSize : UInt64
deriving DecidableEq, Inhabited

namespace Cursor

/-- A cursor at the beginning of a span. A batch has at least one address. -/
def ofSpan (s : Span) (batchSize : UInt64) : Cursor := ⟨some s.first, s.last, max batchSize 1⟩

def isDone (c : Cursor) : Bool :=
  match c.position with
  | none => true
  | some first => c.last < first

/-- The last address of the range that begins at `first`. -/
def rangeEnd (c : Cursor) (first : Address) : Address :=
  let full := Address.advance first (c.batchSize.toInt64 - 1)
  if c.last < full then c.last else full

/-- The address after `x`, unless `x` is the last of all. -/
def after (x : Address) : Option Address := if x = Int64.maxValue then none else some (x + 1)

/-- The next range, and the cursor behind it. -/
def next? (c : Cursor) : Option (Span × Cursor) :=
  match c.position with
  | none => none
  | some first =>
    if c.last < first then none
    else
      let last := c.rangeEnd first
      some (⟨first, last⟩, { c with position := after last })

/-- What the cursor says of itself in at most `limit` steps: whether it is exhausted, and the
next range. The walk stops after the first step without a range. -/
def walk (c : Cursor) : Nat → List (Bool × Option Span)
  | 0 => []
  | limit + 1 =>
    match c.next? with
    | none => [(c.isDone, none)]
    | some (range, rest) => (c.isDone, some range) :: rest.walk limit

/-- The cursor after a call. A call without a range leaves it as it is. -/
def rest (c : Cursor) : Cursor :=
  match c.next? with
  | none => c
  | some (_, rest) => rest

/-- The cursor after a number of calls. -/
def afterCalls (c : Cursor) : Nat → Cursor
  | 0 => c
  | n + 1 => (c.afterCalls n).rest

/-- The range that the next call gives after a number of calls. -/
def range? (c : Cursor) (n : Nat) : Option Span := (c.afterCalls n).next?.map (·.1)

end Cursor

end LogRepair
