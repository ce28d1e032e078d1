/-!
# Addresses and spans

An address is a position in the log, a signed 64-bit word. Valid positions are not negative,
but words below zero occur as trim marks and in documents that nobody checked. A span is an
inclusive range of addresses; one whose ends are the wrong way round contains nothing.

* `Span.length`: the number of addresses of a span.
* `Span.toList`: those addresses in ascending order.
* `Span.covers`: whether a sorted list of spans leaves no gap in another span.
-/

namespace LogRepair

/-- A position in the log. -/
abbrev Address := Int64

/-- The version of a layout. -/
abbrev Epoch := UInt64

/-- The name of a log server. -/
abbrev NodeId := String

/-- The word that stands where no address is known. -/
def noAddress : Address := -1

/-- The address `d` further on, held at the ends of the address space. -/
def Address.advance (x : Address) (d : Int64) : Address :=
  Int64.ofIntClamp (x.toInt + d.toInt)

/-- The first address that still matters above a trim mark. -/
def firstAbove (trimMark : Address) : Address :=
  let next := Address.advance trimMark 1
  if next < 0 then 0 else next

/-- The inclusive range of addresses from `first` to `last`. -/
structure Span where
  first : Address
  last : Address
deriving DecidableEq, Inhabited

namespace Span

instance : Membership Address Span := ⟨fun s x => s.first ≤ x ∧ x ≤ s.last⟩

instance (x : Address) (s : Span) : Decidable (x ∈ s) :=
  inferInstanceAs (Decidable (s.first ≤ x ∧ x ≤ s.last))

def length (s : Span) : UInt64 :=
  if s.last < s.first then 0 else (s.last - s.first + 1).toUInt64

/-- Whether each span begins no later than the other ends; between spans that are not empty,
whether they share an address. -/
def overlaps (s t : Span) : Bool :=
  s.first ≤ t.last && t.first ≤ s.last

def toList (s : Span) : List Address :=
  (List.range s.length.toNat).map fun i => s.first + Int64.ofNat i

theorem mem_iff {s : Span} {x : Address} : x ∈ s ↔ s.first ≤ x ∧ x ≤ s.last := Iff.rfl

theorem overlaps_iff {s t : Span} : s.overlaps t = true ↔ s.first ≤ t.last ∧ t.first ≤ s.last := by
  simp [overlaps]

theorem overlaps_comm (s t : Span) : s.overlaps t = t.overlaps s := by
  simp [overlaps, Bool.and_comm]

/-- Spans that share an address overlap. -/
theorem overlaps_of_mem {s t : Span} {x : Address} (hs : x ∈ s) (ht : x ∈ t) :
    s.overlaps t = true := by
  rw [overlaps_iff]
  rw [mem_iff] at hs ht
  grind

/-- Spans that overlap and are not empty share an address, the later of their beginnings. -/
theorem exists_mem_of_overlaps {s t : Span} (hs : s.first ≤ s.last) (ht : t.first ≤ t.last)
    (h : s.overlaps t = true) : ∃ x, x ∈ s ∧ x ∈ t := by
  rw [overlaps_iff] at h
  by_cases hle : s.first ≤ t.first
  · exact ⟨t.first, mem_iff.mpr ⟨hle, h.2⟩, mem_iff.mpr ⟨by grind, ht⟩⟩
  · exact ⟨s.first, mem_iff.mpr ⟨by grind, hs⟩, mem_iff.mpr ⟨by grind, h.1⟩⟩

/-- For spans that are not empty, to overlap is to share an address. -/
theorem overlaps_iff_exists_mem {s t : Span} (hs : s.first ≤ s.last) (ht : t.first ≤ t.last) :
    s.overlaps t = true ↔ ∃ x, x ∈ s ∧ x ∈ t :=
  ⟨exists_mem_of_overlaps hs ht, fun ⟨_, hxs, hxt⟩ => overlaps_of_mem hxs hxt⟩

/-- The order of spans by first and then by last address. -/
def le (s t : Span) : Bool :=
  s.first < t.first || (s.first == t.first && s.last ≤ t.last)

/-- Whether `spans`, in ascending order, contain every address from `from_` to `last`. -/
def coversFrom (from_ last : Address) : List Span → Bool
  | [] => false
  | s :: rest =>
    if s.last < from_ then coversFrom from_ last rest
    else if from_ < s.first then false
    else if last ≤ s.last then true
    else coversFrom (s.last + 1) last rest

def covers (spans : List Span) (target : Span) : Bool :=
  target.last < target.first || coversFrom target.first target.last spans

end Span

end LogRepair
