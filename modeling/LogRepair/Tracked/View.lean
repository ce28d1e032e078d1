import LogRepair.Tracked.Segment

/-!
# Tracked lists, address by address

A tracked list is a list of segments in ascending order that share no address. What it says of a
single address is its view.

* `TrackedSegment.fault?_eq_none_iff`: what a segment without fault satisfies.
* `TrackedSegment.stateAt?_eq_some_iff`: in an ascending list the state at an address is that of
  the segment that contains it.
-/

namespace LogRepair.TrackedSegment

/-- Nothing is wrong with the segment, and it has a cause of failure exactly if it failed. -/
structure Valid (s : TrackedSegment) : Prop where
  fault_eq_none : s.fault? = none
  progress_wellFormed : s.progress.WellFormed

theorem fault?_eq_none_iff {s : TrackedSegment} :
    s.fault? = none ↔
      0 ≤ s.first ∧ s.first ≤ s.last ∧ s.progress.copied ≤ s.length ∧
        (s.isComplete = true → s.progress.copied = s.length) := by
  unfold fault?
  split
  · grind
  split
  · grind
  split
  · grind
  split
  · grind
  · split <;> grind

theorem checked_eq_ok_iff {s t : TrackedSegment} :
    s.checked = .ok t ↔ s.fault? = none ∧ t = s := by
  unfold checked
  cases h : s.fault? <;> simp [eq_comm]

/-- The segments are in ascending order and share no address. -/
def Ascending (tracked : List TrackedSegment) : Prop :=
  tracked.Pairwise fun s t => s.last < t.first

/-- The state in which a tracked list has an address. -/
def stateAt? (tracked : List TrackedSegment) (x : Address) : Option CopyState :=
  (tracked.find? fun s => x ∈ s.toSpan).map (·.state)

theorem exists_mem_of_stateAt? {tracked : List TrackedSegment} {x : Address} {state : CopyState}
    (h : stateAt? tracked x = some state) :
    ∃ s ∈ tracked, x ∈ s.toSpan ∧ s.state = state := by
  obtain ⟨s, hs, rfl⟩ := Option.map_eq_some_iff.mp h
  exact ⟨s, List.mem_of_find?_eq_some hs, by simpa using List.find?_some hs, rfl⟩

/-- At most one segment of an ascending list contains an address. -/
theorem Ascending.eq_of_mem {tracked : List TrackedSegment} (h : Ascending tracked)
    {s t : TrackedSegment} (hs : s ∈ tracked) (ht : t ∈ tracked) {x : Address}
    (hxs : x ∈ s.toSpan) (hxt : x ∈ t.toSpan) : s = t := by
  rw [Span.mem_iff] at hxs hxt
  induction tracked with
  | nil => simp at hs
  | cons u rest ih =>
    obtain ⟨hu, hrest⟩ := List.pairwise_cons.mp h
    rcases List.mem_cons.mp hs with hsu | hs'
    · rcases List.mem_cons.mp ht with htu | ht'
      · rw [hsu, htu]
      · have := hu t ht'
        grind
    · rcases List.mem_cons.mp ht with htu | ht'
      · have := hu s hs'
        grind
      · exact ih hrest hs' ht'

theorem stateAt?_eq_some_iff {tracked : List TrackedSegment} (h : Ascending tracked)
    {x : Address} {state : CopyState} :
    stateAt? tracked x = some state ↔ ∃ s ∈ tracked, x ∈ s.toSpan ∧ s.state = state := by
  refine ⟨exists_mem_of_stateAt?, ?_⟩
  rintro ⟨s, hs, hx, rfl⟩
  obtain ⟨t, ht⟩ : ∃ t, tracked.find? (fun s => x ∈ s.toSpan) = some t := by
    rw [← Option.isSome_iff_exists, List.find?_isSome]
    exact ⟨s, hs, by simpa using hx⟩
  have hxt : x ∈ t.toSpan := by simpa using List.find?_some ht
  rw [stateAt?, ht, h.eq_of_mem hs (List.mem_of_find?_eq_some ht) hx hxt]
  rfl

end LogRepair.TrackedSegment
