import LogRepair.Proofs.Cycle.Cluster
import LogRepair.Proofs.Cycle.Exact
import LogRepair.Proofs.Cycle.Marks
import LogRepair.Proofs.Cycle.Quiescence

/-!
# Drafts that are copied in full

What a cycle makes of its draft if all goes well. Every segment that needed a copy is transferred,
so each region of the layout is covered, every transferred segment can be claimed, and once the
layout lists them everything is restored.

* `Draft.filled`: the draft once everything is copied.
* `Coordinator.fulfils_relist`: marking what can be claimed restores everything.
* `Coordinator.heldBy_candidate_filled`: what the candidate lists the node for.
-/

namespace LogRepair

open TrackedSegment

/-! ## The draft once everything is copied -/

namespace TrackedSegment

theorem valid_asTransferred {s : TrackedSegment} (hs : s.Valid) : s.asTransferred.Valid := by
  have hvalid := valid_outcome hs s.length none
  rwa [outcome_length hs] at hvalid

/-- The segment once it needs no copy any more. -/
def filled (s : TrackedSegment) : TrackedSegment := if s.isDue then s.asTransferred else s

@[simp] theorem toSpan_filled (s : TrackedSegment) : s.filled.toSpan = s.toSpan := by
  unfold filled
  split <;> rfl

theorem valid_filled {s : TrackedSegment} (hs : s.Valid) : s.filled.Valid := by
  unfold filled
  split
  · exact valid_asTransferred hs
  · exact hs

theorem isComplete_filled (s : TrackedSegment) : s.filled.isComplete = true := by
  unfold filled
  split
  · rfl
  · next hdue => exact isComplete_of_isDue_eq_false (Bool.eq_false_iff.mpr hdue)

theorem state_filled_of_isDue {s : TrackedSegment} (h : s.isDue = true) :
    s.filled.state = .transferred := by
  rw [filled, if_pos h]
  rfl

end TrackedSegment

/-- The draft once everything that needs it is copied. -/
def Draft.filled (d : Draft) : Draft :=
  { d with
    tracked := d.tracked.map (·.filled)
    report := { d.report with transferred := d.report.candidates, cancelled := 0, failed := 0 } }

namespace Coordinator

theorem replaceCandidates_asTransferred (tracked : List TrackedSegment) :
    replaceCandidates tracked ((tracked.filter (·.isDue)).map (·.asTransferred)) =
      tracked.map (·.filled) := by
  induction tracked with
  | nil => rfl
  | cons s rest ih =>
    by_cases hdue : s.isDue = true
    · rw [List.filter_cons_of_pos hdue, List.map_cons, replaceCandidates_cons_of_isDue hdue, ih,
        List.map_cons, TrackedSegment.filled, if_pos hdue]
    · rw [List.filter_cons_of_neg hdue, replaceCandidates_cons_of_not_isDue hdue, ih,
        List.map_cons, TrackedSegment.filled, if_neg hdue]

theorem tallyFates_asTransferred (r : Report) (segments : List TrackedSegment) :
    tallyFates r (segments.map fun s => (s.asTransferred, false)) =
      { r with transferred := segments.length, cancelled := 0, failed := 0 } := by
  have htransferred : ∀ s : TrackedSegment, s.asTransferred.state = .transferred := fun _ => rfl
  have hkept : (segments.map fun s => (s.asTransferred, false)).filter (fun fate => !fate.2) =
      segments.map fun s => (s.asTransferred, false) := List.filter_eq_self.mpr (by simp)
  simp [tallyFates, hkept, countIn, List.countP_map, Function.comp_def, htransferred]

end Coordinator

/-! ## Listing what is copied -/

section

variable {l : Layout} {trimMark : Address} {tracked : List TrackedSegment}

/-- Once everything is copied, every segment that waits for the layout can be claimed. -/
theorem claimable_eq_filter (hl : l.Valid) (htracks : Tracks l trimMark tracked)
    (hcomplete : ∀ s ∈ tracked, s.isComplete = true) :
    l.claimable tracked trimMark = tracked.filter (·.state = .transferred) := by
  have hcovers : ∀ r ∈ l.regions,
      Span.covers (Layout.copiedSpans tracked) (Layout.neededSpan trimMark r) = true := by
    intro r hr
    refine (Layout.covers_copiedSpans_iff (hl.region hr)).mpr fun x hxr htrim => ?_
    obtain ⟨s, hs, hxs⟩ := htracks.exists_mem x ⟨r, hr, hxr⟩ htrim
    exact ⟨s, hs, hcomplete s hs, hxs⟩
  refine List.filter_congr fun s _ => ?_
  have hall : (l.overlapping s.toSpan).all
      (fun r => Span.covers (Layout.copiedSpans tracked) (Layout.neededSpan trimMark r)) = true :=
    List.all_eq_true.mpr fun r hr => hcovers r (List.mem_filter.mp hr).1
  rw [hall, Bool.and_true]

end

namespace Coordinator

/-- The list is restored, over the same ranges as the draft. -/
structure Fulfils (d : Draft) (tracked : List TrackedSegment) : Prop where
  spans_eq : tracked.map (·.toSpan) = d.tracked.map (·.toSpan)
  valid : ∀ s ∈ tracked, s.Valid
  restored : ∀ s ∈ tracked, s.state = .restored

/-- The layout in the store replaced the one that it had before, or is that one still, and lists the
node for all that the draft had to copy. -/
structure Lists (node : NodeId) (d : Draft) (before after : LayoutStore) : Prop where
  valid : after.layout.Valid
  precedes : before.layout.Precedes after.layout
  trimMark_eq : after.trimMark = before.trimMark
  held : ∀ s ∈ d.tracked, s.isDue = true → ∀ r ∈ after.layout.regions, ∀ x ∈ r.span,
    x ∈ s.toSpan → r.heldBy node = true

section

variable {d : Draft} {l : Layout} {trimMark : Address} {node : NodeId} {store : LayoutStore}

theorem map_toSpan_filled (d : Draft) :
    d.filled.tracked.map (·.toSpan) = d.tracked.map (·.toSpan) := by
  simp [Draft.filled, Function.comp_def]

theorem isComplete_of_mem_filled {s : TrackedSegment} (hs : s ∈ d.filled.tracked) :
    s.isComplete = true := by
  obtain ⟨t, -, rfl⟩ := List.mem_map.mp hs
  exact isComplete_filled t

theorem tracks_filled (h : Tracks l trimMark d.tracked) : Tracks l trimMark d.filled.tracked := by
  refine h.of_spans (map_toSpan_filled d) fun s hs => ?_
  obtain ⟨t, ht, rfl⟩ := List.mem_map.mp hs
  exact valid_filled (h.valid t ht)

theorem claimable_filled (hl : l.Valid) (h : Tracks l trimMark d.tracked) :
    l.claimable d.filled.tracked trimMark = d.filled.tracked.filter (·.state = .transferred) :=
  claimable_eq_filter hl (tracks_filled h) fun _ => isComplete_of_mem_filled

theorem mem_claimable_filled (hl : l.Valid) (h : Tracks l trimMark d.tracked) {s : TrackedSegment}
    (hs : s ∈ d.tracked) (hdue : s.isDue = true) :
    s.filled ∈ l.claimable d.filled.tracked trimMark := by
  rw [claimable_filled hl h, List.mem_filter]
  exact ⟨List.mem_map_of_mem hs, decide_eq_true (state_filled_of_isDue hdue)⟩

/-- Marking what can be claimed restores everything. -/
theorem fulfils_relist (hl : l.Valid) (h : Tracks l trimMark d.tracked) :
    Fulfils d (Listing.relist (l.claimable d.filled.tracked trimMark) d.filled.tracked) := by
  have hfilled := tracks_filled h
  refine ⟨?_, fun s hs => ?_, fun s hs => ?_⟩
  · rw [← map_toSpan_filled, Listing.relist, List.map_map]
    refine List.map_congr_left fun s _ => ?_
    dsimp only [Function.comp_apply]
    split <;> rfl
  · obtain ⟨t, ht, rfl⟩ := List.mem_map.mp hs
    split
    · exact valid_asRestored (hfilled.valid t ht).fault_eq_none
    · exact hfilled.valid t ht
  · obtain ⟨t, ht, rfl⟩ := List.mem_map.mp hs
    split
    · rfl
    · next hunready =>
      rw [claimable_filled hl h, List.mem_filter, decide_eq_true_eq, not_and] at hunready
      exact eq_restored_of_isComplete (isComplete_of_mem_filled ht) (hunready ht)

theorem claimable_filled_ne_nil (hl : l.Valid) (h : Tracks l trimMark d.tracked)
    (hsome : countIn .transferred d.filled.tracked ≠ 0) :
    l.claimable d.filled.tracked trimMark ≠ [] := by
  rw [claimable_filled hl h, ← List.length_pos_iff, ← List.countP_eq_length_filter]
  exact Nat.pos_of_ne_zero hsome

/-- Marking what can be claimed is not refused. -/
theorem markListed_filled (h : Tracks l trimMark d.tracked) :
    Listing.markListed (l.claimable d.filled.tracked trimMark) d.filled.tracked =
      .ok (Listing.relist (l.claimable d.filled.tracked trimMark) d.filled.tracked) :=
  Listing.markListed_eq (fun s hs => ((tracks_filled h).valid s hs).fault_eq_none)
    (tracks_filled h).ascending.apart

/-- If nothing waits for the layout, nothing had to be copied. -/
theorem isDue_eq_false_of_countIn (hnone : countIn .transferred d.filled.tracked = 0)
    {s : TrackedSegment} (hs : s ∈ d.tracked) : s.isDue = false := by
  rw [Bool.eq_false_iff]
  intro hdue
  have hstate := List.countP_eq_zero.mp hnone s.filled (List.mem_map_of_mem hs)
  rw [state_filled_of_isDue hdue] at hstate
  exact hstate (decide_eq_true rfl)

/-- A list in which nothing waits for the layout is restored already. -/
theorem fulfils_filled (h : Tracks l trimMark d.tracked)
    (hnone : countIn .transferred d.filled.tracked = 0) : Fulfils d d.filled.tracked := by
  refine ⟨map_toSpan_filled d, (tracks_filled h).valid, fun s hs => ?_⟩
  have hstate := List.countP_eq_zero.mp hnone s hs
  exact eq_restored_of_isComplete (isComplete_of_mem_filled hs) (by simpa using hstate)

theorem lists_refl (hl : store.layout.Valid)
    (hheld : ∀ s ∈ d.tracked, s.isDue = true → ∀ r ∈ store.layout.regions, ∀ x ∈ r.span,
      x ∈ s.toSpan → r.heldBy node = true) : Lists node d store store :=
  ⟨hl, .refl _, rfl, hheld⟩

/-- What a candidate lists the node for, the draft included. -/
theorem heldBy_candidate_filled (hl : l.Valid) (h : Tracks l trimMark d.tracked) {merge : Bool}
    {s : TrackedSegment} (hs : s ∈ d.tracked) (hdue : s.isDue = true) {r : Region}
    (hr : r ∈ (Listing.candidate node merge (l.claimable d.filled.tracked trimMark) l).regions)
    {x : Address} (hxr : x ∈ r.span) (hxs : x ∈ s.toSpan) : r.heldBy node = true := by
  refine Listing.heldBy_candidate hl (fun _ => Listing.isComplete_of_mem_claimable) hr
    (mem_claimable_filled hl h hs hdue) hxr ?_
  rwa [toSpan_filled]

end

end Coordinator

end LogRepair
