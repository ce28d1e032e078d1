import LogRepair.Proofs.Layout.Requirement

/-!
# What a node may claim

Listing a node for a region claims each address of the region above the trim mark. Whether copied
segments cover them is found out by one sweep over the copied ranges, which may stand in any order,
overlap, contain each other or leave gaps.

* `Layout.covers_copiedSpans_iff`: the sweep finds a region covered exactly if each of its addresses
  above the trim mark is in a fully copied segment.
* `Layout.claimable_eq_filter_ready`: the claimable segments are exactly the copied ones that share
  no address with a region that is not copied above the trim mark.
-/

namespace LogRepair.Layout

/-! ## Copied ranges -/

variable {segments : List TrackedSegment} {trimMark : Address}

theorem exists_mem_copiedSpans_iff {x : Address} :
    (∃ span ∈ copiedSpans segments, x ∈ span) ↔
      ∃ s ∈ segments, s.isComplete = true ∧ x ∈ s.toSpan := by
  simp only [copiedSpans, List.mem_mergeSort, List.mem_map, List.mem_filter]
  constructor
  · rintro ⟨span, ⟨s, ⟨hs, hcomplete⟩, rfl⟩, hx⟩
    exact ⟨s, hs, hcomplete, hx⟩
  · rintro ⟨s, hs, hcomplete, hx⟩
    exact ⟨s.toSpan, ⟨s, ⟨hs, hcomplete⟩, rfl⟩, hx⟩

theorem covers_copiedSpans_iff {r : Region} (hr : r.Valid) :
    Span.covers (copiedSpans segments) (neededSpan trimMark r) = true ↔
      ∀ x ∈ r.span, trimMark < x → ∃ s ∈ segments, s.isComplete = true ∧ x ∈ s.toSpan := by
  have hsorted : (copiedSpans segments).Pairwise fun s t => s.first ≤ t.first :=
    Span.pairwise_mergeSort_le _
  rw [Span.covers_iff hsorted]
  simp only [mem_neededSpan_iff hr, exists_mem_copiedSpans_iff, and_imp]

/-! ## Claimable segments -/

/-- The addresses of a region above a trim mark, read as numbers. -/
theorem mem_span_and_lt_iff {r : Region} (hr : r.Valid) {x : Address} :
    x ∈ r.span ∧ trimMark < x ↔
      max r.start.toInt (max (trimMark.toInt + 1) 0) ≤ x.toInt ∧ x.toInt ≤ r.stop.toInt - 1 := by
  have hstart := hr.start_nonneg
  have hzero : (0 : Int64).toInt = 0 := rfl
  rw [hr.mem_span_iff]
  rw [Int64.le_iff_toInt_le] at hstart
  simp only [Int64.le_iff_toInt_le, Int64.lt_iff_toInt_lt]
  omega

/-- Every region that shares an address with `s` is copied above the trim mark, by whichever
transferred and restored segments. -/
def Ready (l : Layout) (segments : List TrackedSegment) (trimMark : Address)
    (s : TrackedSegment) : Prop :=
  ∀ r ∈ l.regions, (∃ y, y ∈ r.span ∧ y ∈ s.toSpan) →
    ∀ x : Address, max r.start.toInt (max (trimMark.toInt + 1) 0) ≤ x.toInt →
      x.toInt ≤ r.stop.toInt - 1 →
        ∃ t ∈ segments, (t.state = .transferred ∨ t.state = .restored) ∧ x ∈ t.toSpan

theorem ready_iff {l : Layout} (hl : l.Valid) {s : TrackedSegment} (hs : s.first ≤ s.last) :
    l.Ready segments trimMark s ↔
      ∀ r ∈ l.overlapping s.toSpan,
        Span.covers (copiedSpans segments) (neededSpan trimMark r) = true := by
  simp only [overlapping, List.mem_filter, and_imp, Ready]
  refine forall₂_congr fun r hr => ?_
  rw [Span.overlaps_iff_exists_mem (s := r.span) (hl.region hr).start_le_last hs,
    covers_copiedSpans_iff (hl.region hr)]
  refine imp_congr_right fun _ => forall_congr' fun x => ?_
  rw [← and_imp, ← and_imp, mem_span_and_lt_iff (hl.region hr)]
  simp only [TrackedSegment.isComplete_iff]

open Classical in
/-- Of segments that stand in any order and may overlap, exactly those are claimable, in their
order, that wait for the layout and are ready. -/
theorem claimable_eq_filter_ready {l : Layout} (hl : l.Valid)
    (hsegments : ∀ s ∈ segments, s.first ≤ s.last) (trimMark : Address) :
    l.claimable segments trimMark =
      segments.filter fun s => s.state = .transferred ∧ l.Ready segments trimMark s := by
  refine List.filter_congr fun s hs => ?_
  rw [Bool.eq_iff_iff, Bool.and_eq_true, List.all_eq_true, decide_eq_true_eq, decide_eq_true_eq,
    ready_iff hl (hsegments s hs)]

/-- The copied segments stand in no order, one contains another, and an address of the upper region
is missing: only the segment of the lower region is claimable. -/
theorem claimable_eq_filter_ready_of_unsorted :
    let l : Layout := ⟨4, [⟨0, 5, [⟨["a"]⟩]⟩, ⟨5, 9, [⟨["b"]⟩]⟩]⟩
    let upper : TrackedSegment := ⟨⟨6, 8⟩, .transferred 3⟩
    let inner : TrackedSegment := ⟨⟨3, 3⟩, .transferred 1⟩
    let outer : TrackedSegment := ⟨⟨2, 4⟩, .restored 3⟩
    l.Valid ∧ (∀ s ∈ [upper, inner, outer], s.first ≤ s.last) ∧
      l.claimable [upper, inner, outer] 1 = [inner] := by
  intro l upper inner outer
  have hl : l.Valid := by decide +kernel
  have hsegments : ∀ s ∈ [upper, inner, outer], s.first ≤ s.last := by decide +kernel
  have hupper : ¬l.Ready [upper, inner, outer] 1 upper := by
    intro hready
    -- The address 5 belongs to the upper region, and to no segment.
    obtain ⟨t, ht, -, hx⟩ := hready ⟨5, 9, [⟨["b"]⟩]⟩ (by simp [l]) ⟨6, by decide +kernel⟩ 5
      (by decide +kernel) (by decide +kernel)
    have hnone : ∀ t ∈ [upper, inner, outer], (5 : Address) ∉ t.toSpan := by decide +kernel
    exact hnone t ht hx
  have hinner : l.Ready [upper, inner, outer] 1 inner := by
    intro r hr hshares x hlow hhigh
    rcases List.mem_cons.mp hr with rfl | hr
    · refine ⟨outer, by simp, Or.inr rfl, Int64.le_iff_toInt_le.mpr ?_,
        Int64.le_iff_toInt_le.mpr ?_⟩
      · exact Int.le_trans (by decide +kernel) hlow
      · exact Int.le_trans hhigh (by decide +kernel)
    · -- The upper region begins after the inner segment.
      obtain rfl := List.mem_singleton.mp hr
      obtain ⟨y, hyr, hys⟩ := hshares
      exact absurd (Int64.le_trans hyr.1 hys.2) (by decide +kernel)
  refine ⟨hl, hsegments, ?_⟩
  rw [claimable_eq_filter_ready hl hsegments 1, List.filter_cons_of_neg (by simp [hupper]),
    List.filter_cons_of_pos, List.filter_cons_of_neg, List.filter_nil]
  · simp [outer, TrackedSegment.state, Progress.restored]
  · simp only [hinner, and_true, decide_eq_true_eq]
    rfl

end LogRepair.Layout
