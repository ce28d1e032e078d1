import LogRepair.Layout.Redundancy
import LogRepair.Proofs.Address
import LogRepair.Proofs.Layout.Regions
import LogRepair.Proofs.Results
import LogRepair.Proofs.Tracked.Reconcile

/-!
# What a valid layout requires of a node

* `Layout.requirement_eq`: for a valid layout the requirement is never refused, and has one
  segment for each region that reaches above the trim mark.
* `Layout.ascending_requirement`, `Layout.valid_of_mem_requirement`: its segments are valid, in
  ascending order, and share no address.
* `Layout.exists_mem_requirement`: it contains every address of the layout above the trim mark.
-/

namespace LogRepair

namespace Layout

/-- The addresses of a region that matter above the trim mark are those above it. -/
theorem mem_neededSpan_iff {r : Region} (hr : r.Valid) {trimMark x : Address} :
    x ∈ neededSpan trimMark r ↔ x ∈ r.span ∧ trimMark < x := by
  have hstart := hr.start_nonneg
  rw [hr.mem_span_iff, Span.mem_iff]
  have hlast := hr.start_lt_stop
  have hstop : x ≤ r.last ↔ x < r.stop := by
    unfold Region.last
    grind
  simp only [neededSpan, hstop]
  constructor
  · rintro ⟨hfirst, hx⟩
    have habove : firstAbove trimMark ≤ x ↔ 0 ≤ x ∧ trimMark < x := firstAbove_le_iff (by grind)
    split at hfirst <;> grind
  · rintro ⟨⟨hfirst, hx⟩, htrim⟩
    have habove : firstAbove trimMark ≤ x ↔ 0 ≤ x ∧ trimMark < x := firstAbove_le_iff (by grind)
    split <;> grind

theorem first_neededSpan_nonneg {r : Region} (hr : r.Valid) (trimMark : Address) :
    0 ≤ (neededSpan trimMark r).first := by
  simp only [neededSpan]
  split
  · exact firstAbove_nonneg trimMark
  · exact hr.start_nonneg

theorem not_heldBy_iff {r : Region} (hr : r.Valid) {node : NodeId} :
    r.heldBy node = false ↔ ∃ stripe ∈ r.stripes, node ∉ stripe.servers := by
  have hstripes : r.stripes.isEmpty = false := List.isEmpty_eq_false_iff.mpr hr.stripes_ne_nil
  simp only [Region.heldBy, hstripes, Bool.not_false, Bool.true_and, List.all_eq_false,
    Stripe.contains, List.contains_iff_mem]

/-- The segment that a region asks of a node. -/
def need (node : NodeId) (trimMark : Address) (r : Region) : TrackedSegment where
  toSpan := neededSpan trimMark r
  progress :=
    if r.heldBy node then .restored (neededSpan trimMark r).length else .notTransferred 0

theorem valid_need {r : Region} (hr : r.Valid) {node : NodeId} {trimMark : Address}
    (hne : (neededSpan trimMark r).first ≤ (neededSpan trimMark r).last) :
    (need node trimMark r).Valid := by
  have hnonneg := first_neededSpan_nonneg hr trimMark
  unfold need
  split
  · exact TrackedSegment.valid_restored hnonneg hne
  · exact TrackedSegment.valid_notTransferred hnonneg hne

theorem requirement_eq {l : Layout} (hl : l.Valid) (node : NodeId) (trimMark : Address) :
    l.requirement node trimMark =
      .ok ((l.regions.filter fun r =>
        (neededSpan trimMark r).first ≤ (neededSpan trimMark r).last).map
          (need node trimMark)) := by
  refine mapM_eq_ok_map fun r hr => ?_
  obtain ⟨hmem, hne⟩ := List.mem_filter.mp hr
  have hvalid : (need node trimMark r).Valid := valid_need (hl.region hmem) (of_decide_eq_true hne)
  rw [← hvalid.checked_eq, required]
  unfold need
  split <;> rfl

section

variable {l : Layout} {node : NodeId} {trimMark : Address} {required : List TrackedSegment}

theorem mem_requirement_iff (hl : l.Valid) (h : l.requirement node trimMark = .ok required)
    {s : TrackedSegment} :
    s ∈ required ↔
      ∃ r ∈ l.regions, (neededSpan trimMark r).first ≤ (neededSpan trimMark r).last ∧
        s = need node trimMark r := by
  rw [requirement_eq hl] at h
  cases h
  simp only [List.mem_map, List.mem_filter, decide_eq_true_eq, and_assoc, eq_comm (a := s)]

theorem valid_of_mem_requirement (hl : l.Valid)
    (h : l.requirement node trimMark = .ok required) {s : TrackedSegment} (hs : s ∈ required) :
    s.Valid := by
  obtain ⟨r, hr, hne, rfl⟩ := (mem_requirement_iff hl h).mp hs
  exact valid_need (hl.region hr) hne

theorem last_lt_maxValue_of_mem_requirement (hl : l.Valid)
    (h : l.requirement node trimMark = .ok required) {s : TrackedSegment} (hs : s ∈ required) :
    s.last < Int64.maxValue := by
  obtain ⟨r, hr, -, rfl⟩ := (mem_requirement_iff hl h).mp hs
  exact (hl.region hr).last_lt_maxValue

theorem ascending_requirement (hl : l.Valid) (h : l.requirement node trimMark = .ok required) :
    TrackedSegment.Ascending required := by
  rw [requirement_eq hl] at h
  cases h
  rw [TrackedSegment.Ascending, List.pairwise_map]
  refine (hl.pairwise.filter _).imp_of_mem fun {r t} hr _ hrt => ?_
  have hlast := (hl.region (List.mem_filter.mp hr).1).last_lt_stop
  simp only [need, neededSpan]
  split <;> grind

/-- Segments that share no address can be reconciled with what is required. -/
theorem reconcilable_of_requirement (hl : l.Valid)
    (h : l.requirement node trimMark = .ok required) {tracked : List TrackedSegment}
    (hapart : TrackedSegment.Apart tracked) (hvalid : ∀ s ∈ tracked, s.Valid) :
    TrackedSegment.Reconcilable tracked required :=
  ⟨hapart, hvalid, (ascending_requirement hl h).apart,
    fun _ => valid_of_mem_requirement hl h, fun _ => last_lt_maxValue_of_mem_requirement hl h⟩

theorem exists_mem_requirement (hl : l.Valid) (h : l.requirement node trimMark = .ok required)
    {x : Address} (hx : l.Covers x) (htrim : trimMark < x) :
    ∃ s ∈ required, x ∈ s.toSpan := by
  obtain ⟨r, hr, hxr⟩ := hx
  have hmem := (mem_neededSpan_iff (hl.region hr)).mpr ⟨hxr, htrim⟩
  refine ⟨need node trimMark r, (mem_requirement_iff hl h).mpr ⟨r, hr, ?_, rfl⟩, hmem⟩
  rw [Span.mem_iff] at hmem
  grind

/-- Only addresses of the layout above the trim mark are required. -/
theorem covers_of_mem_requirement (hl : l.Valid) (h : l.requirement node trimMark = .ok required)
    {s : TrackedSegment} (hs : s ∈ required) {x : Address} (hx : x ∈ s.toSpan) :
    l.Covers x ∧ trimMark < x := by
  obtain ⟨r, hr, -, rfl⟩ := (mem_requirement_iff hl h).mp hs
  obtain ⟨hxr, htrim⟩ := (mem_neededSpan_iff (hl.region hr)).mp hx
  exact ⟨⟨r, hr, hxr⟩, htrim⟩

/-- What no required segment overlaps has no address of the layout above the trim mark. -/
theorem le_trimMark_of_clear (hl : l.Valid) (h : l.requirement node trimMark = .ok required)
    {s : TrackedSegment} (hclear : ∀ f ∈ required, f.overlaps s = false) {x : Address}
    (hx : x ∈ s.toSpan) (hcovers : l.Covers x) : x ≤ trimMark := by
  by_cases htrim : x ≤ trimMark
  · exact htrim
  · obtain ⟨f, hf, hxf⟩ := exists_mem_requirement hl h hcovers (Int64.not_le.mp htrim)
    have hoverlap := hclear f hf
    rw [TrackedSegment.overlaps, Span.overlaps_of_mem hxf hx] at hoverlap
    cases hoverlap

/-- A required segment is missing as a whole or restored. -/
theorem state_need {r : Region} :
    (need node trimMark r).state = .notTransferred ∨ (need node trimMark r).state = .restored := by
  unfold need TrackedSegment.state
  split
  · exact Or.inr rfl
  · exact Or.inl rfl

theorem state_need_eq_restored_iff {r : Region} :
    (need node trimMark r).state = .restored ↔ r.heldBy node = true := by
  unfold need TrackedSegment.state
  split
  · next h => exact iff_of_true rfl h
  · next h => exact iff_of_false (fun hrestored => by cases hrestored) h

theorem isDue_need {r : Region} :
    (need node trimMark r).isDue = true ↔ r.heldBy node = false := by
  unfold need TrackedSegment.isDue TrackedSegment.state
  split
  · next h => exact iff_of_false Bool.false_ne_true (ne_of_eq_of_ne h Bool.true_eq_false.mp)
  · next h => exact iff_of_true rfl (Bool.eq_false_iff.mpr h)

theorem copied_need {r : Region} (h : (need node trimMark r).isDue = true) :
    (need node trimMark r).progress.copied = 0 := by
  unfold need at h ⊢
  split at h
  · cases h
  · next hheld =>
    rw [if_neg hheld]
    rfl

/-- A required segment is restored exactly if the node holds its region. -/
theorem isComplete_need {r : Region} : (need node trimMark r).isComplete = r.heldBy node := by
  unfold need TrackedSegment.isComplete TrackedSegment.state
  split
  · next h => simp [Progress.restored, CopyState.isComplete, h]
  · next h => simpa [Progress.notTransferred, CopyState.isComplete] using h

end

end Layout

end LogRepair
