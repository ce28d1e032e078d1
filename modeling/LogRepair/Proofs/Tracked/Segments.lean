import LogRepair.Tracked.View

/-!
# Valid segments, and segments that share no address

* `TrackedSegment.listed_eq`: a fully copied segment can always be marked as restored.
* `TrackedSegment.Apart`: no two segments of a list overlap, in whatever order they stand.
* `TrackedSegment.Apart.ascending_mergeSort`: such a list is ascending once it is sorted.
-/

namespace LogRepair.TrackedSegment

/-! ## Segments to copy, and copied ones -/

theorem isDue_iff {s : TrackedSegment} :
    s.isDue = true ↔ s.state = .notTransferred ∨ s.state = .failed := by
  unfold isDue
  cases s.state <;> decide

theorem isComplete_iff {s : TrackedSegment} :
    s.isComplete = true ↔ s.state = .transferred ∨ s.state = .restored := by
  unfold isComplete
  cases s.state <;> decide

theorem isDue_eq_not_isComplete (s : TrackedSegment) : s.isDue = !s.isComplete := by
  unfold isDue isComplete
  cases s.state <;> rfl

theorem isComplete_eq_false_of_isDue {s : TrackedSegment} (h : s.isDue = true) :
    s.isComplete = false := by
  rwa [isDue_eq_not_isComplete, Bool.not_eq_true'] at h

theorem isComplete_of_isDue_eq_false {s : TrackedSegment} (h : s.isDue = false) :
    s.isComplete = true := by
  rwa [isDue_eq_not_isComplete, Bool.not_eq_false'] at h

theorem eq_restored_of_isComplete {s : TrackedSegment} (h : s.isComplete = true)
    (hlisted : s.state ≠ .transferred) : s.state = .restored :=
  (isComplete_iff.mp h).resolve_left hlisted

/-! ## Valid segments -/

theorem Valid.first_nonneg {s : TrackedSegment} (hs : s.Valid) : 0 ≤ s.first :=
  (fault?_eq_none_iff.mp hs.fault_eq_none).1

theorem Valid.first_le_last {s : TrackedSegment} (hs : s.Valid) : s.first ≤ s.last :=
  (fault?_eq_none_iff.mp hs.fault_eq_none).2.1

theorem Valid.copied_le {s : TrackedSegment} (hs : s.Valid) : s.progress.copied ≤ s.length :=
  (fault?_eq_none_iff.mp hs.fault_eq_none).2.2.1

theorem Valid.copied_eq {s : TrackedSegment} (hs : s.Valid) (hcomplete : s.isComplete = true) :
    s.progress.copied = s.length :=
  (fault?_eq_none_iff.mp hs.fault_eq_none).2.2.2 hcomplete

theorem Valid.checked_eq {s : TrackedSegment} (hs : s.Valid) : s.checked = .ok s :=
  checked_eq_ok_iff.mpr ⟨hs.fault_eq_none, rfl⟩

/-- A segment that reports its whole length is valid over any span of addresses. -/
theorem valid_restored {span : Span} (hfirst : 0 ≤ span.first) (hlast : span.first ≤ span.last) :
    Valid ⟨span, .restored span.length⟩ := by
  refine ⟨fault?_eq_none_iff.mpr ⟨hfirst, hlast, ?_, fun _ => ?_⟩, ?_⟩
  · exact UInt64.le_refl span.length
  · simp only [Progress.restored, length]
  · simp [Progress.WellFormed, Progress.restored]

theorem valid_notTransferred {span : Span} (hfirst : 0 ≤ span.first)
    (hlast : span.first ≤ span.last) : Valid ⟨span, .notTransferred 0⟩ := by
  refine ⟨fault?_eq_none_iff.mpr ⟨hfirst, hlast, ?_, fun h => ?_⟩, ?_⟩
  · exact UInt64.le_iff_toNat_le.mpr (Nat.zero_le _)
  · simp [isComplete, state, Progress.notTransferred, CopyState.isComplete] at h
  · simp [Progress.WellFormed, Progress.notTransferred]

/-- The segment once the layout lists the node for it. -/
def asRestored (s : TrackedSegment) : TrackedSegment :=
  { s with progress := .restored s.length }

theorem valid_asRestored {s : TrackedSegment} (hs : s.fault? = none) : s.asRestored.Valid := by
  obtain ⟨hfirst, hle, -⟩ := fault?_eq_none_iff.mp hs
  exact valid_restored hfirst hle

theorem listed_eq {s : TrackedSegment} (hs : s.fault? = none) (hcomplete : s.isComplete = true) :
    s.listed = .ok s.asRestored := by
  rw [listed, if_pos hcomplete]
  exact (valid_asRestored hs).checked_eq

/-! ## Segments that share no address -/

theorem overlaps_eq_false_iff {s t : TrackedSegment} :
    s.overlaps t = false ↔ t.last < s.first ∨ s.last < t.first := by
  rw [← Bool.not_eq_true, overlaps, Span.overlaps_iff]
  grind

theorem overlaps_comm (s t : TrackedSegment) : s.overlaps t = t.overlaps s :=
  Span.overlaps_comm _ _

theorem overlaps_self {s : TrackedSegment} (hs : s.fault? = none) : s.overlaps s = true := by
  have hle := (fault?_eq_none_iff.mp hs).2.1
  exact Span.overlaps_iff.mpr ⟨hle, hle⟩

/-- No two segments of the list overlap; nothing is said of their order. -/
def Apart (tracked : List TrackedSegment) : Prop :=
  tracked.Pairwise fun s t => s.overlaps t = false

theorem Ascending.apart {tracked : List TrackedSegment} (h : Ascending tracked) : Apart tracked :=
  h.imp fun hlt => overlaps_eq_false_iff.mpr (Or.inr hlt)

theorem Apart.eq_of_overlaps {tracked : List TrackedSegment} (h : Apart tracked)
    {s t : TrackedSegment} (hs : s ∈ tracked) (ht : t ∈ tracked) (ho : s.overlaps t = true) :
    s = t := by
  refine List.Pairwise.forall_of_forall_of_flip (R := fun s t => s.overlaps t = true → s = t)
    (fun _ _ _ => rfl) ?_ ?_ hs ht ho
  · refine h.imp fun {u v} huv ho => ?_
    rw [huv] at ho
    cases ho
  · refine h.imp fun {u v} huv ho => ?_
    rw [overlaps_comm, huv] at ho
    cases ho

/-- Sorting by the first address puts segments that share none in ascending order. -/
theorem Apart.ascending_mergeSort {tracked : List TrackedSegment} (h : Apart tracked)
    (hne : ∀ s ∈ tracked, s.first ≤ s.last) : Ascending (tracked.mergeSort startsBy) := by
  have hsorted : (tracked.mergeSort startsBy).Pairwise fun s t => startsBy s t = true := by
    apply List.pairwise_mergeSort
    · intro s t u hst htu
      simp only [startsBy, decide_eq_true_eq] at hst htu ⊢
      exact Int64.le_trans hst htu
    · intro s t
      simp only [startsBy, Bool.or_eq_true, decide_eq_true_eq]
      exact Int64.le_total _ _
  have hapart : Apart (tracked.mergeSort startsBy) := by
    refine List.Perm.pairwise (List.mergeSort_perm tracked startsBy).symm h ?_
    intro s t hst
    rwa [overlaps_comm]
  refine (hsorted.and hapart).imp_of_mem fun {s t} hs ht hst => ?_
  have hs' := hne s (List.mem_mergeSort.mp hs)
  obtain ⟨hle, hdisjoint⟩ := hst
  rw [overlaps_eq_false_iff] at hdisjoint
  simp only [startsBy, decide_eq_true_eq] at hle
  have ht' := hne t (List.mem_mergeSort.mp ht)
  grind

end LogRepair.TrackedSegment
