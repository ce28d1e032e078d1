import LogRepair.Proofs.Results
import LogRepair.Proofs.Tracked.Pieces

/-!
# What a reconciliation gives

For valid segments that share no address, old ones and fresh ones in any order, a reconciliation
is never refused.

* `TrackedSegment.reconcile_eq`: its result.
* `TrackedSegment.ascending_reconciled`, `TrackedSegment.valid_of_mem_reconciled`: the result is in
  ascending order, shares no address, and is valid.
* `TrackedSegment.exists_mem_reconciled`: it contains every address of a fresh segment.
* `TrackedSegment.exists_complete_of_reconciled`: an address is complete only if it was so before.
-/

namespace LogRepair.TrackedSegment

/-- Two lists of valid segments that each share no address; no fresh one ends at the highest. -/
structure Reconcilable (old fresh : List TrackedSegment) : Prop where
  apart_old : Apart old
  valid_old : ∀ s ∈ old, s.Valid
  apart_fresh : Apart fresh
  valid_fresh : ∀ s ∈ fresh, s.Valid
  last_lt : ∀ s ∈ fresh, s.last < Int64.maxValue

/-- The pieces of a fresh segment. -/
def pieces (old : List TrackedSegment) (fresh : TrackedSegment) : List TrackedSegment :=
  cut fresh fresh.first ((old.filter (·.overlaps fresh)).mergeSort startsBy)

/-- The pieces of a fresh segment with neighbours of one state joined. -/
def overlaid (old : List TrackedSegment) (fresh : TrackedSegment) : List TrackedSegment :=
  joinNeighbours (pieces old fresh)

/-- An old segment that no fresh one overlaps, as it goes on. -/
def carriedOn (old : TrackedSegment) : TrackedSegment :=
  if old.state = .transferred then old.asRestored else old

/-- The result of a reconciliation. -/
def reconciled (old fresh : List TrackedSegment) : List TrackedSegment :=
  (fresh.flatMap (overlaid old) ++ (unclaimed old fresh).map carriedOn).mergeSort startsBy

section

variable {old fresh : List TrackedSegment} {f : TrackedSegment}

/-! ## One fresh segment -/

theorem mem_sorted_overlapping {o : TrackedSegment} :
    o ∈ (old.filter (·.overlaps f)).mergeSort startsBy ↔ o ∈ old ∧ o.overlaps f = true := by
  rw [List.mem_mergeSort, List.mem_filter]

theorem Reconcilable.cuttable (h : Reconcilable old fresh) :
    Cuttable f f.first ((old.filter (·.overlaps f)).mergeSort startsBy) := by
  refine ⟨?_, fun o ho => (h.valid_old o (mem_sorted_overlapping.mp ho).1).first_le_last,
    fun o ho => (mem_sorted_overlapping.mp ho).2, fun o _ => Or.inr (Int64.le_refl _)⟩
  apply Apart.ascending_mergeSort
  · exact h.apart_old.filter _
  · exact fun o ho => (h.valid_old o (List.mem_filter.mp ho).1).first_le_last

theorem Reconcilable.tiles_pieces (h : Reconcilable old fresh) (hf : f ∈ fresh) :
    Tiles f.first f.last (pieces old f) :=
  tiles_cut (h.last_lt f hf) h.cuttable (Int64.le_refl _) (h.valid_fresh f hf).first_le_last

theorem Reconcilable.tiles_overlaid (h : Reconcilable old fresh) (hf : f ∈ fresh) :
    Tiles f.first f.last (overlaid old f) :=
  tiles_joinNeighbours (h.last_lt f hf) (h.tiles_pieces hf)

theorem Reconcilable.mem_of_mem_pieces (h : Reconcilable old fresh) (hf : f ∈ fresh)
    {p : TrackedSegment} (hp : p ∈ pieces old f) {x : Address} (hx : x ∈ p.toSpan) :
    x ∈ f.toSpan := by
  have hbounds := (h.tiles_pieces hf).bounds (h.last_lt f hf) hp
  exact ⟨Int64.le_trans hbounds.1 hx.1, Int64.le_trans hx.2 hbounds.2.2⟩

/-- At each of its addresses a piece has the joined progress of the old segment there, or the
progress of the fresh segment if there is none. -/
theorem Reconcilable.progress_of_mem_pieces (h : Reconcilable old fresh) (hf : f ∈ fresh)
    {p : TrackedSegment} (hp : p ∈ pieces old f) {x : Address} (hx : x ∈ p.toSpan) :
    (∃ o ∈ old, x ∈ o.toSpan ∧ p.progress = o.progress.join f.progress) ∨
      p.progress = f.progress ∧ ∀ o ∈ old, x ∉ o.toSpan := by
  have hfresh := (h.valid_fresh f hf).first_le_last
  rcases progress_of_mem_cut (h.last_lt f hf) hfresh h.cuttable (Int64.le_refl _) hp hx with
    ⟨o, ho, hxo, hprogress⟩ | ⟨hprogress, houtside⟩
  · exact Or.inl ⟨o, (mem_sorted_overlapping.mp ho).1, hxo, hprogress⟩
  · refine Or.inr ⟨hprogress, fun o ho hxo => ?_⟩
    have hxf := h.mem_of_mem_pieces hf hp hx
    exact houtside o (mem_sorted_overlapping.mpr ⟨ho, Span.overlaps_of_mem hxo hxf⟩) hxo

theorem Reconcilable.valid_of_mem_overlaid (h : Reconcilable old fresh) (hf : f ∈ fresh)
    {s : TrackedSegment} (hs : s ∈ overlaid old f) : s.Valid := by
  have hvalid := h.valid_fresh f hf
  refine valid_of_mem_joined hvalid.first_nonneg (h.last_lt f hf) (h.tiles_pieces hf) ?_ hs
  intro p hp
  have hne := (h.tiles_pieces hf).bounds (h.last_lt f hf) hp
  rcases h.progress_of_mem_pieces hf hp ⟨Int64.le_refl _, hne.2.1⟩ with ⟨o, ho, -, heq⟩ | ⟨heq, -⟩
  · rw [heq]
    rcases o.progress.join_eq_or f.progress with hjoin | hjoin
    · rw [hjoin]
      exact (h.valid_old o ho).progress_wellFormed
    · rw [hjoin]
      exact hvalid.progress_wellFormed
  · rw [heq]
    exact hvalid.progress_wellFormed

theorem Reconcilable.overlay_eq (h : Reconcilable old fresh) (hf : f ∈ fresh) :
    overlay old f = .ok (overlaid old f) := by
  have hchecked : ∀ s ∈ overlaid old f, checked s = .ok (id s) := fun s hs =>
    (h.valid_of_mem_overlaid hf hs).checked_eq
  have hmap := mapM_eq_ok_map hchecked
  rwa [List.map_id] at hmap

/-- At each of its addresses a joined piece has the higher of the fresh state and the old one. -/
theorem Reconcilable.state_of_mem_overlaid (h : Reconcilable old fresh) (hf : f ∈ fresh)
    {s : TrackedSegment} (hs : s ∈ overlaid old f) {x : Address} (hx : x ∈ s.toSpan) :
    (∃ o ∈ old, x ∈ o.toSpan ∧ s.state = o.state.higher f.state) ∨
      s.state = f.state ∧ ∀ o ∈ old, x ∉ o.toSpan := by
  obtain ⟨p, hp, hxp, hstate⟩ := exists_mem_of_joined hs hx
  rw [← hstate, state]
  rcases h.progress_of_mem_pieces hf hp hxp with ⟨o, ho, hxo, heq⟩ | ⟨heq, houtside⟩
  · exact Or.inl ⟨o, ho, hxo, by rw [heq, Progress.state_join]; rfl⟩
  · exact Or.inr ⟨by rw [heq]; rfl, houtside⟩

theorem Reconcilable.bounds_of_mem_overlaid (h : Reconcilable old fresh) (hf : f ∈ fresh)
    {s : TrackedSegment} (hs : s ∈ overlaid old f) :
    f.first ≤ s.first ∧ s.first ≤ s.last ∧ s.last ≤ f.last :=
  (h.tiles_overlaid hf).bounds (h.last_lt f hf) hs

theorem Reconcilable.mem_of_mem_overlaid (h : Reconcilable old fresh) (hf : f ∈ fresh)
    {s : TrackedSegment} (hs : s ∈ overlaid old f) {x : Address} (hx : x ∈ s.toSpan) :
    x ∈ f.toSpan := by
  have hbounds := h.bounds_of_mem_overlaid hf hs
  exact ⟨Int64.le_trans hbounds.1 hx.1, Int64.le_trans hx.2 hbounds.2.2⟩

/-- A complete address of a fresh segment was complete in it or in an old segment. -/
theorem Reconcilable.exists_complete_of_overlaid (h : Reconcilable old fresh) (hf : f ∈ fresh)
    {s : TrackedSegment} (hs : s ∈ overlaid old f) (hcomplete : s.isComplete = true) {x : Address}
    (hx : x ∈ s.toSpan) :
    f.isComplete = true ∧ x ∈ f.toSpan ∨ ∃ o ∈ old, o.isComplete = true ∧ x ∈ o.toSpan := by
  have hxf := h.mem_of_mem_overlaid hf hs hx
  unfold isComplete at *
  rcases h.state_of_mem_overlaid hf hs hx with ⟨o, ho, hxo, heq⟩ | ⟨heq, -⟩
  · rcases o.state.higher_eq_or f.state with hhigher | hhigher
    · exact Or.inr ⟨o, ho, by rw [← hcomplete, heq, hhigher], hxo⟩
    · exact Or.inl ⟨by rw [← hcomplete, heq, hhigher], hxf⟩
  · exact Or.inl ⟨by rw [← hcomplete, heq], hxf⟩

/-! ## Old segments that no fresh one overlaps -/

theorem mem_unclaimed {o : TrackedSegment} :
    o ∈ unclaimed old fresh ↔ o ∈ old ∧ ∀ f ∈ fresh, f.overlaps o = false := by
  simp [unclaimed]

@[simp] theorem toSpan_carriedOn (o : TrackedSegment) : (carriedOn o).toSpan = o.toSpan := by
  unfold carriedOn
  split <;> rfl

theorem valid_carriedOn {o : TrackedSegment} (ho : o.Valid) : (carriedOn o).Valid := by
  unfold carriedOn
  split
  · exact valid_asRestored ho.fault_eq_none
  · exact ho

theorem carried_eq {o : TrackedSegment} (ho : o.Valid) : carried o = .ok (carriedOn o) := by
  unfold carried carriedOn
  split
  · next hstate =>
    have hcomplete : o.isComplete = true := by simp [isComplete, hstate, CopyState.isComplete]
    exact listed_eq ho.fault_eq_none hcomplete
  · rfl

theorem carriedOn_eq_self {o : TrackedSegment} (h : (carriedOn o).state ≠ .restored) :
    carriedOn o = o := by
  unfold carriedOn at h ⊢
  split at h
  · exact absurd rfl h
  · next hstate => rw [if_neg hstate]

theorem carriedOn_eq_self_of_isDue {o : TrackedSegment} (h : (carriedOn o).isDue = true) :
    carriedOn o = o := by
  refine carriedOn_eq_self fun hstate => ?_
  rw [isDue, hstate] at h
  cases h

theorem isComplete_of_carriedOn {o : TrackedSegment} (h : (carriedOn o).isComplete = true) :
    o.isComplete = true := by
  unfold carriedOn at h
  split at h
  · next hstate => simp [isComplete, hstate, CopyState.isComplete]
  · exact h

/-! ## The whole result -/

theorem reconcile_eq (h : Reconcilable old fresh) :
    reconcile old fresh = .ok (reconciled old fresh) := by
  have hclaimed : fresh.mapM (overlay old) = .ok (fresh.map (overlaid old)) :=
    mapM_eq_ok_map fun f hf => h.overlay_eq hf
  have hcarried : (unclaimed old fresh).mapM carried = .ok ((unclaimed old fresh).map carriedOn) :=
    mapM_eq_ok_map fun o ho => carried_eq (h.valid_old o (mem_unclaimed.mp ho).1)
  rw [reconcile, hclaimed, hcarried]
  rfl

theorem mem_reconciled {s : TrackedSegment} :
    s ∈ reconciled old fresh ↔
      (∃ f ∈ fresh, s ∈ overlaid old f) ∨ ∃ o ∈ unclaimed old fresh, s = carriedOn o := by
  simp [reconciled, eq_comm (a := s)]

theorem valid_of_mem_reconciled (h : Reconcilable old fresh) {s : TrackedSegment}
    (hs : s ∈ reconciled old fresh) : s.Valid := by
  rcases mem_reconciled.mp hs with ⟨f, hf, hs⟩ | ⟨o, ho, rfl⟩
  · exact h.valid_of_mem_overlaid hf hs
  · exact valid_carriedOn (h.valid_old o (mem_unclaimed.mp ho).1)

theorem ascending_reconciled (h : Reconcilable old fresh) : Ascending (reconciled old fresh) := by
  have hinside : ∀ f ∈ fresh, ∀ s ∈ overlaid old f,
      f.first ≤ s.first ∧ s.first ≤ s.last ∧ s.last ≤ f.last := fun f hf s hs =>
    h.bounds_of_mem_overlaid hf hs
  refine Apart.ascending_mergeSort ?_ fun s hs => ?_
  · refine List.pairwise_append.mpr ⟨List.pairwise_flatMap.mpr ⟨?_, ?_⟩, ?_, ?_⟩
    · -- Two pieces of one fresh segment.
      intro f hf
      exact ((h.tiles_overlaid hf).ascending (h.last_lt f hf)).apart
    · -- Pieces of two fresh segments.
      refine h.apart_fresh.imp_of_mem fun {f g} hf hg hfg s hs t ht => ?_
      have hsf := hinside f hf s hs
      have htg := hinside g hg t ht
      rw [overlaps_eq_false_iff] at hfg ⊢
      grind
    · -- Two old segments.
      rw [List.pairwise_map]
      refine (h.apart_old.filter _).imp fun {o u} hou => ?_
      rwa [overlaps, toSpan_carriedOn, toSpan_carriedOn]
    · -- A piece of a fresh segment, and an old segment that none overlaps.
      intro s hs t ht
      obtain ⟨f, hf, hs⟩ := List.mem_flatMap.mp hs
      obtain ⟨o, ho, rfl⟩ := List.mem_map.mp ht
      have hfo := (mem_unclaimed.mp ho).2 f hf
      have hsf := hinside f hf s hs
      rw [overlaps_eq_false_iff] at hfo ⊢
      rw [toSpan_carriedOn]
      grind
  · exact (valid_of_mem_reconciled h (List.mem_mergeSort.mpr hs)).first_le_last

theorem exists_mem_reconciled (h : Reconcilable old fresh) (hf : f ∈ fresh) {x : Address}
    (hx : x ∈ f.toSpan) : ∃ s ∈ reconciled old fresh, x ∈ s.toSpan := by
  rw [Span.mem_iff] at hx
  obtain ⟨s, hs, hxs⟩ := (h.tiles_overlaid hf).exists_mem hx.1 hx.2
  exact ⟨s, mem_reconciled.mpr (Or.inl ⟨f, hf, hs⟩), hxs⟩

theorem exists_complete_of_reconciled (h : Reconcilable old fresh) {s : TrackedSegment}
    (hs : s ∈ reconciled old fresh) (hcomplete : s.isComplete = true) {x : Address}
    (hx : x ∈ s.toSpan) :
    (∃ f ∈ fresh, f.isComplete = true ∧ x ∈ f.toSpan) ∨
      ∃ o ∈ old, o.isComplete = true ∧ x ∈ o.toSpan := by
  rcases mem_reconciled.mp hs with ⟨f, hf, hs⟩ | ⟨o, ho, rfl⟩
  · rcases h.exists_complete_of_overlaid hf hs hcomplete hx with ⟨hfresh, hxf⟩ | hold
    · exact Or.inl ⟨f, hf, hfresh, hxf⟩
    · exact Or.inr hold
  · rw [toSpan_carriedOn] at hx
    exact Or.inr ⟨o, (mem_unclaimed.mp ho).1, isComplete_of_carriedOn hcomplete, hx⟩

end

end LogRepair.TrackedSegment
