import LogRepair.Proofs.Layout.Requirement
import LogRepair.Proofs.Tracked.Conservation

/-!
# A reconciliation repeated

The result of a reconciliation with what a layout requires is settled: reconciled with the same
requirement again it stays as it is, with its bounds, states, counts and causes. It takes that what
is required records nothing copied, or everything; other fresh lists add their own counts again.

* `TrackedSegment.cut_of_tiles`: old segments that tile a fresh one are its pieces.
* `TrackedSegment.joinNeighbours_eq_map`: where no piece continues another none are joined.
* `TrackedSegment.Reconcilable.overlaid_reconciled`: the pieces of a fresh segment stay the same.
* `TrackedSegment.reconcile_twice`: so does the whole list.
-/

namespace LogRepair.TrackedSegment

/-! ## Pieces that are tiles already -/

/-- What a fresh segment makes of an old one that lies inside it. -/
def joinedWith (fresh old : TrackedSegment) : TrackedSegment :=
  ⟨old.toSpan, old.progress.join fresh.progress⟩

/-- Old segments that tile a fresh one are cut nowhere, and leave no gap. -/
theorem cut_of_tiles {fresh : TrackedSegment} (hlast : fresh.last < Int64.maxValue)
    {olds : List TrackedSegment} {cursor : Address} (hcursor : fresh.first ≤ cursor)
    (h : Tiles cursor fresh.last olds) : cut fresh cursor olds = olds.map fresh.joinedWith := by
  induction olds generalizing cursor with
  | nil =>
    have hbehind : ¬cursor ≤ fresh.last := Int64.not_le.mpr h
    rw [cut, if_neg hbehind]
    rfl
  | cons old rest ih =>
    obtain ⟨hfirst, hle, hend, hrest⟩ := h
    have hbegin : (if fresh.first < old.first then old.first else fresh.first) = old.first := by
      grind
    have hstop : (if old.last < fresh.last then old.last else fresh.last) = old.last := by
      grind
    have hgapless : ¬cursor < old.first := by grind
    rw [cut, hbegin, hstop, if_neg hgapless, ih (by grind) hrest]
    rfl

theorem continuedBy_restated (p next : TrackedSegment) :
    p.restated.continuedBy next = p.continuedBy next := by
  rw [continuedBy, continuedBy, state_restated]
  rfl

theorem joinAfter_eq_map {p : TrackedSegment} {rest : List TrackedSegment}
    (h : (p :: rest).Pairwise fun s t => s.continuedBy t = false) :
    joinAfter p rest = p :: rest.map restated := by
  induction rest generalizing p with
  | nil => rfl
  | cons next rest ih =>
    obtain ⟨hp, hrest⟩ := List.pairwise_cons.mp h
    obtain ⟨hnext, htail⟩ := List.pairwise_cons.mp hrest
    have hkept : ¬p.continuedBy next = true :=
      Bool.eq_false_iff.mp (hp next List.mem_cons_self)
    have hrestated : (next.restated :: rest).Pairwise fun s t => s.continuedBy t = false := by
      refine List.pairwise_cons.mpr ⟨fun t ht => ?_, htail⟩
      rw [continuedBy_restated]
      exact hnext t ht
    rw [joinAfter, if_neg hkept, ih hrestated]
    rfl

/-- Where no piece continues one before it, each stands for itself. -/
theorem joinNeighbours_eq_map {pieces : List TrackedSegment}
    (h : pieces.Pairwise fun s t => s.continuedBy t = false) :
    joinNeighbours pieces = pieces.map restated := by
  cases pieces with
  | nil => rfl
  | cons p rest =>
    obtain ⟨hp, hrest⟩ := List.pairwise_cons.mp h
    refine joinAfter_eq_map (List.pairwise_cons.mpr ⟨fun t ht => ?_, hrest⟩)
    rw [continuedBy_restated]
    exact hp t ht

/-! ## Ascending lists -/

/-- An ascending list is determined by which segments are on it. -/
theorem Ascending.eq_of_mem_iff {tracked tracked' : List TrackedSegment} (h : Ascending tracked)
    (h' : Ascending tracked') (hne : ∀ s ∈ tracked, s.first ≤ s.last)
    (hmem : ∀ s, s ∈ tracked' ↔ s ∈ tracked) : tracked' = tracked := by
  have hnodup : ∀ {list : List TrackedSegment}, Ascending list →
      (∀ s ∈ list, s.first ≤ s.last) → list.Nodup := by
    intro list hasc hbounds
    refine hasc.imp_of_mem fun {s t} hs _ hlt heq => ?_
    have hs := hbounds s hs
    rw [heq] at hs hlt
    exact Int64.lt_irrefl (Int64.lt_of_lt_of_le hlt hs)
  have hne' : ∀ s ∈ tracked', s.first ≤ s.last := fun s hs => hne s ((hmem s).mp hs)
  refine h'.eq_of_perm h hne' ?_
  exact (List.perm_ext_iff_of_nodup (hnodup h' hne') (hnodup h hne)).mpr hmem

section

variable {old fresh : List TrackedSegment} {f : TrackedSegment}

/-! ## One fresh segment -/

/-- The segment records nothing as copied, or is restored. -/
def Plain (f : TrackedSegment) : Prop := f.progress = .notTransferred 0 ∨ f.state = .restored

theorem progress_of_restored {s : TrackedSegment} (hs : s.Valid) (hstate : s.state = .restored) :
    s.progress = .restored s.length := by
  have hcopied : s.progress.copied = s.length :=
    hs.copied_eq (by rw [isComplete, hstate]; rfl)
  have hnone : s.progress.failure = none := by
    have hfailed := hs.progress_wellFormed
    rw [Progress.WellFormed, ← state, hstate] at hfailed
    simpa using hfailed
  rw [Progress.restored, ← hcopied, ← hnone, ← hstate]
  rfl

/-- A valid segment is the same beside a plain one, if it is restored wherever that is. -/
theorem restated_joinedWith (hplain : f.Plain) {s : TrackedSegment} (hs : s.Valid)
    (hstate : f.state = .restored → s.state = .restored) : (f.joinedWith s).restated = s := by
  rcases hplain with hnothing | hrestored
  · have hsame : f.joinedWith s = s := by
      rw [joinedWith, hnothing, Progress.join_notTransferred_zero hs.progress_wellFormed]
    rw [hsame, restated_eq_self hs]
  · have hjoined : (f.joinedWith s).progress.state = .restored := by
      rw [joinedWith, Progress.state_join, ← state, ← state, hrestored, hstate hrestored]
      rfl
    have hprogress := progress_of_restored hs (hstate hrestored)
    rw [restated, Progress.restate, hjoined]
    show (⟨s.toSpan, .restored s.length⟩ : TrackedSegment) = s
    rw [← hprogress]

/-- No state goes above that of a restored segment. -/
theorem Reconcilable.restored_of_mem_overlaid (h : Reconcilable old fresh) (hf : f ∈ fresh)
    (hrestored : f.state = .restored) {s : TrackedSegment} (hs : s ∈ overlaid old f) :
    s.state = .restored := by
  have hle := (h.bounds_of_mem_overlaid hf hs).2.1
  rcases h.state_of_mem_overlaid hf hs ⟨Int64.le_refl _, hle⟩ with ⟨o, -, -, hstate⟩ | ⟨hstate, -⟩
  · rw [hstate, hrestored]
    cases o.state <;> rfl
  · rw [hstate, hrestored]

/-- What was reconciled can be reconciled again. -/
theorem Reconcilable.again (h : Reconcilable old fresh) :
    Reconcilable (reconciled old fresh) fresh where
  apart_old := (ascending_reconciled h).apart
  valid_old _ hs := valid_of_mem_reconciled h hs
  apart_fresh := h.apart_fresh
  valid_fresh := h.valid_fresh
  last_lt := h.last_lt

/-- What of the result overlaps a fresh segment are its pieces. -/
theorem Reconcilable.sorted_overlapping_reconciled (h : Reconcilable old fresh) (hf : f ∈ fresh) :
    ((reconciled old fresh).filter (·.overlaps f)).mergeSort startsBy = overlaid old f := by
  refine ((h.tiles_overlaid hf).ascending (h.last_lt f hf)).eq_of_mem_iff h.again.cuttable.ascending
    (fun s hs => (h.bounds_of_mem_overlaid hf hs).2.1) fun s => ?_
  rw [mem_sorted_overlapping]
  constructor
  · rintro ⟨hs, hoverlap⟩
    exact h.mem_overlaid_of_overlaps hf hs hoverlap
  · intro hs
    have hbounds := h.bounds_of_mem_overlaid hf hs
    refine ⟨mem_reconciled.mpr (Or.inl ⟨f, hf, hs⟩), Span.overlaps_iff.mpr ⟨?_, ?_⟩⟩
    · exact Int64.le_trans hbounds.2.1 hbounds.2.2
    · exact Int64.le_trans hbounds.1 hbounds.2.1

/-- A fresh segment that is plain is cut into the same pieces again. -/
theorem Reconcilable.overlaid_reconciled (h : Reconcilable old fresh) (hf : f ∈ fresh)
    (hplain : f.Plain) : overlaid (reconciled old fresh) f = overlaid old f := by
  have hsame : ∀ s ∈ overlaid old f, (f.joinedWith s).restated = s := fun s hs =>
    restated_joinedWith hplain (h.valid_of_mem_overlaid hf hs) fun hrestored =>
      h.restored_of_mem_overlaid hf hrestored hs
  have hstate : ∀ s ∈ overlaid old f, (f.joinedWith s).state = s.state := fun s hs => by
    rw [← state_restated, hsame s hs]
  have hapart : ((overlaid old f).map f.joinedWith).Pairwise
      fun s t => s.continuedBy t = false := by
    rw [List.pairwise_map]
    refine List.pairwise_of_forall_mem_list fun s hs t ht =>
      Bool.eq_false_iff.mpr fun hcontinued => ?_
    -- Joined pieces that touch differ in their states, and keep them.
    obtain ⟨hadjacent, heq⟩ := continuedBy_iff.mp hcontinued
    rw [hstate s hs, hstate t ht] at heq
    exact state_ne_of_joined (h.last_lt f hf) (h.tiles_pieces hf) hs ht hadjacent heq
  calc overlaid (reconciled old fresh) f
      = joinNeighbours (cut f f.first (overlaid old f)) := by
        rw [overlaid, pieces, h.sorted_overlapping_reconciled hf]
    _ = joinNeighbours ((overlaid old f).map f.joinedWith) := by
        rw [cut_of_tiles (h.last_lt f hf) (Int64.le_refl _) (h.tiles_overlaid hf)]
    _ = (overlaid old f).map fun s => (f.joinedWith s).restated := by
        rw [joinNeighbours_eq_map hapart, List.map_map]
        rfl
    _ = overlaid old f := (List.map_congr_left hsame).trans (List.map_id _)

/-! ## The whole result -/

theorem carriedOn_carriedOn (o : TrackedSegment) : carriedOn (carriedOn o) = carriedOn o := by
  by_cases hstate : (carriedOn o).state = .transferred
  · have hsame := carriedOn_eq_self (o := o) (by rw [hstate]; decide)
    rw [hsame, hsame]
  · exact if_neg hstate

/-- What no fresh segment overlaps is what was carried on before. -/
theorem Reconcilable.mem_unclaimed_reconciled (h : Reconcilable old fresh) {s : TrackedSegment} :
    s ∈ unclaimed (reconciled old fresh) fresh ↔ ∃ o ∈ unclaimed old fresh, s = carriedOn o := by
  rw [mem_unclaimed]
  constructor
  · rintro ⟨hs, hclear⟩
    rcases mem_reconciled.mp hs with ⟨f, hf, hsf⟩ | hcarried
    · rw [← h.sorted_overlapping_reconciled hf] at hsf
      have hoverlap := (mem_sorted_overlapping.mp hsf).2
      rw [overlaps_comm, hclear f hf] at hoverlap
      cases hoverlap
    · exact hcarried
  · rintro ⟨o, ho, rfl⟩
    refine ⟨mem_reconciled.mpr (Or.inr ⟨o, ho, rfl⟩), fun f hf => ?_⟩
    rw [overlaps, toSpan_carriedOn]
    exact (mem_unclaimed.mp ho).2 f hf

theorem Reconcilable.reconciled_reconciled (h : Reconcilable old fresh)
    (hplain : ∀ f ∈ fresh, f.Plain) :
    reconciled (reconciled old fresh) fresh = reconciled old fresh := by
  refine (ascending_reconciled h).eq_of_mem_iff (ascending_reconciled h.again)
    (fun s hs => (valid_of_mem_reconciled h hs).first_le_last) fun s => ?_
  rw [mem_reconciled, mem_reconciled]
  refine or_congr (exists_congr fun f => and_congr_right fun hf => ?_) ?_
  · rw [h.overlaid_reconciled hf (hplain f hf)]
  · constructor
    · rintro ⟨t, ht, rfl⟩
      obtain ⟨o, ho, rfl⟩ := h.mem_unclaimed_reconciled.mp ht
      exact ⟨o, ho, carriedOn_carriedOn o⟩
    · rintro ⟨o, ho, rfl⟩
      exact ⟨carriedOn o, h.mem_unclaimed_reconciled.mpr ⟨o, ho, rfl⟩, (carriedOn_carriedOn o).symm⟩

theorem plain_need {node : NodeId} {trimMark : Address} {r : Region} :
    (Layout.need node trimMark r).Plain := by
  unfold Plain Layout.need state
  split
  · exact Or.inr rfl
  · exact Or.inl rfl

end

/-- A list that a fresh one leaves as it is stays so through any number of reconciliations. -/
theorem reconcileAll_replicate {merged fresh : List TrackedSegment}
    (h : reconcile merged fresh = .ok merged) (n : Nat) :
    reconcileAll merged (List.replicate n fresh) = List.replicate n (.ok merged) := by
  induction n with
  | zero => rfl
  | succ n ih =>
    rw [List.replicate_succ, reconcileAll, h, List.replicate_succ]
    exact congrArg _ ih

/-- Segments that share no address, in whatever order they stand, are reconciled with what a layout
requires to a list that the same requirement leaves as it is, with the bounds, states, counts and
causes of its segments, however often it is computed again. -/
theorem reconcile_twice {l : Layout} (hl : l.Valid) {node : NodeId} {trimMark : Address}
    {fresh : List TrackedSegment} (hfresh : l.requirement node trimMark = .ok fresh)
    {old : List TrackedSegment} (hold : Apart old) (hvalid : ∀ o ∈ old, o.Valid) :
    ∃ merged, reconcile old fresh = .ok merged ∧ reconcile merged fresh = .ok merged ∧
      ∀ n, reconcileAll merged (List.replicate n fresh) = List.replicate n (.ok merged) := by
  have h := Layout.reconcilable_of_requirement hl hfresh hold hvalid
  have hplain : ∀ f ∈ fresh, f.Plain := by
    intro f hf
    obtain ⟨r, -, -, rfl⟩ := (Layout.mem_requirement_iff hl hfresh).mp hf
    exact plain_need
  have htwice : reconcile (reconciled old fresh) fresh = .ok (reconciled old fresh) := by
    rw [reconcile_eq h.again, h.reconciled_reconciled hplain]
  exact ⟨reconciled old fresh, reconcile_eq h, htwice, reconcileAll_replicate htwice⟩

/-- A failed segment loses its end below the trim mark, two parts that were cut short and the gap
between them become one, a restored region takes over what reaches into it, and a copied segment
that no region requires is restored. -/
theorem reconcile_twice_of_clipped :
    let l : Layout := ⟨4, [⟨0, 10, [⟨["a"]⟩]⟩, ⟨10, 16, [⟨["n", "a"]⟩]⟩]⟩
    let fresh : List TrackedSegment := [⟨⟨2, 9⟩, .notTransferred 0⟩, ⟨⟨10, 15⟩, .restored 6⟩]
    let old : List TrackedSegment :=
      [⟨⟨0, 4⟩, .failed 4 ⟨"reset"⟩⟩, ⟨⟨5, 6⟩, .notTransferred 1⟩, ⟨⟨8, 11⟩, .notTransferred 2⟩,
        ⟨⟨20, 22⟩, .transferred 3⟩]
    let merged : List TrackedSegment :=
      [⟨⟨2, 4⟩, .failed 3 ⟨"reset"⟩⟩, ⟨⟨5, 9⟩, .notTransferred 3⟩, ⟨⟨10, 15⟩, .restored 6⟩,
        ⟨⟨20, 22⟩, .restored 3⟩]
    l.Valid ∧ l.requirement "n" 1 = .ok fresh ∧ Apart old ∧ (∀ o ∈ old, o.Valid) ∧
      reconcile old fresh = .ok merged ∧ reconcile merged fresh = .ok merged := by
  intro l fresh old merged
  have hl : l.Valid := by decide +kernel
  have hfresh : l.requirement "n" 1 = .ok fresh := by decide +kernel
  have hold : Apart old := by
    unfold Apart
    decide +kernel
  have hvalid : ∀ o ∈ old, o.Valid := by
    simp only [old, List.forall_mem_cons]
    exact ⟨⟨by decide +kernel, by decide⟩, ⟨by decide +kernel, by decide⟩,
      ⟨by decide +kernel, by decide⟩, ⟨by decide +kernel, by decide⟩, by simp⟩
  have hlower : overlaid old ⟨⟨2, 9⟩, .notTransferred 0⟩ =
      [⟨⟨2, 4⟩, .failed 3 ⟨"reset"⟩⟩, ⟨⟨5, 9⟩, .notTransferred 3⟩] := by
    rw [overlaid, pieces, List.mergeSort_of_pairwise (by decide +kernel)]
    decide +kernel
  have hupper : overlaid old ⟨⟨10, 15⟩, .restored 6⟩ = [⟨⟨10, 15⟩, .restored 6⟩] := by
    rw [overlaid, pieces, List.mergeSort_of_pairwise (by decide +kernel)]
    decide +kernel
  have hmerged : reconciled old fresh = merged := by
    rw [reconciled, List.flatMap_cons, List.flatMap_cons, List.flatMap_nil, hlower, hupper]
    exact List.mergeSort_of_pairwise (by decide +kernel)
  have honce : reconcile old fresh = .ok merged := by
    rw [reconcile_eq (Layout.reconcilable_of_requirement hl hfresh hold hvalid), hmerged]
  obtain ⟨m, hm, htwice, -⟩ := reconcile_twice hl hfresh hold hvalid
  rw [honce] at hm
  cases hm
  exact ⟨hl, hfresh, hold, hvalid, honce, htwice⟩

end LogRepair.TrackedSegment
