import LogRepair.Proofs.Tracked.Reconcile

/-!
# What a reconciliation counts

The pieces of a fresh segment take over the counts of old ones whole, and joined pieces add up
theirs.

* `TrackedSegment.shared_of_mem_cut`: a piece is fresh, or it is what an old segment shares with the
  fresh one.
* `TrackedSegment.count_of_mem_pieces`: a piece that needs a copy has copied nothing yet, or as much
  as the old segment.
* `TrackedSegment.count_of_joined`: what is true of the counts of adjacent pieces and passes on to
  their sum is true of the counts of joined pieces.
-/

namespace LogRepair

/-! ## Sums of words -/

theorem toNat_add_le (a b : UInt64) : (a + b).toNat ≤ a.toNat + b.toNat := by
  rw [UInt64.toNat_add]
  exact Nat.mod_le _ _

theorem toNat_ofNat_le (n : Nat) : (UInt64.ofNat n).toNat ≤ n := by
  rw [UInt64.toNat_ofNat']
  exact Nat.mod_le _ _

/-- A record that is not complete is never restated with more than is said to be copied. -/
theorem Progress.copied_restate_le_of_isDue {p : Progress} (hp : p.state.isDue = true)
    (copied length : UInt64) : (p.restate copied length).copied ≤ copied := by
  unfold restate
  split
  · next hstate =>
    rw [hstate] at hp
    cases hp
  · next hstate =>
    rw [hstate] at hp
    cases hp
  · exact Std.min_le_left
  · exact UInt64.le_trans Std.min_le_right Std.min_le_left

namespace TrackedSegment

/-! ## Pieces of a fresh segment -/

/-- A piece has the progress of the fresh segment, or is all that an old segment shares with it. -/
theorem shared_of_mem_cut {fresh p : TrackedSegment} {olds : List TrackedSegment}
    {cursor : Address} (hp : p ∈ cut fresh cursor olds) :
    p.progress = fresh.progress ∨
      ∃ old ∈ olds, p.progress = old.progress.join fresh.progress ∧
        ∀ x, x ∈ p.toSpan ↔ x ∈ old.toSpan ∧ x ∈ fresh.toSpan := by
  induction olds generalizing cursor with
  | nil =>
    unfold cut at hp
    split at hp
    · rw [List.mem_singleton.mp hp]
      exact Or.inl rfl
    · cases hp
  | cons old rest ih =>
    unfold cut at hp
    dsimp only at hp
    generalize hf : (if fresh.first < old.first then old.first else fresh.first) = first at hp
    generalize hl : (if old.last < fresh.last then old.last else fresh.last) = last at hp
    have htail : p ∈ (⟨⟨first, last⟩, old.progress.join fresh.progress⟩ : TrackedSegment) ::
          cut fresh (last + 1) rest →
        p.progress = fresh.progress ∨
          ∃ o ∈ old :: rest, p.progress = o.progress.join fresh.progress ∧
            ∀ x, x ∈ p.toSpan ↔ x ∈ o.toSpan ∧ x ∈ fresh.toSpan := by
      intro hp
      rcases List.mem_cons.mp hp with rfl | hp
      · refine Or.inr ⟨old, List.mem_cons_self, rfl, fun x => ?_⟩
        simp only [Span.mem_iff]
        grind
      · refine (ih hp).imp id ?_
        rintro ⟨o, ho, hshared⟩
        exact ⟨o, List.mem_cons_of_mem _ ho, hshared⟩
    split at hp
    · rcases List.mem_cons.mp hp with rfl | hp
      · exact Or.inl rfl
      · exact htail hp
    · exact htail hp

/-- A piece that needs a copy has copied nothing, or it is what an old segment that needs a copy
shares with the fresh one, and has all its progress. -/
theorem count_of_mem_pieces {old : List TrackedSegment} {f p : TrackedSegment}
    (hfresh : f.isDue = true → f.progress.copied = 0) (hp : p ∈ pieces old f)
    (hdue : p.isDue = true) :
    p.progress.copied = 0 ∨
      ∃ o ∈ old, o.isDue = true ∧ p.progress = o.progress ∧
        ∀ x, x ∈ p.toSpan ↔ x ∈ o.toSpan ∧ x ∈ f.toSpan := by
  have hnone : p.progress = f.progress → p.progress.copied = 0 := by
    intro heq
    rw [isDue, state, heq] at hdue
    rw [heq]
    exact hfresh hdue
  rcases shared_of_mem_cut hp with heq | ⟨o, ho, heq, hshared⟩
  · exact Or.inl (hnone heq)
  · rcases o.progress.join_eq_or f.progress with hjoin | hjoin
    · rw [hjoin] at heq
      refine Or.inr ⟨o, (mem_sorted_overlapping.mp ho).1, ?_, heq, hshared⟩
      rwa [isDue, state, heq] at hdue
    · exact Or.inl (hnone (heq.trans hjoin))

/-! ## Joined pieces -/

/-- A statement on spans and counts that is true of the pieces that need a copy, of every smaller
count, and of the sum of two counts of spans that follow each other, is true of the joined
pieces. -/
theorem count_of_joined {C : Span → Nat → Prop} (hmono : ∀ s m n, m ≤ n → C s n → C s m)
    (hadd : ∀ s t m n, s.first ≤ s.last → s.last < t.first → t.first ≤ t.last → C s m → C t n →
      C ⟨s.first, t.last⟩ (m + n))
    {first last : Address} (hlast : last < Int64.maxValue) {pieces : List TrackedSegment}
    (h : Tiles first last pieces)
    (hpieces : ∀ o ∈ pieces, o.isDue = true → C o.toSpan o.progress.copied.toNat)
    {q : TrackedSegment} (hq : q ∈ joinNeighbours pieces) (hdue : q.isDue = true) :
    C q.toSpan q.progress.copied.toNat := by
  refine (forall_joined (P := fun q => (q.first ≤ q.last ∧ q.last ≤ last) ∧
      (q.isDue = true → C q.toSpan q.progress.copied.toNat))
    (fun o ho => ?_) (fun q hq next hnext hcontinued => ?_) q hq).2 hdue
  · refine ⟨(h.bounds hlast ho).2, fun hrestated => ?_⟩
    rw [isDue, state_restated] at hrestated
    refine hmono _ _ _ ?_ (hpieces o ho hrestated)
    exact UInt64.le_iff_toNat_le.mp (Progress.copied_restate_le_of_isDue hrestated _ _)
  · obtain ⟨hadjacent, hstate⟩ := continuedBy_iff.mp hcontinued
    obtain ⟨hbounds, hcount⟩ := hq
    have hnextBounds := h.bounds hlast hnext
    have hlt : q.last < next.first := by grind
    have hle : q.first ≤ next.last := by grind
    refine ⟨⟨hle, hnextBounds.2.2⟩, fun hgrown => ?_⟩
    rw [isDue, state_extendBy] at hgrown
    have hsum := hadd q.toSpan next.toSpan _ _ hbounds.1 hlt hnextBounds.2.1
      (hcount hgrown) (hpieces next hnext (by rwa [isDue, ← hstate]))
    refine hmono _ _ _ ?_ hsum
    have hle := Progress.copied_restate_le_of_isDue hgrown
      (q.progress.copied + next.progress.copied) (Span.length ⟨q.first, next.last⟩)
    exact Nat.le_trans (UInt64.le_iff_toNat_le.mp hle) (toNat_add_le _ _)

end TrackedSegment

end LogRepair
