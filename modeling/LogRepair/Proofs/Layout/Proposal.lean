import LogRepair.Cycle.Listing
import LogRepair.Proofs.Layout.Changes
import LogRepair.Proofs.Layout.Coverage

/-!
# What a proposal changes

A proposal is the base with the node on the regions of the claimable segments, perhaps with
leading regions in one, in the next epoch.

* `Listing.proposal_adds_only_node`: seen address by address, a proposal differs from its base
  only by the node, and only on the regions that a claimable segment overlaps.
* `Listing.heldBy_candidate`: every region of the proposal that a ready segment reaches is held by
  the node in full.
* `Listing.exists_complete_of_added`: a region to which a proposal adds the node is copied above the
  trim mark.
-/

namespace LogRepair.Listing

open Layout

/-- With no claimable segment the plan is to wait, and otherwise it depends on whether the
candidate differs from the base. -/
theorem plan_cases (node : NodeId) (merge : Bool) (tracked : List TrackedSegment) (base : Layout)
    (trimMark : Address) :
    let ready := base.claimable tracked trimMark
    let next := candidate node merge ready base
    (plan node merge tracked base trimMark = .incomplete ∧ ready = []) ∨
      (plan node merge tracked base trimMark = .reflected ready ∧ ready ≠ [] ∧ next = base) ∨
      (plan node merge tracked base trimMark = .propose ready next.successor ∧ ready ≠ [] ∧
        next ≠ base) := by
  intro ready next
  by_cases hempty : ready = []
  · exact Or.inl ⟨if_pos (List.isEmpty_iff.mpr hempty), hempty⟩
  have hplan : plan node merge tracked base trimMark =
      if next = base then .reflected ready else .propose ready next.successor :=
    if_neg (mt List.isEmpty_iff.mp hempty)
  by_cases hbase : next = base
  · exact Or.inr (Or.inl ⟨by rw [hplan, if_pos hbase], hempty, hbase⟩)
  · exact Or.inr (Or.inr ⟨by rw [hplan, if_neg hbase], hempty, hbase⟩)

section

variable {node : NodeId} {merge : Bool} {tracked ready : List TrackedSegment}
  {base proposal : Layout} {trimMark : Address}

theorem claimable_eq_nil_of_plan (h : plan node merge tracked base trimMark = .incomplete) :
    base.claimable tracked trimMark = [] := by
  rcases plan_cases node merge tracked base trimMark with ⟨-, hnil⟩ | ⟨hp, -⟩ | ⟨hp, -⟩
  · exact hnil
  all_goals
    rw [hp] at h
    cases h

theorem eq_of_plan_eq_reflected (h : plan node merge tracked base trimMark = .reflected ready) :
    ready = base.claimable tracked trimMark ∧ candidate node merge ready base = base := by
  rcases plan_cases node merge tracked base trimMark with ⟨hp, -⟩ | ⟨hp, -, heq⟩ | ⟨hp, -⟩
  · rw [hp] at h
    cases h
  · rw [hp] at h
    cases h
    exact ⟨rfl, heq⟩
  · rw [hp] at h
    cases h

theorem eq_of_plan_eq_propose
    (h : plan node merge tracked base trimMark = .propose ready proposal) :
    ready = base.claimable tracked trimMark ∧
      proposal = (candidate node merge ready base).successor ∧
      candidate node merge ready base ≠ base := by
  rcases plan_cases node merge tracked base trimMark with ⟨hp, -⟩ | ⟨hp, -⟩ | ⟨hp, -, hne⟩
  · rw [hp] at h
    cases h
  · rw [hp] at h
    cases h
  · rw [hp] at h
    cases h
    exact ⟨rfl, rfl, hne⟩

end

theorem mem_claimable {base : Layout} {tracked : List TrackedSegment} {trimMark : Address}
    {s : TrackedSegment} :
    s ∈ base.claimable tracked trimMark ↔
      s ∈ tracked ∧ s.state = .transferred ∧
        ∀ r ∈ base.regions, r.span.overlaps s.toSpan = true →
          Span.covers (copiedSpans tracked) (neededSpan trimMark r) = true := by
  simp only [claimable, overlapping, List.mem_filter, Bool.and_eq_true, decide_eq_true_eq,
    List.all_eq_true, and_imp]

theorem isComplete_of_mem_claimable {base : Layout} {tracked : List TrackedSegment}
    {trimMark : Address} {s : TrackedSegment} (hs : s ∈ base.claimable tracked trimMark) :
    s.isComplete = true := by
  rw [TrackedSegment.isComplete, (mem_claimable.mp hs).2.1]
  rfl

/-! ## The candidate, address by address -/

theorem valid_candidate {base : Layout} (hbase : base.Valid) (node : NodeId) (merge : Bool)
    (ready : List TrackedSegment) : (candidate node merge ready base).Valid := by
  have h := hbase.replicateCopied node ready
  unfold candidate
  dsimp only
  split
  · exact h.collapse
  · exact h

theorem alike_candidate {base : Layout} (hbase : base.Valid) (node : NodeId) (merge : Bool)
    (ready : List TrackedSegment) :
    Alike (base.replicateCopied node ready) (candidate node merge ready base) := by
  unfold candidate
  dsimp only
  split
  · exact (hbase.replicateCopied node ready).alike_collapse
  · exact .refl _

theorem epoch_candidate (node : NodeId) (merge : Bool) (ready : List TrackedSegment)
    (base : Layout) : (candidate node merge ready base).epoch = base.epoch := by
  unfold candidate
  dsimp only
  rw [replicateCopied_eq]
  split <;> rfl

theorem covers_candidate_iff {base : Layout} (hbase : base.Valid) (node : NodeId) (merge : Bool)
    (ready : List TrackedSegment) (x : Address) :
    (candidate node merge ready base).Covers x ↔ base.Covers x :=
  ((alike_candidate hbase node merge ready).covers_iff x).trans
    (covers_replicateCopied base node ready x)

theorem stripesAt_candidate {base : Layout} (hbase : base.Valid) (node : NodeId) (merge : Bool)
    (ready : List TrackedSegment) (x : Address) :
    (candidate node merge ready base).stripesAt x = base.stripesAt x :=
  ((alike_candidate hbase node merge ready).stripesAt_eq x).trans
    (stripesAt_replicateCopied base node ready x)

theorem mem_serversAt_candidate {base : Layout} (hbase : base.Valid) {node n : NodeId}
    {merge : Bool} {ready : List TrackedSegment} (hready : ∀ s ∈ ready, s.isComplete = true)
    {x : Address} {i : Nat} :
    n ∈ (candidate node merge ready base).serversAt x i ↔
      n ∈ base.serversAt x i ∨
        (n = node ∧ i < base.stripesAt x ∧
          ∃ r ∈ base.regions, x ∈ r.span ∧ ∃ s ∈ ready, r.span.overlaps s.toSpan = true) := by
  rw [(alike_candidate hbase node merge ready).mem_serversAt_iff,
    mem_serversAt_replicateCopied hbase]
  have hcopied : ∀ r, isCopied ready r = true ↔ ∃ s ∈ ready, r.span.overlaps s.toSpan = true := by
    intro r
    simp only [isCopied, List.any_eq_true, Bool.and_eq_true]
    refine exists_congr fun s => and_congr_right fun hs => ?_
    exact and_iff_right (hready s hs)
  simp only [hcopied]

/-- A region of the candidate that shares an address with a ready segment lists the node in every
stripe. -/
theorem heldBy_candidate {base : Layout} (hbase : base.Valid) {node : NodeId} {merge : Bool}
    {ready : List TrackedSegment} (hready : ∀ s ∈ ready, s.isComplete = true) {r : Region}
    (hr : r ∈ (candidate node merge ready base).regions) {s : TrackedSegment} (hs : s ∈ ready)
    {x : Address} (hxr : x ∈ r.span) (hxs : x ∈ s.toSpan) : r.heldBy node = true := by
  refine ((valid_candidate hbase node merge ready).heldBy_iff hr hxr).mpr fun i hi => ?_
  rw [stripesAt_candidate hbase] at hi
  obtain ⟨t, ht, hxt⟩ : base.Covers x :=
    (covers_candidate_iff hbase node merge ready x).mp ⟨r, hr, hxr⟩
  exact (mem_serversAt_candidate hbase hready).mpr
    (Or.inr ⟨rfl, hi, t, ht, hxt, s, hs, Span.overlaps_of_mem hxt hxs⟩)

/-! ## What a proposal relies on -/

/-- Above the trim mark a region that a claimable segment overlaps is copied. -/
theorem exists_complete_of_claimable {base : Layout} {tracked : List TrackedSegment}
    {trimMark : Address} (hbase : base.Valid) {s : TrackedSegment}
    (hs : s ∈ base.claimable tracked trimMark) {r : Region} (hr : r ∈ base.regions)
    (hoverlap : r.span.overlaps s.toSpan = true) {x : Address} (hx : x ∈ r.span)
    (htrim : trimMark < x) : ∃ t ∈ tracked, t.isComplete = true ∧ x ∈ t.toSpan := by
  have hcovers := (mem_claimable.mp hs).2.2 r hr hoverlap
  exact (covers_copiedSpans_iff (hbase.region hr)).mp hcovers x hx htrim

/-- A region of the base to which a proposal adds the node is copied above the trim mark. -/
theorem exists_complete_of_added {node : NodeId} {merge : Bool}
    {tracked ready : List TrackedSegment} {base proposal : Layout} {trimMark : Address}
    (hbase : base.Valid)
    (hplan : plan node merge tracked base trimMark = .propose ready proposal) {r : Region}
    (hr : r ∈ base.regions) {y : Address} (hy : y ∈ r.span) {i : Nat}
    (hbefore : node ∉ base.serversAt y i) (hafter : node ∈ proposal.serversAt y i) {x : Address}
    (hx : x ∈ r.span) (htrim : trimMark < x) :
    ∃ t ∈ tracked, t.isComplete = true ∧ x ∈ t.toSpan := by
  obtain ⟨rfl, rfl, -⟩ := eq_of_plan_eq_propose hplan
  have hready : ∀ s ∈ base.claimable tracked trimMark, s.isComplete = true := fun _ =>
    isComplete_of_mem_claimable
  rcases (mem_serversAt_candidate hbase hready).mp hafter with
    hold | ⟨-, -, r', hr', hy', s, hs, hoverlap⟩
  · exact absurd hold hbefore
  · obtain rfl := hbase.eq_of_mem_span hr hr' hy hy'
    exact exists_complete_of_claimable hbase hs hr hoverlap hx htrim

/-! ## The proposal -/

/-- A proposal is a valid layout of the next epoch over the addresses of its base. Each stripe of
each address keeps its servers, and gets the node exactly if the region of the base there
overlaps a claimable segment; between segments that are not empty, exactly if the two share an
address. -/
theorem proposal_adds_only_node {node : NodeId} {merge : Bool} {tracked : List TrackedSegment}
    {base : Layout} {trimMark : Address} {ready : List TrackedSegment} {proposal : Layout}
    (hbase : base.Valid) (h : plan node merge tracked base trimMark = .propose ready proposal) :
    create proposal.epoch proposal.regions = .ok proposal ∧
      proposal.epoch = base.epoch + 1 ∧
      (base.epoch.toNat + 1 < UInt64.size → proposal.epoch.toNat = base.epoch.toNat + 1) ∧
      (∀ x, proposal.Covers x ↔ base.Covers x) ∧
      (∀ x, proposal.stripesAt x = base.stripesAt x) ∧
      (∀ x i n, n ∈ proposal.serversAt x i ↔
        n ∈ base.serversAt x i ∨
          (n = node ∧ i < base.stripesAt x ∧
            ∃ r ∈ base.regions, x ∈ r.span ∧
              ∃ s ∈ base.claimable tracked trimMark, r.span.overlaps s.toSpan = true)) ∧
      ∀ r ∈ base.regions, ∀ s : TrackedSegment, s.first ≤ s.last →
        (r.span.overlaps s.toSpan = true ↔ ∃ y, y ∈ r.span ∧ y ∈ s.toSpan) := by
  obtain ⟨rfl, rfl, -⟩ := eq_of_plan_eq_propose h
  have hready : ∀ s ∈ base.claimable tracked trimMark, s.isComplete = true := fun _ hs =>
    isComplete_of_mem_claimable hs
  have hepoch :
      (candidate node merge (base.claimable tracked trimMark) base).epoch = base.epoch := by
    unfold candidate
    dsimp only
    rw [replicateCopied_eq]
    split <;> rfl
  refine ⟨create_eq_ok_iff.mpr ⟨rfl, valid_candidate hbase node merge _⟩, ?_, fun hlt => ?_,
    covers_candidate_iff hbase node merge _, stripesAt_candidate hbase node merge _,
    fun x i n => mem_serversAt_candidate hbase hready, fun r hr s hs => ⟨fun ho => ?_, ?_⟩⟩
  · rw [successor, hepoch]
  · rw [successor, hepoch, UInt64.toNat_add]
    exact Nat.mod_eq_of_lt hlt
  · exact Span.exists_mem_of_overlaps (hbase.region hr).start_le_last hs ho
  · rintro ⟨y, hyr, hys⟩
    exact Span.overlaps_of_mem hyr hys

/-- The first region is copied and the second held already: the proposal lists the node for the
first one as well and joins the two. -/
theorem proposal_adds_only_node_joining :
    let base : Layout :=
      ⟨4, [⟨0, 5, [⟨["a"]⟩]⟩, ⟨5, 9, [⟨["n", "a"]⟩]⟩, ⟨9, 12, [⟨["b"]⟩]⟩]⟩
    let copied : TrackedSegment := ⟨⟨0, 4⟩, .transferred 5⟩
    let tracked : List TrackedSegment := [copied, ⟨⟨5, 8⟩, .restored 4⟩]
    let proposal : Layout := ⟨5, [⟨0, 9, [⟨["n", "a"]⟩]⟩, ⟨9, 12, [⟨["b"]⟩]⟩]⟩
    base.Valid ∧ plan "n" true tracked base (-1) = .propose [copied] proposal ∧
      (∀ x, proposal.Covers x ↔ base.Covers x) ∧ (∀ x, proposal.stripesAt x = base.stripesAt x) ∧
      ∀ x i n, n ∈ base.serversAt x i → n ∈ proposal.serversAt x i := by
  intro base copied tracked proposal
  have hbase : base.Valid := by decide +kernel
  have hcopied : copiedSpans tracked = [⟨0, 4⟩, ⟨5, 8⟩] :=
    List.mergeSort_of_pairwise (by decide +kernel)
  have hready : base.claimable tracked (-1) = [copied] := by
    rw [claimable, hcopied]
    decide +kernel
  have hnext : (candidate "n" true [copied] base).successor = proposal := by decide +kernel
  have hchanged : candidate "n" true [copied] base ≠ base := by decide +kernel
  have hplan : plan "n" true tracked base (-1) = .propose [copied] proposal := by
    rw [plan, hready, hnext, if_neg (by simp), if_neg hchanged]
  obtain ⟨-, -, -, hcovers, hstripes, hservers, -⟩ := proposal_adds_only_node hbase hplan
  exact ⟨hbase, hplan, hcovers, hstripes, fun x i n hn => (hservers x i n).mpr (Or.inl hn)⟩

end LogRepair.Listing
