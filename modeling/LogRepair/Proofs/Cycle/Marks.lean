import LogRepair.Proofs.Layout.Proposal
import LogRepair.Proofs.Layout.Requirement

/-!
# Marking segments as restored

* `Listing.markListed_eq`: in a list of valid segments that share no address, exactly the claimable
  ones are marked, and none is refused.
* `Listing.restores_candidate`: a layout that lists the node for the ready segments requires each
  of their addresses as restored.
-/

namespace LogRepair

open TrackedSegment

namespace Listing

/-- The list with the ready segments restored and all others as they are. -/
def relist (ready tracked : List TrackedSegment) : List TrackedSegment :=
  tracked.map fun s => if s ∈ ready then s.asRestored else s

theorem relist_nil (tracked : List TrackedSegment) : relist [] tracked = tracked := by
  simp [relist]

section

variable {tracked : List TrackedSegment} {base : Layout} {trimMark : Address}

/-- Among segments that share no address the span tells which segment is ready. -/
theorem isReady_iff (hvalid : ∀ s ∈ tracked, s.fault? = none) (hapart : Apart tracked)
    {s : TrackedSegment} (hs : s ∈ tracked) :
    isReady (base.claimable tracked trimMark) s = true ↔ s ∈ base.claimable tracked trimMark := by
  simp only [isReady, Bool.and_eq_true, decide_eq_true_eq, List.any_eq_true]
  constructor
  · rintro ⟨-, r, hr, hspan⟩
    have hoverlap : r.overlaps s = true := by
      have hself := overlaps_self (hvalid s hs)
      rwa [overlaps, hspan]
    rwa [← hapart.eq_of_overlaps (mem_claimable.mp hr).1 hs hoverlap]
  · intro h
    exact ⟨(mem_claimable.mp h).2.1, s, h, rfl⟩

theorem markListed_eq (hvalid : ∀ s ∈ tracked, s.fault? = none) (hapart : Apart tracked) :
    markListed (base.claimable tracked trimMark) tracked =
      .ok (relist (base.claimable tracked trimMark) tracked) := by
  refine mapM_eq_ok_map fun s hs => ?_
  by_cases h : s ∈ base.claimable tracked trimMark
  · rw [if_pos ((isReady_iff hvalid hapart hs).mpr h), if_pos h]
    exact listed_eq (hvalid s hs) (isComplete_of_mem_claimable h)
  · rw [if_neg (mt (isReady_iff hvalid hapart hs).mp h), if_neg h]

end

/-! ## What the layout requires afterwards -/

/-- The requirement of a layout has every address of the segments that the layout contains above
the trim mark as restored. -/
def Restores (l : Layout) (node : NodeId) (trimMark : Address) (segments : List TrackedSegment) :
    Prop :=
  ∃ required, l.requirement node trimMark = .ok required ∧
    ∀ s ∈ segments, ∀ x ∈ s.toSpan, l.Covers x → trimMark < x →
      stateAt? required x = some .restored

theorem restores_of_heldBy {l : Layout} (hl : l.Valid) {node : NodeId} {trimMark : Address}
    {segments : List TrackedSegment}
    (hheld : ∀ r ∈ l.regions, ∀ s ∈ segments, ∀ x, x ∈ r.span → x ∈ s.toSpan →
      r.heldBy node = true) : Restores l node trimMark segments := by
  refine ⟨_, Layout.requirement_eq hl node trimMark, fun s hs x hx hcovers htrim => ?_⟩
  have hreq := Layout.requirement_eq hl node trimMark
  rw [stateAt?_eq_some_iff (Layout.ascending_requirement hl hreq)]
  obtain ⟨r, hr, hxr⟩ := hcovers
  have hmem := (Layout.mem_neededSpan_iff (hl.region hr)).mpr ⟨hxr, htrim⟩
  refine ⟨Layout.need node trimMark r, (Layout.mem_requirement_iff hl hreq).mpr ⟨r, hr, ?_, rfl⟩,
    hmem, ?_⟩
  · rw [Span.mem_iff] at hmem
    exact Int64.le_trans hmem.1 hmem.2
  · have hr := hheld r hr s hs x hxr hx
    simp [Layout.need, TrackedSegment.state, hr, Progress.restored]

theorem restores_candidate {base : Layout} (hbase : base.Valid) {node : NodeId} {merge : Bool}
    {ready : List TrackedSegment} (hready : ∀ s ∈ ready, s.isComplete = true)
    (trimMark : Address) : Restores (candidate node merge ready base) node trimMark ready :=
  restores_of_heldBy (valid_candidate hbase node merge ready)
    fun _ hr _ hs _ hxr hxs => heldBy_candidate hbase hready hr hs hxr hxs

/-- The epoch says nothing about what is required. -/
theorem restores_successor {l : Layout} {node : NodeId} {trimMark : Address}
    {segments : List TrackedSegment} (h : Restores l node trimMark segments) :
    Restores l.successor node trimMark segments := h

end Listing

end LogRepair
