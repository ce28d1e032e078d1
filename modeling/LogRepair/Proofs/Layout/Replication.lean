import LogRepair.Proofs.Layout.Changes
import LogRepair.Proofs.Layout.Coverage
import Mathlib.Data.List.Forall2

/-!
# A node on the regions of copied segments

A layout is rewritten for one copied segment after another. The outcome does not depend on their
order, and is told region by region.

* `Region.ReplicatedFor`: what a region becomes, stripe by stripe.
* `Layout.replicateCopied_congr`, `Layout.replicateCopied_replicateCopied`: only which segments are
  on the list matters, and a second pass changes nothing.
* `Layout.heldBy_claim`, `Layout.requirement_replicateCopied`: what the rewritten layout requires of
  the node.
* `Layout.replicateCopied_one_pass`: the rewrite as a whole.
-/

namespace LogRepair

/-- The region shares an address with a segment of the list that is copied in full. -/
def Region.SharesCopied (segments : List TrackedSegment) (r : Region) : Prop :=
  ∃ s ∈ segments, (s.state = .transferred ∨ s.state = .restored) ∧ ∃ x, x ∈ r.span ∧ x ∈ s.toSpan

/-- The region `t` is `r` with the node at the end of each stripe that lacks it, if `r` shares an
address with a segment of the list that is copied in full. Its other stripes are those of `r`. -/
structure Region.ReplicatedFor (node : NodeId) (segments : List TrackedSegment)
    (r t : Region) : Prop where
  start_eq : t.start = r.start
  stop_eq : t.stop = r.stop
  length_eq : t.stripes.length = r.stripes.length
  added : ∀ (i : Nat) (stripe : Stripe), r.stripes[i]? = some stripe → node ∉ stripe.servers →
    r.SharesCopied segments → t.stripes[i]? = some ⟨stripe.servers ++ [node]⟩
  kept : ∀ (i : Nat) (stripe : Stripe), r.stripes[i]? = some stripe →
    (node ∈ stripe.servers ∨ ¬r.SharesCopied segments) → t.stripes[i]? = some stripe

/-- The segment `t` has the range of `s`, and is restored if `s` was, or if the region that the
range belongs to shares an address with a segment of the list that is copied in full. The range is
not empty and has all addresses of that region above the trim mark. -/
def Layout.RestoredFor (l : Layout) (trimMark : Address) (segments : List TrackedSegment)
    (s t : TrackedSegment) : Prop :=
  t.toSpan = s.toSpan ∧
    ∃ r ∈ l.regions, s.first ≤ s.last ∧ (∀ x, x ∈ s.toSpan ↔ x ∈ r.span ∧ trimMark < x) ∧
      (t.state = .restored ↔ s.state = .restored ∨ r.SharesCopied segments)

/-! ## One region -/

namespace Stripe

theorem withServer_of_mem {s : Stripe} {node : NodeId} (h : node ∈ s.servers) :
    s.withServer node = s :=
  if_pos (List.contains_iff_mem.mpr h)

theorem withServer_of_not_mem {s : Stripe} {node : NodeId} (h : node ∉ s.servers) :
    s.withServer node = ⟨s.servers ++ [node]⟩ :=
  if_neg fun hcontains => h (List.contains_iff_mem.mp hcontains)

end Stripe

namespace Region

variable {r : Region} {node : NodeId} {segments : List TrackedSegment}

theorem getElem?_stripes_withServer {i : Nat} {stripe : Stripe} (h : r.stripes[i]? = some stripe) :
    (r.withServer node).stripes[i]? = some (stripe.withServer node) := by
  rw [withServer, List.getElem?_map, h, Option.map_some]

theorem heldBy_withServer (hr : r.Valid) : (r.withServer node).heldBy node = true := by
  refine heldBy_iff.mpr ⟨(hr.withServer node).stripes_ne_nil, fun i hi => ?_⟩
  rw [length_stripes_withServer] at hi
  exact mem_serversOf_withServer.mpr (Or.inr ⟨rfl, hi⟩)

end Region

namespace Layout

section

variable {l : Layout} {node : NodeId} {segments : List TrackedSegment}

theorem isCopied_iff {r : Region} (hr : r.Valid) (hsegments : ∀ s ∈ segments, s.first ≤ s.last) :
    isCopied segments r = true ↔ r.SharesCopied segments := by
  simp only [isCopied, List.any_eq_true, Bool.and_eq_true, Region.SharesCopied]
  refine exists_congr fun s => and_congr_right fun hs => ?_
  rw [TrackedSegment.isComplete_iff,
    Span.overlaps_iff_exists_mem (s := r.span) hr.start_le_last (hsegments s hs)]

theorem replicatedFor_claim {r : Region} (hr : r.Valid)
    (hsegments : ∀ s ∈ segments, s.first ≤ s.last) :
    r.ReplicatedFor node segments (claim node segments r) := by
  by_cases hcopied : isCopied segments r = true
  · have hshares := (isCopied_iff hr hsegments).mp hcopied
    rw [claim, if_pos hcopied]
    refine ⟨rfl, rfl, r.length_stripes_withServer node, fun i stripe hi hlacks _ => ?_,
      fun i stripe hi hkept => ?_⟩
    · rw [Region.getElem?_stripes_withServer hi, Stripe.withServer_of_not_mem hlacks]
    · have hmem := hkept.resolve_right fun hnot => hnot hshares
      rw [Region.getElem?_stripes_withServer hi, Stripe.withServer_of_mem hmem]
  · have hshares := mt (isCopied_iff hr hsegments).mpr hcopied
    rw [claim, if_neg hcopied]
    exact ⟨rfl, rfl, rfl, fun _ _ _ _ hcopies => absurd hcopies hshares, fun _ _ hi _ => hi⟩

theorem heldBy_claim {r : Region} (hr : r.Valid) (hsegments : ∀ s ∈ segments, s.first ≤ s.last) :
    (claim node segments r).heldBy node = true ↔
      r.heldBy node = true ∨ r.SharesCopied segments := by
  rw [← isCopied_iff hr hsegments]
  by_cases hcopied : isCopied segments r = true
  · rw [claim, if_pos hcopied]
    simp only [Region.heldBy_withServer hr, hcopied, or_true]
  · rw [claim, if_neg hcopied]
    simp only [hcopied, Bool.false_eq_true, or_false]

/-! ## All regions -/

/-- Only which segments are on the list matters. -/
theorem replicateCopied_congr (l : Layout) (node : NodeId) {segments' : List TrackedSegment}
    (h : ∀ s, s ∈ segments' ↔ s ∈ segments) :
    l.replicateCopied node segments' = l.replicateCopied node segments := by
  have hclaim : claim node segments' = claim node segments := by
    funext r
    have hcopied : isCopied segments' r = isCopied segments r := by
      rw [Bool.eq_iff_iff]
      simp only [isCopied, List.any_eq_true, h]
    rw [claim, claim, hcopied]
  rw [replicateCopied_eq, replicateCopied_eq, hclaim]

theorem claim_claim (node : NodeId) (segments : List TrackedSegment) (r : Region) :
    claim node segments (claim node segments r) = claim node segments r := by
  by_cases hcopied : isCopied segments r = true
  · have hagain : isCopied segments (r.withServer node) = true := hcopied
    have hfirst : claim node segments r = r.withServer node := if_pos hcopied
    rw [hfirst, claim, if_pos hagain, Region.withServer_withServer]
  · have hfirst : claim node segments r = r := if_neg hcopied
    rw [hfirst, hfirst]

theorem replicateCopied_replicateCopied (l : Layout) (node : NodeId)
    (segments : List TrackedSegment) :
    (l.replicateCopied node segments).replicateCopied node segments =
      l.replicateCopied node segments := by
  rw [replicateCopied_eq, replicateCopied_eq]
  simp only [mapRegions, List.map_map, Function.comp_def, claim_claim]

theorem neededSpan_claim (trimMark : Address) (r : Region) :
    neededSpan trimMark (claim node segments r) = neededSpan trimMark r := by
  unfold claim
  split <;> rfl

theorem requirement_replicateCopied (hl : l.Valid) (trimMark : Address) :
    (l.replicateCopied node segments).requirement node trimMark =
      .ok ((l.regions.filter fun r =>
        (neededSpan trimMark r).first ≤ (neededSpan trimMark r).last).map
          fun r => need node trimMark (claim node segments r)) := by
  rw [requirement_eq (hl.replicateCopied node segments), replicateCopied_eq, mapRegions,
    List.filter_map, List.map_map]
  simp only [Function.comp_def, neededSpan_claim]

end

/-- Rewriting a layout for a list of copied segments, in which bounds are in order, is one pass over
its regions. The order of the list does not matter, nor how often a segment stands on it, and a
second pass changes nothing. What is required of the node has the same ranges as before, and one of
them is restored if it was, or if its region shares an address with a copied segment. -/
theorem replicateCopied_one_pass {l : Layout} (hl : l.Valid) (node : NodeId)
    {segments : List TrackedSegment} (hsegments : ∀ s ∈ segments, s.first ≤ s.last) :
    (l.replicateCopied node segments).epoch = l.epoch ∧
    List.Forall₂ (Region.ReplicatedFor node segments) l.regions
      (l.replicateCopied node segments).regions ∧
    (∀ segments', (∀ s, s ∈ segments' ↔ s ∈ segments) →
      l.replicateCopied node segments' = l.replicateCopied node segments) ∧
    (l.replicateCopied node segments).replicateCopied node segments =
      l.replicateCopied node segments ∧
    ∀ trimMark, ∃ before after, l.requirement node trimMark = .ok before ∧
      (l.replicateCopied node segments).requirement node trimMark = .ok after ∧
      List.Forall₂ (l.RestoredFor trimMark segments) before after := by
  refine ⟨?_, ?_, fun _ h => replicateCopied_congr l node h,
    replicateCopied_replicateCopied l node segments, fun trimMark =>
      ⟨_, _, requirement_eq hl node trimMark, requirement_replicateCopied hl trimMark, ?_⟩⟩
  · rw [replicateCopied_eq]
    rfl
  · rw [replicateCopied_eq, mapRegions, List.forall₂_map_right_iff, List.forall₂_same]
    exact fun r hr => replicatedFor_claim (hl.region hr) hsegments
  · rw [List.forall₂_map_left_iff, List.forall₂_map_right_iff, List.forall₂_same]
    intro r hr
    obtain ⟨hmem, hne⟩ := List.mem_filter.mp hr
    have hvalid := hl.region hmem
    refine ⟨neededSpan_claim trimMark r, r, hmem, of_decide_eq_true hne,
      fun x => mem_neededSpan_iff hvalid, ?_⟩
    rw [state_need_eq_restored_iff, state_need_eq_restored_iff, heldBy_claim hvalid hsegments]

/-- A region that a copied segment reaches and one that it does not, with a segment that is not
copied, and with a list that names the copied one twice. -/
theorem replicateCopied_one_pass_of_twice :
    let l : Layout := ⟨4, [⟨0, 5, [⟨["a"]⟩, ⟨["n", "a"]⟩]⟩, ⟨5, 9, [⟨["b"]⟩]⟩]⟩
    let copied : TrackedSegment := ⟨⟨3, 4⟩, .transferred 2⟩
    let waiting : TrackedSegment := ⟨⟨6, 8⟩, .notTransferred 0⟩
    l.Valid ∧ (∀ s ∈ [copied, waiting], s.first ≤ s.last) ∧
      l.replicateCopied "n" [waiting, copied, copied] = l.replicateCopied "n" [copied, waiting] ∧
      ∃ before after, l.requirement "n" 1 = .ok before ∧
        (l.replicateCopied "n" [copied, waiting]).requirement "n" 1 = .ok after ∧
        List.Forall₂ (l.RestoredFor 1 [copied, waiting]) before after := by
  intro l copied waiting
  have hl : l.Valid := by decide +kernel
  have hsegments : ∀ s ∈ [copied, waiting], s.first ≤ s.last := by decide +kernel
  obtain ⟨-, -, hcongr, -, hrequired⟩ := replicateCopied_one_pass hl "n" hsegments
  refine ⟨hl, hsegments, hcongr [waiting, copied, copied] fun s => ?_, hrequired 1⟩
  simp only [List.mem_cons, List.not_mem_nil, or_false]
  tauto

end Layout

end LogRepair
