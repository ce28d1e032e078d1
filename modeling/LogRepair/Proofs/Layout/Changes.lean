import LogRepair.Layout.Redundancy
import LogRepair.Proofs.Layout.Regions

/-!
# What the changes of a layout do to each address

A change of a layout that keeps the borders of the regions is seen address by address.

* `Layout.replicateCopied_eq`: adding a node for a list of copied segments, one after
  another, is one pass over the regions.
* `Layout.mem_serversAt_replicateCopied`: it adds the node to the stripes of the regions that
  overlap a copied segment and changes nothing else.
* `Layout.Valid.collapse`, `Layout.Valid.alike_collapse`: joining leading regions keeps a layout
  valid and every stripe of every address on the same servers.
-/

namespace LogRepair

/-! ## A server more in a stripe and in a region -/

namespace Stripe

theorem mem_servers_withServer {s : Stripe} {node n : NodeId} :
    n ∈ (s.withServer node).servers ↔ n ∈ s.servers ∨ n = node := by
  unfold withServer contains
  split
  · next h =>
    rw [List.contains_iff_mem] at h
    constructor
    · exact Or.inl
    · rintro (hn | rfl)
      · exact hn
      · exact h
  · simp

theorem withServer_withServer (s : Stripe) (node : NodeId) :
    (s.withServer node).withServer node = s.withServer node := by
  have hmem : (s.withServer node).contains node = true := by
    rw [contains, List.contains_iff_mem]
    exact mem_servers_withServer.mpr (Or.inr rfl)
  rw [withServer, if_pos hmem]

end Stripe

namespace Region

@[simp] theorem span_withServer (r : Region) (node : NodeId) :
    (r.withServer node).span = r.span := rfl

@[simp] theorem length_stripes_withServer (r : Region) (node : NodeId) :
    (r.withServer node).stripes.length = r.stripes.length := by
  simp [withServer]

theorem mem_serversOf_withServer {r : Region} {node n : NodeId} {i : Nat} :
    n ∈ (r.withServer node).serversOf i ↔
      n ∈ r.serversOf i ∨ (n = node ∧ i < r.stripes.length) := by
  by_cases hi : i < r.stripes.length
  · rw [serversOf_of_lt (by simpa using hi), serversOf_of_lt hi]
    simp [withServer, Stripe.mem_servers_withServer, hi]
  · rw [serversOf_eq_nil (by simpa using hi), serversOf_eq_nil (by omega)]
    simp [hi]

theorem withServer_withServer (r : Region) (node : NodeId) :
    (r.withServer node).withServer node = r.withServer node := by
  simp [withServer, List.map_map, Function.comp_def, Stripe.withServer_withServer]

theorem Valid.withServer {r : Region} (hr : r.Valid) (node : NodeId) : (r.withServer node).Valid :=
  ⟨hr.start_nonneg, hr.start_lt_stop, by simpa [Region.withServer] using hr.stripes_ne_nil⟩

end Region

namespace Layout

/-! ## Changes that keep the borders -/

/-- The layout with every region changed by `f`. -/
def mapRegions (l : Layout) (f : Region → Region) : Layout := { l with regions := l.regions.map f }

theorem Contiguous.map {f : Region → Region} {regions : List Region}
    (hstart : ∀ r, (f r).start = r.start) (hstop : ∀ r, (f r).stop = r.stop)
    (hc : Contiguous regions) : Contiguous (regions.map f) := by
  induction regions with
  | nil => trivial
  | cons r rest ih =>
    cases rest with
    | nil => trivial
    | cons t rest =>
      refine ⟨?_, ih hc.2⟩
      rw [hstart, hstop]
      exact hc.1

theorem Valid.mapRegions {l : Layout} (hl : l.Valid) {f : Region → Region}
    (hstart : ∀ r, (f r).start = r.start) (hstop : ∀ r, (f r).stop = r.stop)
    (hf : ∀ r, r.Valid → (f r).Valid) : (l.mapRegions f).Valid := by
  obtain ⟨hne, hregions, hc⟩ := valid_iff.mp hl
  refine valid_iff.mpr ⟨by simpa [Layout.mapRegions] using hne, fun r hr => ?_,
    hc.map hstart hstop⟩
  obtain ⟨t, ht, rfl⟩ := List.mem_map.mp hr
  exact hf t (hregions t ht)

theorem regionAt?_mapRegions {l : Layout} {f : Region → Region}
    (hspan : ∀ r, (f r).span = r.span) (x : Address) :
    (l.mapRegions f).regionAt? x = (l.regionAt? x).map f := by
  simp only [regionAt?, mapRegions, List.find?_map]
  congr 2
  funext r
  simp [hspan]

theorem covers_mapRegions {l : Layout} {f : Region → Region}
    (hspan : ∀ r, (f r).span = r.span) (x : Address) :
    (l.mapRegions f).Covers x ↔ l.Covers x := by
  rw [covers_iff_regionAt?_isSome, covers_iff_regionAt?_isSome, regionAt?_mapRegions hspan,
    Option.isSome_map]

/-! ## The node on the regions of copied segments -/

/-- Some fully copied segment of the list overlaps the region. -/
def isCopied (segments : List TrackedSegment) (r : Region) : Bool :=
  segments.any fun s => s.isComplete && r.span.overlaps s.toSpan

/-- The region with the node if a fully copied segment overlaps it. -/
def claim (node : NodeId) (segments : List TrackedSegment) (r : Region) : Region :=
  if isCopied segments r then r.withServer node else r

@[simp] theorem span_claim (node : NodeId) (segments : List TrackedSegment) (r : Region) :
    (claim node segments r).span = r.span := by
  unfold claim
  split <;> rfl

/-- Adding the node for one segment after another comes to one pass over the regions: a region
that has the node already is not changed by a further segment. -/
theorem replicateCopied_eq (l : Layout) (node : NodeId) (segments : List TrackedSegment) :
    l.replicateCopied node segments = l.mapRegions (claim node segments) := by
  unfold replicateCopied
  induction segments generalizing l with
  | nil =>
    have : claim node [] = id := by
      funext r
      simp [claim, isCopied]
    simp [mapRegions, this]
  | cons s rest ih =>
    by_cases hs : s.isComplete = true
    · rw [List.filter_cons_of_pos hs, List.foldl_cons, ih]
      simp only [mapRegions, replicate, List.map_map, Layout.mk.injEq, true_and]
      refine List.map_congr_left fun r _ => ?_
      simp only [Function.comp_apply, claim, isCopied, List.any_cons, hs, Bool.true_and]
      by_cases ho : r.span.overlaps s.toSpan = true
      · simp only [ho, if_true, Bool.true_or, Region.span_withServer]
        split
        · exact Region.withServer_withServer r node
        · rfl
      · simp [ho]
    · rw [List.filter_cons_of_neg hs, ih]
      have : claim node (s :: rest) = claim node rest := by
        funext r
        simp [claim, isCopied, hs]
      rw [this]

theorem Valid.replicateCopied {l : Layout} (hl : l.Valid) (node : NodeId)
    (segments : List TrackedSegment) : (l.replicateCopied node segments).Valid := by
  rw [replicateCopied_eq]
  refine hl.mapRegions ?_ ?_ ?_
  all_goals
    intro r
    unfold claim
    split
  · rfl
  · rfl
  · rfl
  · rfl
  · exact fun hr => hr.withServer node
  · exact id

theorem covers_replicateCopied (l : Layout) (node : NodeId) (segments : List TrackedSegment)
    (x : Address) : (l.replicateCopied node segments).Covers x ↔ l.Covers x := by
  rw [replicateCopied_eq]
  exact covers_mapRegions (span_claim node segments) x

theorem regionAt?_replicateCopied (l : Layout) (node : NodeId) (segments : List TrackedSegment)
    (x : Address) :
    (l.replicateCopied node segments).regionAt? x = (l.regionAt? x).map (claim node segments) := by
  rw [replicateCopied_eq]
  exact regionAt?_mapRegions (span_claim node segments) x

theorem stripesAt_replicateCopied (l : Layout) (node : NodeId) (segments : List TrackedSegment)
    (x : Address) : (l.replicateCopied node segments).stripesAt x = l.stripesAt x := by
  have hlen : ∀ r, (claim node segments r).stripes.length = r.stripes.length := by
    intro r
    unfold claim
    split
    · exact Region.length_stripes_withServer r node
    · rfl
  simp only [stripesAt, regionAt?_replicateCopied, Option.map_map]
  congr 2
  funext r
  exact hlen r

/-- The stripes at an address get the node if a fully copied segment overlaps the region there,
and nothing else. -/
theorem mem_serversAt_replicateCopied {l : Layout} (hl : l.Valid) {node n : NodeId}
    {segments : List TrackedSegment} {x : Address} {i : Nat} :
    n ∈ (l.replicateCopied node segments).serversAt x i ↔
      n ∈ l.serversAt x i ∨
        (n = node ∧ i < l.stripesAt x ∧
          ∃ r ∈ l.regions, x ∈ r.span ∧ isCopied segments r = true) := by
  cases hr : l.regionAt? x with
  | none =>
    have hnone : (l.replicateCopied node segments).regionAt? x = none := by
      rw [regionAt?_replicateCopied, hr]
      rfl
    simp [serversAt_eq_nil hnone, serversAt_eq_nil hr, stripesAt, hr]
  | some r =>
    have hsome : (l.replicateCopied node segments).regionAt? x =
        some (claim node segments r) := by
      rw [regionAt?_replicateCopied, hr]
      rfl
    obtain ⟨hmem, hx⟩ := hl.regionAt?_eq_some_iff.mp hr
    have hex : (∃ t ∈ l.regions, x ∈ t.span ∧ isCopied segments t = true) ↔
        isCopied segments r = true := by
      constructor
      · rintro ⟨t, ht, hxt, hc⟩
        rwa [hl.eq_of_mem_span hmem ht hx hxt]
      · exact fun hc => ⟨r, hmem, hx, hc⟩
    rw [serversAt_of_regionAt? hsome, serversAt_of_regionAt? hr, stripesAt_of_regionAt? hr, hex]
    unfold claim
    split
    · next hc => simp [Region.mem_serversOf_withServer, hc]
    · next hc => simp [hc]

/-! ## Leading regions in one -/

theorem mem_span_join {epoch : Epoch} {r t : Region} {rest : List Region}
    (hl : Valid ⟨epoch, r :: t :: rest⟩) {x : Address} :
    x ∈ (r.join t).span ↔ x ∈ r.span ∨ x ∈ t.span := by
  have hr := hl.region (r := r) (by simp)
  have ht := hl.region (r := t) (by simp)
  have hrt : r.stop = t.start := hl.contiguous.1
  have hrs := hr.start_lt_stop
  have hts := ht.start_lt_stop
  rw [hr.mem_span_iff, ht.mem_span_iff, Span.mem_iff]
  simp only [Region.join, Region.span, Region.last]
  grind

theorem Valid.join {epoch : Epoch} {r t : Region} {rest : List Region}
    (hl : Valid ⟨epoch, r :: t :: rest⟩) : Valid ⟨epoch, r.join t :: rest⟩ := by
  have hr := hl.region (r := r) (by simp)
  have ht := hl.region (r := t) (by simp)
  have hrt : r.stop = t.start := hl.contiguous.1
  have hjoin : (r.join t).Valid := by
    have hrs := hr.start_lt_stop
    have hts := ht.start_lt_stop
    exact ⟨hr.start_nonneg, by simp only [Region.join]; grind, ht.stripes_ne_nil⟩
  refine valid_iff.mpr ⟨by simp, fun u hu => ?_, ?_⟩
  · rcases List.mem_cons.mp hu with rfl | hu
    · exact hjoin
    · exact hl.region (by simp [hu])
  · cases rest with
    | nil => trivial
    | cons u rest => exact ⟨hl.contiguous.2.1, hl.contiguous.2.2⟩

/-- The joined region takes the stripes of the second one, which are on the same servers. -/
theorem Valid.alike_join {epoch : Epoch} {r t : Region} {rest : List Region}
    (hl : Valid ⟨epoch, r :: t :: rest⟩) (hlike : r.replicatedLike t = true) :
    Alike ⟨epoch, r :: t :: rest⟩ ⟨epoch, r.join t :: rest⟩ := by
  have hjoin : ∀ x, x ∈ r.span ∨ x ∈ t.span →
      (⟨epoch, r.join t :: rest⟩ : Layout).regionAt? x = some (r.join t) := fun x hx =>
    hl.join.regionAt?_eq_some_iff.mpr ⟨by simp, (mem_span_join hl).mpr hx⟩
  refine alike_of_regionAt? fun x => ?_
  by_cases hxr : x ∈ r.span
  · exact Or.inr ⟨r, r.join t, hl.regionAt?_eq_some_iff.mpr ⟨by simp, hxr⟩, hjoin x (Or.inl hxr),
      Region.replicatedLike_iff.mp hlike⟩
  by_cases hxt : x ∈ t.span
  · exact Or.inr ⟨t, r.join t, hl.regionAt?_eq_some_iff.mpr ⟨by simp, hxt⟩, hjoin x (Or.inr hxt),
      rfl, fun _ _ => Iff.rfl⟩
  · have hxj : x ∉ (r.join t).span := by
      rw [mem_span_join hl, not_or]
      exact ⟨hxr, hxt⟩
    left
    simp [regionAt?, hxr, hxt, hxj]

theorem Valid.joinLeading {epoch : Epoch} {regions : List Region} (hl : Valid ⟨epoch, regions⟩) :
    Valid ⟨epoch, Layout.joinLeading regions⟩ ∧
      Alike ⟨epoch, regions⟩ ⟨epoch, Layout.joinLeading regions⟩ := by
  fun_induction Layout.joinLeading regions with
  | case1 => exact ⟨hl, .refl _⟩
  | case2 r => exact ⟨hl, .refl _⟩
  | case3 r t rest hlike ih =>
    obtain ⟨hvalid, halike⟩ := ih hl.join
    exact ⟨hvalid, (hl.alike_join hlike).trans halike⟩
  | case4 r t rest _ => exact ⟨hl, .refl _⟩

theorem Valid.collapse {l : Layout} (hl : l.Valid) : l.collapse.Valid := hl.joinLeading.1

theorem Valid.alike_collapse {l : Layout} (hl : l.Valid) : Alike l l.collapse := hl.joinLeading.2

end Layout

end LogRepair
