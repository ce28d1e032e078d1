import LogRepair.Proofs.Layout.Regions
import Mathlib.Data.List.Basic
import Mathlib.Data.List.Induction

/-!
# The servers to copy from

The servers that a layout suggests for a span are gathered from every region that overlaps it. A
span inside one region has that region's servers alone.

* `Layout.firstAppearances_append_singleton`: the elements of a list that grows at its end.
* `Region.Hints`: the other servers of a region, each once, in the order in which it names them.
* `Layout.hints_sources`: what the layout suggests for a span inside one region.
-/

namespace LogRepair

namespace Layout

/-! ## Elements at their first places -/

theorem firstAppearances_append_singleton (nodes : List NodeId) (n : NodeId) :
    firstAppearances (nodes ++ [n]) =
      if n ∈ firstAppearances nodes then firstAppearances nodes
      else firstAppearances nodes ++ [n] := by
  simp only [firstAppearances, List.foldl_append, List.foldl_cons, List.foldl_nil,
    List.contains_iff_mem]

theorem mem_firstAppearances {nodes : List NodeId} {n : NodeId} :
    n ∈ firstAppearances nodes ↔ n ∈ nodes := by
  induction nodes using List.reverseRecOn with
  | nil => rfl
  | append_singleton nodes m ih =>
    rw [firstAppearances_append_singleton, List.mem_append, List.mem_singleton]
    split
    · next hm =>
      rw [ih, iff_self_or]
      rintro rfl
      exact ih.mp hm
    · rw [List.mem_append, List.mem_singleton, ih]

/-- Elements come in the order of their first places. -/
theorem pairwise_firstAppearances (nodes : List NodeId) :
    (firstAppearances nodes).Pairwise fun a b => nodes.idxOf a < nodes.idxOf b := by
  induction nodes using List.reverseRecOn with
  | nil => exact .nil
  | append_singleton nodes m ih =>
    -- What was there keeps its place, and what is new comes last.
    have hkept : ∀ a ∈ nodes, (nodes ++ [m]).idxOf a = nodes.idxOf a := fun a ha =>
      List.idxOf_append_of_mem ha
    have hbefore : (firstAppearances nodes).Pairwise fun a b =>
        (nodes ++ [m]).idxOf a < (nodes ++ [m]).idxOf b := by
      refine ih.imp_of_mem fun {a b} ha hb hab => ?_
      rwa [hkept a (mem_firstAppearances.mp ha), hkept b (mem_firstAppearances.mp hb)]
    rw [firstAppearances_append_singleton]
    split
    · exact hbefore
    · next hm =>
      rw [mem_firstAppearances] at hm
      refine List.pairwise_append.mpr ⟨hbefore, List.pairwise_singleton _ _, fun a ha b hb => ?_⟩
      have ha' : a ∈ nodes := mem_firstAppearances.mp ha
      rw [List.mem_singleton.mp hb, hkept a ha', List.idxOf_append_of_notMem hm]
      exact Nat.lt_of_lt_of_le (List.idxOf_lt_length_of_mem ha') (Nat.le_add_right _ _)

/-- Elements that are left out do not change which come first. -/
theorem firstAppearances_filter (p : NodeId → Bool) (nodes : List NodeId) :
    firstAppearances (nodes.filter p) = (firstAppearances nodes).filter p := by
  induction nodes using List.reverseRecOn with
  | nil => rfl
  | append_singleton nodes m ih =>
    rw [List.filter_append, firstAppearances_append_singleton nodes m]
    by_cases hp : p m = true
    · have hlast : [m].filter p = [m] := List.filter_cons_of_pos hp
      have hmem : m ∈ (firstAppearances nodes).filter p ↔ m ∈ firstAppearances nodes := by
        rw [List.mem_filter, and_iff_left hp]
      rw [hlast, firstAppearances_append_singleton, ih]
      simp only [hmem]
      split
      · rfl
      · rw [List.filter_append, hlast]
    · have hlast : [m].filter p = [] := List.filter_cons_of_neg hp
      rw [hlast, List.append_nil, ih]
      split
      · rfl
      · rw [List.filter_append, hlast, List.append_nil]

end Layout

/-! ## The servers of one region -/

/-- The list has the servers of the region but for `node`, each once, in the order in which the
region first names them. -/
structure Region.Hints (node : NodeId) (r : Region) (hints : List NodeId) : Prop where
  mem_iff : ∀ n, n ∈ hints ↔ n ∈ r.servers ∧ n ≠ node
  nodup : hints.Nodup
  in_order : hints.Pairwise fun a b => r.servers.idxOf a < r.servers.idxOf b

namespace Layout

theorem hints_firstAppearances (node : NodeId) (r : Region) :
    r.Hints node (firstAppearances (r.servers.filter (· != node))) := by
  have hordered := (pairwise_firstAppearances r.servers).filter (· != node)
  rw [firstAppearances_filter]
  refine ⟨fun n => ?_, ?_, hordered⟩
  · rw [List.mem_filter, mem_firstAppearances, bne_iff_ne]
  · refine hordered.imp fun hlt heq => ?_
    rw [heq] at hlt
    exact Nat.lt_irrefl _ hlt

/-- No other region overlaps a span inside a region. -/
theorem Valid.overlapping_eq {l : Layout} (hl : l.Valid) {r : Region} (hr : r ∈ l.regions)
    {s : Span} (hs : s.first ≤ s.last) (hinside : ∀ x ∈ s, x ∈ r.span) :
    l.overlapping s = [r] := by
  have hfirst : s.first ∈ s := ⟨Int64.le_refl _, hs⟩
  have honly : ∀ t ∈ l.regions, t.span.overlaps s = (t == r) := by
    intro t ht
    have hne : t.span.first ≤ t.span.last := (hl.region ht).start_le_last
    rw [Bool.eq_iff_iff, Span.overlaps_iff_exists_mem hne hs, beq_iff_eq]
    constructor
    · rintro ⟨x, hxt, hxs⟩
      exact hl.eq_of_mem_span ht hr hxt (hinside x hxs)
    · rintro rfl
      exact ⟨s.first, hinside _ hfirst, hfirst⟩
  have hnodup : l.regions.Nodup := by
    refine hl.pairwise.imp_of_mem fun {t u} ht _ htu heq => ?_
    have hlt := (hl.region ht).start_lt_stop
    rw [← heq] at htu
    exact absurd htu (Int64.not_le.mpr hlt)
  rw [overlapping, List.filter_congr honly, List.filter_beq, hnodup.count, if_pos hr,
    List.replicate_one]

/-- For a span inside one region the layout suggests the other servers of that region. -/
theorem hints_sources {l : Layout} (hl : l.Valid) {r : Region} (hr : r ∈ l.regions) {s : Span}
    (hs : s.first ≤ s.last) (hinside : ∀ x ∈ s, x ∈ r.span) (node : NodeId) :
    r.Hints node (l.sources node s) := by
  have hsources : l.sources node s = firstAppearances (r.servers.filter (· != node)) := by
    rw [sources, hl.overlapping_eq hr hs hinside, List.flatMap_singleton]
  rw [hsources]
  exact hints_firstAppearances node r

end Layout

end LogRepair
