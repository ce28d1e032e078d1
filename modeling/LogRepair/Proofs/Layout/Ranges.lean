import LogRepair.Proofs.Layout.Requirement

/-!
# The ranges that a layout requires

What a layout requires of a node are the regions that reach above the trim mark, one segment each,
less the addresses at or below it. Only the first of these regions can lose any, so the segments
follow each other as the regions do.

* `Region.Asks`: what a region asks of a node.
* `Layout.Contiguous.filter_above`: the regions above a trim mark follow each other without gap.
* `Layout.requirement_exact`: what a layout requires, for any trim mark.
-/

namespace LogRepair

open TrackedSegment

/-- The segment `s` has the addresses of the region `r` above the trim mark. It is restored in full
length if the node is in every stripe of the region, and has nothing transferred otherwise. -/
structure Region.Asks (node : NodeId) (trimMark : Address) (r : Region) (s : TrackedSegment) :
    Prop where
  valid : s.Valid
  mem_iff : ∀ x, x ∈ s.toSpan ↔ x ∈ r.span ∧ trimMark < x
  restored : (∀ stripe ∈ r.stripes, node ∈ stripe.servers) → ∃ n : UInt64,
    s.progress = .restored n ∧ (n.toNat : Int) = s.last.toInt - s.first.toInt + 1
  missing : (∃ stripe ∈ r.stripes, node ∉ stripe.servers) → s.progress = .notTransferred 0

namespace Layout

section

variable {r : Region} {node : NodeId} {trimMark : Address}

/-! ## One region -/

/-- A region matters if its last address is above the trim mark. -/
theorem neededSpan_first_le_iff (hr : r.Valid) :
    (neededSpan trimMark r).first ≤ (neededSpan trimMark r).last ↔ trimMark < r.last := by
  have hlast : r.last ∈ neededSpan trimMark r ↔ r.last ∈ r.span ∧ trimMark < r.last :=
    mem_neededSpan_iff hr
  have hspan : r.last ∈ r.span := ⟨hr.start_le_last, Int64.le_refl _⟩
  rw [and_iff_right hspan] at hlast
  rw [← hlast, Span.mem_iff]
  exact (and_iff_left (Int64.le_refl _)).symm

theorem asks_need (hr : r.Valid) (htrim : trimMark < r.last) :
    r.Asks node trimMark (need node trimMark r) := by
  have hvalid : (need node trimMark r).Valid :=
    valid_need hr ((neededSpan_first_le_iff hr).mpr htrim)
  refine ⟨hvalid, fun x => mem_neededSpan_iff hr, fun hall => ?_, fun hlacks => ?_⟩
  · have hheld : r.heldBy node = true := by
      rw [← Bool.not_eq_false, not_heldBy_iff hr]
      rintro ⟨stripe, hstripe, hlacks⟩
      exact hlacks (hall stripe hstripe)
    refine ⟨(neededSpan trimMark r).length, ?_, ?_⟩
    · rw [need, if_pos hheld]
    · exact Span.length_eq hvalid.first_nonneg hvalid.first_le_last
  · have hmissing : ¬r.heldBy node = true := Bool.eq_false_iff.mp ((not_heldBy_iff hr).mpr hlacks)
    rw [need, if_neg hmissing]

/-- What a region asks for begins with the region, unless the trim mark is in it. -/
theorem first_neededSpan (hr : r.Valid) (htrim : trimMark < r.start) :
    (neededSpan trimMark r).first = r.start := by
  have hbelow : r.start < Int64.maxValue :=
    Int64.lt_of_lt_of_le hr.start_lt_stop (Int64.le_maxValue _)
  have hfirst : firstAbove trimMark ≤ r.start :=
    (firstAbove_le_iff hbelow).mpr ⟨hr.start_nonneg, htrim⟩
  exact if_neg (Int64.not_lt.mpr hfirst)

/-! ## The regions above a trim mark -/

/-- The regions whose last address is above the trim mark. -/
def regionsAbove (trimMark : Address) (regions : List Region) : List Region :=
  regions.filter fun r => trimMark < r.last

theorem Contiguous.filter_above {regions : List Region} (hc : Contiguous regions)
    (hv : ∀ r ∈ regions, r.Valid) : Contiguous (regionsAbove trimMark regions) := by
  induction regions with
  | nil => trivial
  | cons r rest ih =>
    by_cases htrim : trimMark < r.last
    · -- All later regions end above this one.
      have hall : regionsAbove trimMark (r :: rest) = r :: rest := by
        refine List.filter_eq_self.mpr fun t ht => decide_eq_true ?_
        rcases List.mem_cons.mp ht with rfl | ht
        · exact htrim
        · have hafter := (List.pairwise_cons.mp (hc.pairwise hv)).1 t ht
          have hlast := (hv r List.mem_cons_self).last_lt_stop
          have hle := (hv t (List.mem_cons_of_mem _ ht)).start_le_last
          grind
      rw [hall]
      exact hc
    · have hdropped : regionsAbove trimMark (r :: rest) = regionsAbove trimMark rest :=
        List.filter_cons_of_neg (by simpa using htrim)
      rw [hdropped]
      exact ih hc.tail fun t ht => hv t (List.mem_cons_of_mem _ ht)

theorem requirement_eq_map {l : Layout} (hl : l.Valid) (node : NodeId) (trimMark : Address) :
    l.requirement node trimMark =
      .ok ((regionsAbove trimMark l.regions).map (need node trimMark)) := by
  have hsame : (l.regions.filter fun r =>
      (neededSpan trimMark r).first ≤ (neededSpan trimMark r).last) =
        regionsAbove trimMark l.regions :=
    List.filter_congr fun r hr => decide_eq_decide.mpr (neededSpan_first_le_iff (hl.region hr))
  rw [requirement_eq hl, hsame]

/-- Neighbours of the requirement touch, as their regions do. -/
theorem touches_of_requirement {l : Layout} (hl : l.Valid) {i : Nat} {s t : TrackedSegment}
    (hs : ((regionsAbove trimMark l.regions).map (need node trimMark))[i]? = some s)
    (ht : ((regionsAbove trimMark l.regions).map (need node trimMark))[i + 1]? = some t) :
    s.last + 1 = t.first := by
  rw [List.getElem?_map, Option.map_eq_some_iff] at hs ht
  obtain ⟨r, hr, rfl⟩ := hs
  obtain ⟨u, hu, rfl⟩ := ht
  obtain ⟨hrmem, htrim⟩ := List.mem_filter.mp (List.mem_of_getElem? hr)
  have hrvalid := hl.region hrmem
  have huvalid := hl.region (List.mem_filter.mp (List.mem_of_getElem? hu)).1
  have hstop : r.stop = u.start := (hl.contiguous.filter_above fun _ => hl.region).stop_eq hr hu
  have hbegin : trimMark < u.start := by
    have hlast := hrvalid.last_lt_stop
    rw [decide_eq_true_eq] at htrim
    rw [← hstop]
    exact Int64.lt_trans htrim hlast
  have hfirst := first_neededSpan huvalid hbegin
  show r.last + 1 = (neededSpan trimMark u).first
  rw [hfirst, ← hstop, Region.last]
  grind

end

/-- For every trim mark, positions and words below zero alike, the requirement of a valid layout is
never refused. It has one segment for each region whose last address is above the trim mark, in
their order, as the region asks for it. The segments are in ascending order, touch each other, and
contain exactly the addresses of the layout above the trim mark. -/
theorem requirement_exact {l : Layout} (hl : l.Valid) (node : NodeId) (trimMark : Address) :
    ∃ required, l.requirement node trimMark = .ok required ∧
      List.Forall₂ (Region.Asks node trimMark) (regionsAbove trimMark l.regions) required ∧
      Ascending required ∧
      (∀ i s t, required[i]? = some s → required[i + 1]? = some t → s.last + 1 = t.first) ∧
      ∀ x, (∃ s ∈ required, x ∈ s.toSpan) ↔ l.Covers x ∧ trimMark < x := by
  have hrequired := requirement_eq_map hl node trimMark
  refine ⟨_, hrequired, ?_, ascending_requirement hl hrequired,
    fun i s t => touches_of_requirement hl, fun x => ⟨?_, ?_⟩⟩
  · rw [List.forall₂_map_right_iff, List.forall₂_same]
    intro r hr
    obtain ⟨hmem, htrim⟩ := List.mem_filter.mp hr
    exact asks_need (hl.region hmem) (of_decide_eq_true htrim)
  · rintro ⟨s, hs, hx⟩
    exact covers_of_mem_requirement hl hrequired hs hx
  · rintro ⟨hcovers, htrim⟩
    exact exists_mem_requirement hl hrequired hcovers htrim

/-- The first region ends below the trim mark, which is inside the second. The node is in one of
the two stripes of the second region and in all those of the third. -/
theorem requirement_exact_inside_region :
    let second : Region := ⟨5, 9, [⟨["n", "a"]⟩, ⟨["b"]⟩]⟩
    let third : Region := ⟨9, 12, [⟨["b", "n"]⟩, ⟨["n"]⟩]⟩
    let l : Layout := ⟨4, [⟨2, 5, [⟨["n"]⟩]⟩, second, third]⟩
    let required : List TrackedSegment := [⟨⟨7, 8⟩, .notTransferred 0⟩, ⟨⟨9, 11⟩, .restored 3⟩]
    l.Valid ∧ regionsAbove 6 l.regions = [second, third] ∧ l.requirement "n" 6 = .ok required ∧
      List.Forall₂ (Region.Asks "n" 6) [second, third] required ∧ Ascending required ∧
      ∀ x, (∃ s ∈ required, x ∈ s.toSpan) ↔ l.Covers x ∧ 6 < x := by
  intro second third l required
  have hl : l.Valid := by decide +kernel
  have habove : regionsAbove 6 l.regions = [second, third] := by decide +kernel
  have hrequired : l.requirement "n" 6 = .ok required := by decide +kernel
  obtain ⟨required', hrequired', hasks, hascending, -, hcovers⟩ := requirement_exact hl "n" 6
  obtain rfl : required = required' := Except.ok.inj (hrequired.symm.trans hrequired')
  rw [habove] at hasks
  exact ⟨hl, habove, hrequired, hasks, hascending, hcovers⟩

end Layout

end LogRepair
