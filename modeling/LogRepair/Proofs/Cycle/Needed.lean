import LogRepair.Cycle.Visits
import LogRepair.Proofs.Layout.Requirement
import Mathlib.Data.List.Forall2

/-!
# Work that a newer layout no longer needs

A coordinator that learns of a newer layout while it copies cuts short what the layout does not
require any more. The decision compares bounds of ranges; what it comes to is told by addresses.

* `Layout.any_overlaps_iff`: a segment overlaps a range that is still to be copied exactly if it
  has an address that the layout needs.
* `Workload.cancelUnneeded_again`: what was cut short once is not cut short anew.
* `Coordinator.adaptTo_eq`: what the announcement does to the targets that are in flight.
* `Coordinator.cuts_only_unneeded`: exactly those without a needed address are cut short.
-/

namespace LogRepair

open TrackedSegment

/-- The address lies above the trim mark, in a region of the layout that has a stripe without the
node. -/
def Layout.Needs (l : Layout) (node : NodeId) (trimMark x : Address) : Prop :=
  trimMark < x ∧ ∃ r ∈ l.regions, x ∈ r.span ∧ ∃ stripe ∈ r.stripes, node ∉ stripe.servers

/-- The target `u` is `t`, cut short if `t` was, or if the layout needs none of its addresses. -/
structure Target.AdaptedTo (l : Layout) (node : NodeId) (trimMark : Address)
    (t u : Target) : Prop where
  eq : u = { t with cancelled := u.cancelled }
  cancelled_iff : u.cancelled = true ↔
    t.cancelled = true ∨ ¬∃ x ∈ t.segment.toSpan, l.Needs node trimMark x

/-! ## Needed addresses -/

namespace Layout

/-- A segment that is not empty overlaps a required range that is not held exactly if one of its
addresses is needed. -/
theorem any_overlaps_iff {l : Layout} (hl : l.Valid) {node : NodeId} {trimMark : Address}
    {required : List TrackedSegment} (h : l.requirement node trimMark = .ok required)
    {s : TrackedSegment} (hs : s.first ≤ s.last) :
    (required.filter (·.isDue)).any (·.overlaps s) = true ↔
      ∃ x ∈ s.toSpan, l.Needs node trimMark x := by
  simp only [List.any_eq_true, List.mem_filter, mem_requirement_iff hl h]
  constructor
  · rintro ⟨-, ⟨⟨r, hr, hne, rfl⟩, hdue⟩, hoverlap⟩
    obtain ⟨x, hxr, hxs⟩ := Span.exists_mem_of_overlaps hne hs hoverlap
    obtain ⟨hx, htrim⟩ := (mem_neededSpan_iff (hl.region hr)).mp hxr
    exact ⟨x, hxs, htrim, r, hr, hx, (not_heldBy_iff (hl.region hr)).mp (isDue_need.mp hdue)⟩
  · rintro ⟨x, hxs, htrim, r, hr, hx, hlacks⟩
    have hxr := (mem_neededSpan_iff (hl.region hr)).mpr ⟨hx, htrim⟩
    have hne := Int64.le_trans hxr.1 hxr.2
    have hheld := (not_heldBy_iff (hl.region hr)).mpr hlacks
    exact ⟨need node trimMark r, ⟨⟨r, hr, hne, rfl⟩, isDue_need.mpr hheld⟩,
      Span.overlaps_of_mem hxr hxs⟩

end Layout

/-! ## Targets that are cut short -/

namespace Workload

/-- The target, cut short unless a needed segment overlaps it. -/
def cutUnneeded (needed : List TrackedSegment) (t : Target) : Target :=
  if isUnneeded needed t then { t with cancelled := true } else t

theorem cutUnneeded_eq (needed : List TrackedSegment) (t : Target) :
    cutUnneeded needed t = { t with cancelled := (cutUnneeded needed t).cancelled } := by
  unfold cutUnneeded
  split <;> rfl

theorem cancelled_cutUnneeded (needed : List TrackedSegment) (t : Target) :
    (cutUnneeded needed t).cancelled = (t.cancelled || !needed.any (·.overlaps t.segment)) := by
  unfold cutUnneeded isUnneeded
  cases ht : t.cancelled <;> cases hany : needed.any (·.overlaps t.segment) <;> simp [ht]

/-- The targets that are counted are those that become cut short. -/
theorem isUnneeded_eq (needed : List TrackedSegment) (t : Target) :
    isUnneeded needed t = (!t.cancelled && (cutUnneeded needed t).cancelled) := by
  rw [cancelled_cutUnneeded, isUnneeded]
  cases t.cancelled <;> simp

theorem isUnneeded_cutUnneeded (needed : List TrackedSegment) (t : Target) :
    isUnneeded needed (cutUnneeded needed t) = false := by
  have hsegment : (cutUnneeded needed t).segment = t.segment := by
    rw [cutUnneeded_eq]
  rw [isUnneeded, cancelled_cutUnneeded, hsegment]
  cases needed.any (·.overlaps t.segment) <;> simp

theorem cancelUnneeded_again (w : Workload) (needed : List TrackedSegment) :
    (w.cancelUnneeded needed).1.cancelUnneeded needed = ((w.cancelUnneeded needed).1, 0) := by
  have hkept : ∀ t ∈ (w.cancelUnneeded needed).1.targets, isUnneeded needed t = false := by
    intro t ht
    obtain ⟨u, -, rfl⟩ := List.mem_map.mp ht
    exact isUnneeded_cutUnneeded needed u
  generalize (w.cancelUnneeded needed).1 = w' at hkept
  have htargets : w'.targets.map (cutUnneeded needed) = w'.targets := by
    refine (List.map_congr_left fun t ht => ?_).trans (List.map_id _)
    rw [cutUnneeded, hkept t ht]
    rfl
  have hcount : w'.targets.countP (isUnneeded needed) = 0 :=
    List.countP_eq_zero.mpr fun t ht => by rw [hkept t ht]; exact Bool.false_ne_true
  have hcut : w'.cancelUnneeded needed =
    ({ w' with targets := w'.targets.map (cutUnneeded needed) },
      w'.targets.countP (isUnneeded needed)) := rfl
  rw [hcut, htargets, hcount]

end Workload

namespace Stage

theorem workload?_withWorkload {s : Stage} {w : Workload} (h : s.workload? = some w)
    (w' : Workload) : (s.withWorkload w').workload? = some w' := by
  cases s with
  | checking | copying => rfl
  | _ => cases h

theorem withWorkload_withWorkload (s : Stage) (w w' : Workload) :
    (s.withWorkload w).withWorkload w' = s.withWorkload w' := by
  cases s <;> rfl

end Stage

namespace Coordinator

variable {c : Coordinator} {layout : Layout} {required : List TrackedSegment}

theorem adaptTo_idle (h : layout.requirement c.node c.trimMark = .ok required)
    (hidle : c.workload? = none) : c.adaptTo layout = (c, .ok 0) := by
  unfold adaptTo
  rw [h]
  dsimp only
  split
  · rfl
  · next stage hstage =>
    rw [workload?, hstage, Option.bind_some] at hidle
    rw [hidle]

theorem adaptTo_copying (h : layout.requirement c.node c.trimMark = .ok required) {s : Stage}
    {w : Workload} (hstage : c.stage = some s) (hwork : s.workload? = some w) :
    c.adaptTo layout =
      ({ c with stage := some (s.withWorkload (w.cancelUnneeded (required.filter (·.isDue))).1) },
        .ok (w.cancelUnneeded (required.filter (·.isDue))).2) := by
  unfold adaptTo
  rw [h]
  dsimp only
  rw [hstage]
  dsimp only
  rw [hwork]

theorem inFlight_of_stage {s : Stage} {w : Workload} (hstage : c.stage = some s)
    (hwork : s.workload? = some w) : c.inFlight = w.targets := by
  rw [inFlight, workload?, hstage, Option.bind_some, hwork, Option.map_some, Option.getD_some]

/-- The same layout again finds nothing to cut short. -/
theorem adaptTo_again (h : layout.requirement c.node c.trimMark = .ok required) {s : Stage}
    {w : Workload} (hwork : s.workload? = some w) :
    ({ c with stage := some (s.withWorkload
        (w.cancelUnneeded (required.filter (·.isDue))).1) } : Coordinator).adaptTo layout =
      ({ c with stage := some (s.withWorkload (w.cancelUnneeded (required.filter (·.isDue))).1) },
        .ok 0) := by
  have hagain := w.cancelUnneeded_again (required.filter (·.isDue))
  generalize (w.cancelUnneeded (required.filter (·.isDue))).1 = w' at hagain ⊢
  have hcopying := adaptTo_copying (c := { c with stage := some (s.withWorkload w') }) h rfl
    (Stage.workload?_withWorkload hwork w')
  rwa [hagain, Stage.withWorkload_withWorkload] at hcopying

theorem adaptedTo_cutUnneeded (hl : layout.Valid)
    (h : layout.requirement c.node c.trimMark = .ok required) {t : Target}
    (ht : t.segment.first ≤ t.segment.last) :
    t.AdaptedTo layout c.node c.trimMark
      (Workload.cutUnneeded (required.filter (·.isDue)) t) := by
  refine ⟨Workload.cutUnneeded_eq _ t, ?_⟩
  rw [Workload.cancelled_cutUnneeded, ← Layout.any_overlaps_iff hl h ht]
  simp only [Bool.or_eq_true, Bool.not_eq_true', Bool.not_eq_true]

/-- A newer layout that is valid is never refused. A target in flight whose bounds are in order is
cut short exactly if it was, or if the layout needs none of its addresses above the trim mark that
was read last; it is not changed else. The targets that become cut short are counted. Nothing but
the stage of the coordinator changes, and the same layout again changes nothing. -/
theorem cuts_only_unneeded (hl : layout.Valid)
    (hbounds : ∀ t ∈ c.inFlight, t.segment.first ≤ t.segment.last) :
    ∃ (c' : Coordinator) (count : Nat), c.adaptTo layout = (c', .ok count) ∧
      c' = { c with stage := c'.stage } ∧ c'.tracked = c.tracked ∧
      List.Forall₂ (Target.AdaptedTo layout c.node c.trimMark) c.inFlight c'.inFlight ∧
      count = (c.inFlight.zip c'.inFlight).countP (fun p => !p.1.cancelled && p.2.cancelled) ∧
      c'.adaptTo layout = (c', .ok 0) := by
  have hrequired := Layout.requirement_eq hl c.node c.trimMark
  cases hwork : c.workload? with
  | none =>
    have hidle := adaptTo_idle hrequired hwork
    refine ⟨c, 0, hidle, rfl, rfl, ?_, ?_, hidle⟩
    · rw [inFlight, hwork]
      exact .nil
    · rw [inFlight, hwork]
      rfl
  | some w =>
    obtain ⟨s, hstage, hs⟩ := Option.bind_eq_some_iff.mp hwork
    have hbefore := inFlight_of_stage hstage hs
    rw [hbefore] at hbounds ⊢
    refine ⟨_, _, adaptTo_copying hrequired hstage hs, rfl, rfl, ?_, ?_,
      adaptTo_again hrequired hs⟩
    · rw [inFlight_of_stage rfl (Stage.workload?_withWorkload hs _), Workload.cancelUnneeded,
        List.forall₂_map_right_iff, List.forall₂_same]
      exact fun t ht => adaptedTo_cutUnneeded hl hrequired (hbounds t ht)
    · rw [inFlight_of_stage rfl (Stage.workload?_withWorkload hs _)]
      simp only [Workload.cancelUnneeded]
      rw [← List.map_prod_left_eq_zip, List.countP_map]
      exact List.countP_congr fun t _ => by rw [Workload.isUnneeded_eq]; rfl

/-- Two targets are in flight, and the next layout lists the node for the addresses of the first. -/
theorem cuts_only_unneeded_of_listed :
    let l : Layout := ⟨5, [⟨0, 5, [⟨["a", "n"]⟩]⟩, ⟨5, 9, [⟨["a"]⟩]⟩]⟩
    let listed : Target := ⟨⟨⟨0, 4⟩, .notTransferred 0⟩, ["a"], ⟨some 4, 4, 4⟩, false, []⟩
    let lacking : Target := ⟨⟨⟨5, 8⟩, .notTransferred 0⟩, ["a"], ⟨some 5, 8, 4⟩, false, []⟩
    let c : Coordinator :=
      { node := "n", settings := {}, trimMark := 2,
        stage := some (.checking default ⟨[listed, lacking], [1, 0], 0, 0, [], false⟩ 0 ⟨0, 3⟩) }
    l.Valid ∧ (∀ t ∈ c.inFlight, t.segment.first ≤ t.segment.last) ∧
      ∃ (c' : Coordinator) (count : Nat), c.adaptTo l = (c', .ok count) ∧
        count = ([listed, lacking].zip c'.inFlight).countP
          (fun p => !p.1.cancelled && p.2.cancelled) ∧
        List.Forall₂ (Target.AdaptedTo l "n" 2) [listed, lacking] c'.inFlight := by
  intro l listed lacking c
  have hl : l.Valid := by decide +kernel
  have hbounds : ∀ t ∈ c.inFlight, t.segment.first ≤ t.segment.last := by decide +kernel
  obtain ⟨c', count, hadapt, -, -, htargets, hcount, -⟩ := cuts_only_unneeded hl hbounds
  exact ⟨hl, hbounds, c', count, hadapt, hcount, htargets⟩

end Coordinator

end LogRepair
