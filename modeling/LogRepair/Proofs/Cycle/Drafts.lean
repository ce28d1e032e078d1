import LogRepair.Cycle.Run
import LogRepair.Proofs.Layout.Requirement
import LogRepair.Proofs.Tracked.Lifecycle
import LogRepair.Proofs.Tracked.Reconcile

/-!
# Drafts and what the copying makes of them

* `Tracks`: a list of valid segments in ascending order that contains every address of a layout
  above a trim mark, and no segment that ends at or below it.
* `Coordinator.draft_eq`: a draft is never refused, and tracks the layout that it is drawn up from.
* `Target.close_eq`: closing a target is never refused and gives a valid segment over its span.
* `Coordinator.getElem?_replaceCandidates`, `Coordinator.Renewed`: what stands at each place of the
  list once the segments that needed a copy are replaced.
* `Coordinator.tracks_replaceCandidates`: the draft still tracks the layout after the copying.
-/

namespace LogRepair

open TrackedSegment

/-! ## Lists that track a layout -/

theorem TrackedSegment.ascending_iff_spans {tracked : List TrackedSegment} :
    Ascending tracked ↔ (tracked.map (·.toSpan)).Pairwise fun a b => a.last < b.first := by
  rw [List.pairwise_map]
  rfl

/-- The list tracks every address of the layout above the trim mark. -/
structure Tracks (l : Layout) (trimMark : Address) (tracked : List TrackedSegment) : Prop where
  ascending : Ascending tracked
  valid : ∀ s ∈ tracked, s.Valid
  exists_mem : ∀ x, l.Covers x → trimMark < x → ∃ s ∈ tracked, x ∈ s.toSpan
  trimMark_lt : ∀ s ∈ tracked, trimMark < s.last

/-- Only the spans matter, as long as the segments are valid. -/
theorem Tracks.of_spans {l : Layout} {trimMark : Address} {tracked tracked' : List TrackedSegment}
    (h : Tracks l trimMark tracked) (hspans : tracked'.map (·.toSpan) = tracked.map (·.toSpan))
    (hvalid : ∀ s ∈ tracked', s.Valid) : Tracks l trimMark tracked' := by
  have hmem : ∀ span, (∃ s ∈ tracked', s.toSpan = span) ↔ ∃ s ∈ tracked, s.toSpan = span := by
    intro span
    rw [← List.mem_map, ← List.mem_map, hspans]
  refine ⟨?_, hvalid, fun x hcovers htrim => ?_, fun s hs => ?_⟩
  · rw [ascending_iff_spans, hspans]
    exact ascending_iff_spans.mp h.ascending
  · obtain ⟨s, hs, hx⟩ := h.exists_mem x hcovers htrim
    obtain ⟨t, ht, hst⟩ := (hmem s.toSpan).mpr ⟨s, hs, rfl⟩
    exact ⟨t, ht, hst ▸ hx⟩
  · obtain ⟨t, ht, hst⟩ := (hmem s.toSpan).mp ⟨s, hs, rfl⟩
    have hlt := h.trimMark_lt t ht
    rwa [hst] at hlt

/-- Only the coverage of the layout matters. -/
theorem Tracks.of_covers {l m : Layout} {trimMark : Address} {tracked : List TrackedSegment}
    (h : Tracks l trimMark tracked) (hcovers : ∀ x, m.Covers x ↔ l.Covers x) :
    Tracks m trimMark tracked :=
  ⟨h.ascending, h.valid, fun x hx => h.exists_mem x ((hcovers x).mp hx), h.trimMark_lt⟩

/-- At most one tracked segment contains an address, and exactly one above the trim mark. -/
theorem Tracks.exists_unique {l : Layout} {trimMark : Address} {tracked : List TrackedSegment}
    (h : Tracks l trimMark tracked) {x : Address} (hcovers : l.Covers x) (htrim : trimMark < x) :
    ∃ s ∈ tracked, x ∈ s.toSpan ∧ ∀ t ∈ tracked, x ∈ t.toSpan → t = s := by
  obtain ⟨s, hs, hx⟩ := h.exists_mem x hcovers htrim
  exact ⟨s, hs, hx, fun t ht hxt => h.ascending.eq_of_mem ht hs hxt hx⟩

namespace Coordinator

/-! ## Drawing up a draft -/

theorem reconcilable {tracked required : List TrackedSegment} {l : Layout} {node : NodeId}
    {trimMark : Address} (hl : l.Valid) (hascending : Ascending tracked)
    (hvalid : ∀ s ∈ tracked, s.Valid) (h : l.requirement node trimMark = .ok required) :
    Reconcilable tracked required :=
  Layout.reconcilable_of_requirement hl h hascending.apart hvalid

/-- The draft of a cycle that begins with a layout and a trim mark. -/
def draftOf (l : Layout) (trimMark : Address) (tracked : List TrackedSegment) : Draft where
  layout := l
  trimMark := trimMark
  tracked := tracked
  report := { epoch := l.epoch, trimMark, candidates := tracked.countP (·.isDue) }

theorem draft_eq {c : Coordinator} {l : Layout} {trimMark : Address}
    {required : List TrackedSegment} (hl : l.Valid) (hascending : Ascending c.tracked)
    (hvalid : ∀ s ∈ c.tracked, s.Valid) (h : l.requirement c.node trimMark = .ok required) :
    c.draft l trimMark = .ok (draftOf l trimMark
      ((reconciled c.tracked required).filter fun s => trimMark < s.last)) := by
  have hmerged := reconcile_eq (reconcilable hl hascending hvalid h)
  simp only [draft, h, hmerged, bind, Except.bind, pure, Except.pure]
  rfl

theorem tracks_draft {tracked required : List TrackedSegment} {l : Layout} {node : NodeId}
    {trimMark : Address} (hl : l.Valid) (hascending : Ascending tracked)
    (hvalid : ∀ s ∈ tracked, s.Valid) (h : l.requirement node trimMark = .ok required) :
    Tracks l trimMark ((reconciled tracked required).filter fun s => trimMark < s.last) := by
  have hrec := reconcilable hl hascending hvalid h
  refine ⟨(ascending_reconciled hrec).filter _, fun s hs => ?_, fun x hcovers htrim => ?_,
    fun s hs => ?_⟩
  · exact valid_of_mem_reconciled hrec (List.mem_filter.mp hs).1
  · obtain ⟨f, hf, hxf⟩ := Layout.exists_mem_requirement hl h hcovers htrim
    obtain ⟨s, hs, hxs⟩ := exists_mem_reconciled hrec hf hxf
    refine ⟨s, List.mem_filter.mpr ⟨hs, ?_⟩, hxs⟩
    exact decide_eq_true (Int64.lt_of_lt_of_le htrim hxs.2)
  · simpa using (List.mem_filter.mp hs).2

end Coordinator

/-! ## Closing a target -/

/-- A closed target is a valid segment over the same span. It is complete only if no chunk was
dropped and none failed. -/
theorem Target.close_eq {t : Target} (hvalid : t.segment.Valid) (hdue : t.segment.isDue = true) :
    ∃ progress, t.close = .ok (⟨t.segment.toSpan, progress⟩, t.tally.cancelled) ∧
      Valid ⟨t.segment.toSpan, progress⟩ ∧
      (progress.state.isComplete = true → t.tally.cancelled = false ∧ t.tally.failure = none) := by
  unfold close
  dsimp only
  generalize t.tally.total = total
  cases hcancelled : t.tally.cancelled with
  | true =>
    refine ⟨{ t.segment.progress with copied := t.segment.creditFor total }, ?_,
      valid_interrupted hvalid total, fun hcomplete => ?_⟩
    · rw [if_pos rfl, interrupted_eq hvalid]
      rfl
    · have hincomplete : t.segment.progress.state.isComplete = false :=
        isComplete_eq_false_of_isDue hdue
      rw [hincomplete] at hcomplete
      cases hcomplete
  | false =>
    refine ⟨t.segment.outcome total t.tally.failure, ?_,
      valid_outcome hvalid total t.tally.failure, fun hcomplete => ⟨rfl, ?_⟩⟩
    · rw [if_neg Bool.false_ne_true, attempted_eq hvalid hdue]
      rfl
    · cases hfailure : t.tally.failure with
      | none => rfl
      | some f =>
        rw [hfailure, isComplete_outcome_some] at hcomplete
        cases hcomplete

/-- What a closed target has copied, and the states in which it can be. -/
theorem Target.of_close {t : Target} {u : TrackedSegment} {short : Bool}
    (h : t.close = .ok (u, short)) :
    u.toSpan = t.segment.toSpan ∧ u.progress.copied = t.segment.creditFor t.tally.total ∧
      (u.state = t.segment.state ∨
        t.segment.isDue = true ∧ (u.state = .failed ∨ u.state = .transferred)) := by
  unfold close at h
  dsimp only at h
  split at h
  · cases hcut : t.segment.interrupted t.tally.total with
    | error e =>
      rw [hcut] at h
      cases h
    | ok v =>
      rw [hcut] at h
      cases h
      rw [eq_of_withProgress hcut]
      exact ⟨rfl, rfl, Or.inl rfl⟩
  · cases hdone : t.segment.attempted t.tally.total t.tally.failure with
    | error e =>
      rw [hdone] at h
      cases h
    | ok v =>
      rw [hdone] at h
      cases h
      unfold attempted at hdone
      split at hdone
      · next hdue =>
        rw [eq_of_withProgress hdone]
        obtain ⟨hcopied, hstate⟩ := outcome_cases t.segment t.tally.total t.tally.failure
        exact ⟨rfl, hcopied, Or.inr ⟨hdue, hstate⟩⟩
      · cases hdone

/-! ## Taking the results into the draft -/

namespace Coordinator

theorem replaceCandidates_nil (tracked : List TrackedSegment) :
    replaceCandidates tracked [] = tracked := by
  cases tracked <;> rfl

theorem replaceCandidates_cons_of_isDue {s : TrackedSegment} (hdue : s.isDue = true)
    (rest : List TrackedSegment) (u : TrackedSegment) (updates : List TrackedSegment) :
    replaceCandidates (s :: rest) (u :: updates) = u :: replaceCandidates rest updates :=
  if_pos hdue

theorem replaceCandidates_cons_of_not_isDue {s : TrackedSegment} (hdue : ¬s.isDue = true)
    (rest updates : List TrackedSegment) :
    replaceCandidates (s :: rest) updates = s :: replaceCandidates rest updates := by
  cases updates with
  | nil => rw [replaceCandidates_nil, replaceCandidates_nil]
  | cons u updates => exact if_neg hdue

theorem length_replaceCandidates (tracked updates : List TrackedSegment) :
    (replaceCandidates tracked updates).length = tracked.length := by
  induction tracked generalizing updates with
  | nil => cases updates <;> rfl
  | cons s rest ih =>
    cases updates with
    | nil => rfl
    | cons u updates =>
      unfold replaceCandidates
      split
      · exact congrArg Nat.succ (ih updates)
      · exact congrArg Nat.succ (ih (u :: updates))

section

variable {tracked updates : List TrackedSegment}

/-- A segment that needs a copy stands, among all those that do, after those before it. -/
theorem getElem?_filter_isDue {k : Nat} {s : TrackedSegment} (hs : tracked[k]? = some s)
    (hdue : s.isDue = true) :
    (tracked.filter (·.isDue))[(tracked.take k).countP (·.isDue)]? = some s := by
  induction tracked generalizing k with
  | nil => cases hs
  | cons t rest ih =>
    cases k with
    | zero =>
      cases hs
      rw [List.filter_cons_of_pos hdue]
      rfl
    | succ k =>
      rw [List.getElem?_cons_succ] at hs
      rw [List.take_succ_cons]
      by_cases ht : t.isDue = true
      · rw [List.filter_cons_of_pos ht, List.countP_cons_of_pos ht, List.getElem?_cons_succ]
        exact ih hs
      · rw [List.filter_cons_of_neg ht, List.countP_cons_of_neg ht]
        exact ih hs

/-- The updates take the places of the segments that need a copy, in their order, and every other
segment stays in its place. -/
theorem getElem?_replaceCandidates (h : updates.length = (tracked.filter (·.isDue)).length)
    (k : Nat) :
    (replaceCandidates tracked updates)[k]? = tracked[k]?.bind fun s =>
      if s.isDue then updates[(tracked.take k).countP (·.isDue)]? else some s := by
  induction tracked generalizing updates k with
  | nil =>
    obtain rfl := List.length_eq_zero_iff.mp h
    rfl
  | cons s rest ih =>
    by_cases hdue : s.isDue = true
    · rw [List.filter_cons_of_pos hdue, List.length_cons] at h
      obtain ⟨u, updates, rfl⟩ := List.exists_cons_of_length_eq_add_one h
      rw [replaceCandidates_cons_of_isDue hdue]
      cases k with
      | zero => exact (if_pos hdue).symm
      | succ k =>
        rw [List.getElem?_cons_succ, List.getElem?_cons_succ, List.take_succ_cons,
          List.countP_cons_of_pos hdue]
        exact ih (Nat.succ.inj h) k
    · rw [List.filter_cons_of_neg hdue] at h
      rw [replaceCandidates_cons_of_not_isDue hdue]
      cases k with
      | zero => exact (if_neg hdue).symm
      | succ k =>
        rw [List.getElem?_cons_succ, List.getElem?_cons_succ, List.take_succ_cons,
          List.countP_cons_of_neg hdue]
        exact ih h k

end

/-- Each segment that needed a copy has given its place to one that is related to it, and to the
number of those before it. Every other segment has stayed in its place. -/
structure Renewed (R : Nat → TrackedSegment → TrackedSegment → Prop)
    (tracked tracked' : List TrackedSegment) : Prop where
  length_eq : tracked'.length = tracked.length
  kept : ∀ (k : Nat) (s : TrackedSegment), tracked[k]? = some s → s.isDue = false →
    tracked'[k]? = some s
  renewed : ∀ (k : Nat) (s : TrackedSegment), tracked[k]? = some s → s.isDue = true →
    ∃ u, tracked'[k]? = some u ∧ R ((tracked.take k).countP (·.isDue)) s u

section

variable {R : Nat → TrackedSegment → TrackedSegment → Prop}
  {tracked tracked' updates : List TrackedSegment}

theorem renewed_replaceCandidates (hlength : updates.length = (tracked.filter (·.isDue)).length)
    (h : ∀ (i : Nat) (s u : TrackedSegment), (tracked.filter (·.isDue))[i]? = some s →
      updates[i]? = some u → R i s u) :
    Renewed R tracked (replaceCandidates tracked updates) := by
  have hplace := getElem?_replaceCandidates hlength
  refine ⟨length_replaceCandidates tracked updates, fun k s hs hdue => ?_, fun k s hs hdue => ?_⟩
  · rw [hplace, hs, Option.bind_some, hdue, if_neg Bool.false_ne_true]
  · have hamong := getElem?_filter_isDue hs hdue
    have hlt := hlength ▸ (List.getElem?_eq_some_iff.mp hamong).1
    refine ⟨_, ?_, h _ s _ hamong (List.getElem?_eq_getElem hlt)⟩
    rw [hplace, hs, Option.bind_some, if_pos hdue, List.getElem?_eq_getElem hlt]

theorem renewed_fates {fates : List (TrackedSegment × Bool)}
    (hlength : fates.length = (tracked.filter (·.isDue)).length)
    (h : ∀ (i : Nat) (s : TrackedSegment) (fate : TrackedSegment × Bool),
      (tracked.filter (·.isDue))[i]? = some s → fates[i]? = some fate → R i s fate.1) :
    Renewed R tracked (replaceCandidates tracked (fates.map (·.1))) := by
  refine renewed_replaceCandidates ((List.length_map _).trans hlength) fun i s u hs hu => ?_
  rw [List.getElem?_map] at hu
  obtain ⟨fate, hfate, rfl⟩ := Option.map_eq_some_iff.mp hu
  exact h i s fate hs hfate

/-- What relates each segment to its replacement, and every other segment to itself, relates the
list to the new one place by place. -/
theorem Renewed.forall₂ {S : TrackedSegment → TrackedSegment → Prop}
    (h : Renewed R tracked tracked') (hrefl : ∀ s, S s s) (himp : ∀ i s u, R i s u → S s u) :
    List.Forall₂ S tracked tracked' := by
  refine List.forall₂_iff_get.mpr ⟨h.length_eq.symm, fun k hk hk' => ?_⟩
  have hs : tracked[k]? = some tracked[k] := List.getElem?_eq_getElem hk
  have hs' : tracked'[k]? = some tracked'[k] := List.getElem?_eq_getElem hk'
  cases hdue : tracked[k].isDue with
  | false =>
    have heq := Option.some.inj (hs'.symm.trans (h.kept k _ hs hdue))
    rw [List.get_eq_getElem, List.get_eq_getElem, heq]
    exact hrefl _
  | true =>
    obtain ⟨u, hu, hrelated⟩ := h.renewed k _ hs hdue
    obtain rfl := Option.some.inj (hs'.symm.trans hu)
    exact himp _ _ _ hrelated

end

theorem mem_replaceCandidates {tracked updates : List TrackedSegment} {s : TrackedSegment}
    (h : s ∈ replaceCandidates tracked updates) : s ∈ updates ∨ s ∈ tracked := by
  induction tracked generalizing updates with
  | nil => cases updates <;> cases h
  | cons t rest ih =>
    cases updates with
    | nil => exact Or.inr h
    | cons u updates =>
      unfold replaceCandidates at h
      split at h
      · rcases List.mem_cons.mp h with rfl | h
        · exact Or.inl List.mem_cons_self
        · exact (ih h).imp (List.mem_cons_of_mem _) (List.mem_cons_of_mem _)
      · rcases List.mem_cons.mp h with rfl | h
        · exact Or.inr List.mem_cons_self
        · exact (ih h).imp id (List.mem_cons_of_mem _)

/-- The targets of the workload are the segments of the draft that need a copy, in their order. -/
def Serves (d : Draft) (w : Workload) : Prop :=
  w.targets.map (·.segment) = d.tracked.filter (·.isDue)

theorem Serves.valid_isDue {d : Draft} {w : Workload} (h : Serves d w)
    (hvalid : ∀ s ∈ d.tracked, s.isDue = true → s.Valid) {t : Target} (ht : t ∈ w.targets) :
    t.segment.Valid ∧ t.segment.isDue = true := by
  have hmem : t.segment ∈ d.tracked.filter (·.isDue) := by
    rw [← h]
    exact List.mem_map_of_mem ht
  obtain ⟨hmem, hdue⟩ := List.mem_filter.mp hmem
  exact ⟨hvalid _ hmem hdue, hdue⟩

/-- Closing a workload is never refused. -/
theorem Serves.close {d : Draft} {w : Workload} (h : Serves d w)
    (hvalid : ∀ s ∈ d.tracked, s.isDue = true → s.Valid) : ∃ fates, w.close = .ok fates :=
  exists_mapM_eq_ok fun t ht => by
    obtain ⟨htvalid, hdue⟩ := h.valid_isDue hvalid ht
    obtain ⟨progress, heq, -⟩ := Target.close_eq htvalid hdue
    exact ⟨_, heq⟩

/-- What a workload is closed with comes from targets for segments that needed a copy. -/
theorem Serves.exists_target {d : Draft} {w : Workload} (h : Serves d w)
    {fates : List (TrackedSegment × Bool)} (hclose : w.close = .ok fates) {s : TrackedSegment}
    (hs : s ∈ fates.map (·.1)) :
    ∃ t ∈ w.targets, t.segment ∈ d.tracked ∧ t.segment.isDue = true ∧
      ∃ short, t.close = .ok (s, short) := by
  obtain ⟨fate, hfate, rfl⟩ := List.mem_map.mp hs
  obtain ⟨t, ht, heq⟩ := exists_of_mem_mapM hclose hfate
  have hmem : t.segment ∈ d.tracked.filter (·.isDue) := by
    rw [← h]
    exact List.mem_map_of_mem ht
  obtain ⟨hmem, hdue⟩ := List.mem_filter.mp hmem
  exact ⟨t, ht, hmem, hdue, fate.2, heq⟩

/-- Each closed target is a valid segment, complete only if no chunk was dropped and none failed. -/
theorem Serves.mem_close {d : Draft} {w : Workload} (h : Serves d w)
    (hvalid : ∀ s ∈ d.tracked, s.Valid) {fates : List (TrackedSegment × Bool)}
    (hclose : w.close = .ok fates) {s : TrackedSegment} (hs : s ∈ fates.map (·.1)) :
    s.Valid ∧ ∃ t ∈ w.targets, s.toSpan = t.segment.toSpan ∧
      (s.isComplete = true → t.tally.cancelled = false ∧ t.tally.failure = none) := by
  obtain ⟨t, ht, hmem, hdue, short, heq⟩ := h.exists_target hclose hs
  obtain ⟨progress, heq', hprogress, hcomplete⟩ := Target.close_eq (hvalid _ hmem) hdue
  rw [heq'] at heq
  cases heq
  exact ⟨hprogress, t, ht, rfl, hcomplete⟩

/-- A workload is closed target by target. -/
theorem Serves.exists_closed {d : Draft} {w : Workload} (h : Serves d w)
    {fates : List (TrackedSegment × Bool)} (hclose : w.close = .ok fates) :
    fates.length = (d.tracked.filter (·.isDue)).length ∧
      ∀ (i : Nat) (s : TrackedSegment) (fate : TrackedSegment × Bool),
        (d.tracked.filter (·.isDue))[i]? = some s → fates[i]? = some fate →
          ∃ t, w.targets[i]? = some t ∧ t.segment = s ∧ t.close = .ok fate := by
  have hfates : w.targets.map Target.close = fates.map .ok := mapM_eq_ok_iff.mp hclose
  rw [← h]
  refine ⟨?_, fun i s fate hs hfate => ?_⟩
  · have hlength := congrArg List.length hfates
    rw [List.length_map, List.length_map] at hlength
    rw [List.length_map, hlength]
  · rw [List.getElem?_map] at hs
    obtain ⟨t, ht, rfl⟩ := Option.map_eq_some_iff.mp hs
    have hi := congrArg (·[i]?) hfates
    simp only [List.getElem?_map, ht, hfate, Option.map_some, Option.some.injEq] at hi
    exact ⟨t, ht, rfl, hi⟩

/-- At each place of a segment that needed a copy stands what its target was closed with. -/
theorem Serves.renewed {d : Draft} {w : Workload} (h : Serves d w)
    {fates : List (TrackedSegment × Bool)} (hclose : w.close = .ok fates) :
    Renewed (fun i s u => ∃ t short, w.targets[i]? = some t ∧ t.segment = s ∧
      t.close = .ok (u, short)) d.tracked (replaceCandidates d.tracked (fates.map (·.1))) := by
  obtain ⟨hlength, hclosed⟩ := h.exists_closed hclose
  refine renewed_fates hlength fun i s fate hs hfate => ?_
  obtain ⟨t, ht, hsegment, heq⟩ := hclosed i s fate hs hfate
  exact ⟨t, fate.2, ht, hsegment, heq⟩

theorem tracks_replaceCandidates {d : Draft} {w : Workload} {l : Layout} {trimMark : Address}
    (h : Serves d w) (htracks : Tracks l trimMark d.tracked)
    {fates : List (TrackedSegment × Bool)} (hclose : w.close = .ok fates) :
    Tracks l trimMark (replaceCandidates d.tracked (fates.map (·.1))) := by
  refine htracks.of_spans ?_ fun s hs => ?_
  · symm
    rw [← List.forall₂_eq_eq_eq, List.forall₂_map_left_iff, List.forall₂_map_right_iff]
    refine (h.renewed hclose).forall₂ (fun s => rfl) fun i s u hclosed => ?_
    obtain ⟨t, short, -, rfl, heq⟩ := hclosed
    exact (Target.of_close heq).1.symm
  · rcases mem_replaceCandidates hs with hs | hs
    · exact (h.mem_close htracks.valid hclose hs).1
    · exact htracks.valid s hs

/-! ## Marking segments in the draft -/

/-- A segment of a list that could be marked is as before, or was complete and is restored now. -/
theorem eq_or_eq_of_markListed {ready tracked : List TrackedSegment}
    (hvalid : ∀ s ∈ tracked, s.Valid) {s s' : TrackedSegment} (hs : s ∈ tracked)
    (heq : (if Listing.isReady ready s then s.listed else .ok s) = .ok s') :
    s.isComplete = true ∧ s' = s.asRestored ∨ s' = s := by
  split at heq
  · next hready =>
    have hcomplete : s.isComplete = true := by
      simp only [Listing.isReady, Bool.and_eq_true, decide_eq_true_eq] at hready
      rw [isComplete, hready.1]
      rfl
    rw [listed_eq (hvalid s hs).fault_eq_none hcomplete] at heq
    cases heq
    exact Or.inl ⟨hcomplete, rfl⟩
  · cases heq
    exact Or.inr rfl

theorem tracks_markListed {l : Layout} {trimMark : Address}
    {ready tracked tracked' : List TrackedSegment} (htracks : Tracks l trimMark tracked)
    (h : Listing.markListed ready tracked = .ok tracked') : Tracks l trimMark tracked' := by
  refine htracks.of_spans (map_eq_map_of_mapM h fun s hs s' heq => ?_) fun s' hs' => ?_
  · rcases eq_or_eq_of_markListed htracks.valid hs heq with ⟨-, rfl⟩ | rfl <;> rfl
  · obtain ⟨s, hs, heq⟩ := exists_of_mem_mapM h hs'
    rcases eq_or_eq_of_markListed htracks.valid hs heq with ⟨-, rfl⟩ | rfl
    · exact valid_asRestored (htracks.valid s hs).fault_eq_none
    · exact htracks.valid s' hs

/-- Marking completes no segment. -/
theorem exists_complete_of_markListed {ready tracked tracked' : List TrackedSegment}
    (hvalid : ∀ s ∈ tracked, s.Valid) (h : Listing.markListed ready tracked = .ok tracked')
    {s' : TrackedSegment} (hs' : s' ∈ tracked') (hcomplete : s'.isComplete = true) :
    ∃ s ∈ tracked, s.isComplete = true ∧ s'.toSpan = s.toSpan := by
  obtain ⟨s, hs, heq⟩ := exists_of_mem_mapM h hs'
  rcases eq_or_eq_of_markListed hvalid hs heq with ⟨hbefore, rfl⟩ | rfl
  · exact ⟨s, hs, hbefore, rfl⟩
  · exact ⟨s', hs, hcomplete, rfl⟩

end Coordinator

end LogRepair
