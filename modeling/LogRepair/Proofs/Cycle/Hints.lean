import LogRepair.Proofs.Cycle.Counted
import LogRepair.Proofs.Layout.Hints

/-!
# From where a cycle copies

A batch names the servers to read from. They were gathered for a whole tracked segment, from every
region that it overlaps, so they are right only because no segment reaches into two regions of the
layout that the cycle read.

* `Coordinator.Parted`: no tracked segment has addresses of two regions above the trim mark.
* `Workload.Hinted`: the workers of a workload name the servers of their targets.
* `Coordinator.hints_of_transfer`: a batch lies in one region and names the servers of that region.
-/

namespace LogRepair

open TrackedSegment

namespace Workload

/-- Every target has the servers that the layout suggests for its segment, and so has every batch
that a worker waits to have copied. -/
structure Hinted (node : NodeId) (layout : Layout) (w : Workload) : Prop where
  targets : ∀ (i : Nat) (t : Target), w.targets[i]? = some t →
    t.sources = layout.sources node t.segment.toSpan
  asked : ∀ p ∈ w.others, ∀ batch, p.2.query = .transfer batch →
    ∃ s, (w.targets.map (·.segment))[p.2.target]? = some s ∧
      batch = batch.withSources (layout.sources node s.toSpan)

section

variable {node : NodeId} {layout : Layout} {w w' : Workload}

/-- Only the segments and servers of the targets matter, and who waits for what. -/
theorem Hinted.of_others (h : w.Hinted node layout)
    (htargets : ∀ (i : Nat) (t : Target), w'.targets[i]? = some t →
      t.sources = layout.sources node t.segment.toSpan)
    (hsegments : w'.targets.map (·.segment) = w.targets.map (·.segment))
    (hothers : ∀ p ∈ w'.others, p ∈ w.others) : w'.Hinted node layout := by
  refine ⟨htargets, fun p hp => ?_⟩
  rw [hsegments]
  exact h.asked p (hothers p hp)

theorem hinted_ofTargets {targets : List Target} {workers : Nat}
    (h : ∀ t ∈ targets, t.sources = layout.sources node t.segment.toSpan) :
    (ofTargets targets workers).Hinted node layout :=
  ⟨fun _ t ht => h t (List.mem_of_getElem? ht), fun _ hp => absurd hp List.not_mem_nil⟩

/-- A worker that asks which addresses are held names no servers yet. -/
theorem Hinted.park_checking (h : w.Hinted node layout) (i : Nat) (span : Span) :
    (w.park (.checking i span)).Hinted node layout := by
  refine ⟨h.targets, fun p hp batch hbatch => ?_⟩
  rcases List.mem_append.mp hp with hp | hp
  · exact h.asked p hp batch hbatch
  · rw [List.mem_singleton.mp hp] at hbatch
    cases hbatch

theorem Hinted.take (h : w.Hinted node layout) {i : Nat} {span : Span}
    (htake : w.take = (w', some (i, span))) :
    (w'.park (.checking i span)).Hinted node layout := by
  obtain ⟨⟨t, cursor, ht, -, -, hi⟩, hrest⟩ := forall_take_some
    (P := fun _ t => t.sources = layout.sources node t.segment.toSpan) (fun ht _ _ => ht)
    h.targets htake
  have htaken : w'.Hinted node layout := by
    refine h.of_others (fun j u hu => ?_) (segments_take htake) fun p hp => ?_
    · by_cases hji : j = i
      · rw [hji, hi] at hu
        cases hu
        exact ht
      · exact hrest j u hji hu
    · rwa [← others_take htake]
  exact htaken.park_checking i span

theorem Hinted.retire (h : w.Hinted node layout) (htake : w.take = (w', none)) :
    w'.retire.Hinted node layout := by
  have htargets := forall_take_none
    (P := fun _ t => t.sources = layout.sources node t.segment.toSpan) (fun ht _ _ => ht)
    h.targets htake
  refine h.of_others (fun i u hu => ?_) ((segments_retire w').trans (segments_take htake))
    fun p hp => ?_
  · obtain ⟨t, ht, rfl⟩ := exists_of_retire hu
    exact htargets i t ht
  · rwa [← others_take htake]

theorem Hinted.note {errand : Errand} (h : (w.park errand).Hinted node layout) (i : Nat)
    (o : ChunkOutcome) : (w.note i o).Hinted node layout := by
  refine h.of_others (fun j u hu => ?_) (segments_note w i o) fun p => List.mem_append_left _
  obtain ⟨t, ht, rfl⟩ := exists_of_note hu
  have hsources := h.targets j t ht
  split
  · exact hsources
  · exact hsources

theorem Hinted.leave {errand : Errand} (h : (w.park errand).Hinted node layout) (crashed : Bool) :
    Hinted node layout { w with crashed } :=
  h.of_others h.targets rfl fun _ => List.mem_append_left _

/-- What is missing of a chunk is asked for with the servers of its target. -/
theorem Hinted.proceed {i : Nat} {span : Span} {t : Target}
    (h : (w.park (.checking i span)).Hinted node layout) (ht : w.targets[i]? = some t)
    (present : UInt64) (batch : Batch) :
    (w.park (.copying i present (batch.withSources (w.sources i)))).Hinted node layout := by
  have hsources : w.sources i = layout.sources node t.segment.toSpan := by
    rw [sources, ht]
    exact h.targets i t ht
  refine ⟨h.targets, fun p hp batch' hbatch => ?_⟩
  rcases List.mem_append.mp hp with hp | hp
  · exact h.asked p (List.mem_append_left _ hp) batch' hbatch
  · rw [List.mem_singleton.mp hp] at hbatch ⊢
    cases hbatch
    refine ⟨t.segment, ?_, ?_⟩
    · show (w.targets.map (·.segment))[i]? = some t.segment
      rw [List.getElem?_map, ht, Option.map_some]
    · rw [hsources]
      rfl

theorem Hinted.recancel (h : w.Hinted node layout) (f : Target → Bool) :
    (w.recancel f).Hinted node layout := by
  refine h.of_others (fun i u hu => ?_) (segments_recancel f w) fun _ => id
  obtain ⟨t, ht, rfl⟩ := exists_of_recancel hu
  exact h.targets i t ht

end

end Workload

namespace Coordinator

/-! ## Segments that reach into one region only -/

/-- The segment lies in a region of the layout, or has no address of the layout above the trim
mark. -/
def Parted (d : Draft) : Prop :=
  ∀ s ∈ d.tracked, (∃ r ∈ d.layout.regions, ∀ x ∈ s.toSpan, x ∈ r.span) ∨
    ∀ x ∈ s.toSpan, d.layout.Covers x → x ≤ d.trimMark

theorem parted_draft {c : Coordinator} {layout : Layout} {trimMark : Address} {d : Draft}
    (hl : layout.Valid) (hlist : Tidy c.tracked) (h : c.draft layout trimMark = .ok d) :
    Parted d := by
  obtain ⟨required, hrequired, hrec, rfl⟩ := hlist.of_draft hl h
  intro s hs
  rcases mem_reconciled.mp (List.mem_filter.mp hs).1 with ⟨f, hf, hsf⟩ | ⟨o, ho, rfl⟩
  · -- A piece stays within the region that asks for it.
    obtain ⟨r, hr, -, rfl⟩ := (Layout.mem_requirement_iff hl hrequired).mp hf
    refine Or.inl ⟨r, hr, fun x hx => ?_⟩
    have hxf := hrec.mem_of_mem_overlaid hf hsf hx
    exact ((Layout.mem_neededSpan_iff (hl.region hr)).mp hxf).1
  · refine Or.inr fun x hx hcovers => ?_
    rw [toSpan_carriedOn] at hx
    exact Layout.le_trimMark_of_clear hl hrequired (mem_unclaimed.mp ho).2 hx hcovers

/-! ## The points of a cycle -/

/-- What is known at each point of the servers that its workers name. -/
def Hinted (node : NodeId) : Point → Prop
  | .drafted d => Parted d
  | .working d w | .lost d w | .passed d w => Parted d ∧ w.Hinted node d.layout
  | .waiting (.checking d w i span) =>
    Parted d ∧ (w.park (.checking i span)).Hinted node d.layout
  | .waiting (.copying d w i present batch) =>
    Parted d ∧ (w.park (.copying i present batch)).Hinted node d.layout
  | .waiting .readingLayout | .waiting (.readingTrimMark _) => True
  | .waiting (.proposing _ _ _ _ _) | .waiting (.refreshing _ _) => True
  | .copied _ | .unlisted _ | .listing _ _ _ | .settled _ _ _ | .through _ | .over _ _ => True

section

variable {moments : List Moment} {c : Coordinator}

theorem hinted_stage {node : NodeId} {d : Draft} {w : Workload} {errand : Errand} :
    Hinted node (.waiting (errand.stage d w)) ↔
      Parted d ∧ (w.park errand).Hinted node d.layout := by
  cases errand <;> exact Iff.rfl

theorem Hinted.step {p q : Point} (hp : Hinted c.node p) (h : Step c p q) : Hinted c.node q := by
  cases h with
  | skip | close | stop | goOn | rest | list | exhaust | defer | reflect | propose | skipMarks
  | mark | conclude | crash | refuse => trivial
  | copy h =>
    refine ⟨hp, Workload.hinted_ofTargets fun t ht => ?_⟩
    obtain ⟨s, -, rfl⟩ := List.mem_map.mp ht
    rfl
  | take h => exact ⟨hp.1, hp.2.take h⟩
  | retire h => exact ⟨hp.1, hp.2.retire h⟩
  | replace => exact ⟨hp.1, hp.2.of_others hp.2.targets rfl fun _ => id⟩
  | miss => exact hp
  | turn h =>
    exact hinted_stage.mpr ⟨hp.1, hp.2.of_others hp.2.targets rfl fun _ =>
      (Workload.perm_others_turn h).mem_iff.mp⟩

theorem Hinted.entry {s : Stage} {answer : s.query.Reply} {p : Point} (hlist : Tidy c.tracked)
    (hrep : Represented moments (.waiting s)) (hconfined : Confined moments (.waiting s))
    (hp : Hinted c.node (.waiting s)) (h : Entry c s answer p) : Hinted c.node p := by
  cases h with
  | layoutUnread | layoutRead | trimMarkUnread | undrafted => trivial
  | accepted | stale | refused | refreshed | unrefreshed => trivial
  | drafted h => exact parted_draft hrep.2 hlist h
  | unreadable | held | written | uncopied => exact ⟨hp.1, hp.2.note _ _⟩
  | inverted | crashed => exact ⟨hp.1, hp.2.leave true⟩
  | @missing d w i span present hmissing =>
    -- A chunk with a missing address is one of a target.
    have hsome : (Batch.missing span present).addresses ≠ [] :=
      List.isEmpty_eq_false_iff.mp hmissing
    obtain ⟨x, hx⟩ := List.exists_mem_of_ne_nil _ hsome
    have hxspan := Span.mem_of_mem_toList (List.mem_filter.mp hx).1
    obtain ⟨o, ho, -⟩ := hconfined.2.asked _ (List.mem_append_right _ List.mem_cons_self) x hxspan
    have htarget : (w.targets.map (·.segment))[i]? = some o := ho
    rw [List.getElem?_map] at htarget
    obtain ⟨t, ht, -⟩ := Option.map_eq_some_iff.mp htarget
    exact ⟨hp.1, hp.2.proceed ht _ _⟩

theorem Hinted.shift {node : NodeId} {s : Stage} {p : Point} (hp : Hinted node (.waiting s))
    (h : Shift s p) : Hinted node p := by
  cases h with
  | recancel f hs =>
    cases s with
    | checking | copying =>
      cases hs
      exact ⟨hp.1, hp.2.recancel f⟩
    | _ => cases hs
  | switch h =>
    obtain ⟨hparted, hhinted⟩ := hinted_stage.mp hp
    exact hinted_stage.mpr ⟨hparted, hhinted.of_others hhinted.targets rfl fun _ =>
      (Workload.perm_others_switch h).mem_iff.mp⟩
  | hire h =>
    obtain ⟨hparted, hhinted⟩ := hinted_stage.mp hp
    exact ⟨hparted, hhinted.of_others hhinted.targets rfl fun _ => id⟩
  | abandon h hcrashed => trivial

end

/-! ## Along a run -/

theorem invariant_hinted (node : NodeId) (settings : Settings) :
    Invariant { node, settings }
      (fun moments p => (Represented moments p ∧ Confined moments p) ∧ Hinted node p)
      fun _ => Tidy := by
  have base := invariant_confined (b := { node, settings }) rfl tidy_nil
  exact {
    list_start := base.list_start
    stage_start := fun s hs => by cases hs
    list_cons := fun h => h
    begun := fun hidle hlist => ⟨base.begun hidle hlist, trivial⟩
    aside := fun hm hp => ⟨base.aside hm hp.1, hp.2⟩
    shift := fun hp h => ⟨base.shift hp.1 h, hp.2.shift h⟩
    entry := fun task hlawful hlist hp h => by
      have hnode := task.node_eq
      subst hnode
      exact ⟨base.entry task hlawful hlist hp.1 h, hp.2.entry hlist hp.1.1 hp.1.2 h⟩
    step := fun task hp h => by
      have hnode := task.node_eq
      subst hnode
      exact ⟨base.step task hp.1 h, hp.2.step h⟩
    publish := fun hp => base.publish hp.1 }

/-- Whatever the history: a batch that a cycle asks to have copied, with an address of its layout
above its trim mark, lies in one region of that layout. It names the other servers of this region,
each once, in the order in which the region names them, or no servers if there are none. -/
theorem hints_of_transfer {node : NodeId} {settings : Settings} {moments : List Moment}
    {c : Coordinator} (hrun : Run { node, settings } moments c) (hlawful : Lawful moments)
    {s : Stage} (hs : c.stage = some s) {batch : Batch} (hquery : s.query = .transfer batch) :
    ∃ layout trimMark, layoutRead moments = some layout ∧ trimMarkRead moments = some trimMark ∧
      ∀ x ∈ batch.addresses, layout.Covers x → trimMark < x →
        ∃ r ∈ layout.regions, (∀ y ∈ batch.addresses, y ∈ r.span) ∧
          ∃ hints, r.Hints node hints ∧
            batch.sources = if hints.isEmpty then none else some hints := by
  obtain ⟨⟨hrep, hconfined⟩, hhinted⟩ := ((invariant_hinted node settings).run hrun hlawful).2 s hs
  obtain ⟨d, w, errand, rfl⟩ : ∃ d w errand, s = Errand.stage d w errand := by
    cases s with
    | copying d w i present batch => exact ⟨d, w, .copying i present batch, rfl⟩
    | _ => cases hquery
  rw [errand.query_stage] at hquery
  obtain ⟨hfaithful, hserves⟩ := represented_stage.mp hrep
  obtain ⟨-, hconfined⟩ := confined_stage.mp hconfined
  obtain ⟨hparted, hhinted⟩ := hinted_stage.mp hhinted
  have hwaits : (w.worker, errand) ∈ (w.park errand).others :=
    List.mem_append_right _ List.mem_cons_self
  obtain ⟨o, ho, hbatch⟩ := hhinted.asked _ hwaits batch hquery
  have hwithin : ∀ y ∈ batch.addresses, y ∈ o.toSpan := by
    intro y hy
    have htouches : errand.query.Touches y := by rwa [hquery]
    obtain ⟨o', ho', hyo⟩ := hconfined.asked _ hwaits y htouches
    rw [ho] at ho'
    cases ho'
    exact hyo
  have hmem : o ∈ d.tracked.filter (·.isDue) := by
    rw [← hserves]
    exact List.mem_of_getElem? ho
  have htracked : o ∈ d.tracked := (List.mem_filter.mp hmem).1
  have hle := (hfaithful.tracks.valid o htracked).first_le_last
  refine ⟨d.layout, d.trimMark, hfaithful.layout_eq, hfaithful.trimMark_eq, ?_⟩
  intro x hx hcovers htrim
  rcases hparted o htracked with ⟨r, hr, hinside⟩ | hbelow
  · refine ⟨r, hr, fun y hy => hinside y (hwithin y hy), d.layout.sources node o.toSpan,
      Layout.hints_sources hfaithful.valid_layout hr hle hinside node, ?_⟩
    exact congrArg Batch.sources hbatch
  · exact absurd htrim (Int64.not_lt.mpr (hbelow x (hwithin x hx) hcovers))

theorem hints_of_restBatch :
    ∃ c, Run { node := "n", settings := {} } partMoments.tail c ∧
      c.stage = some (.copying halfDraft halfWork 0 2 restBatch) ∧
      layoutRead partMoments.tail = some halfHeld ∧
      ∃ r ∈ halfHeld.regions, (∀ y ∈ restBatch.addresses, y ∈ r.span) ∧
        ∃ hints, r.Hints "n" hints ∧
          restBatch.sources = if hints.isEmpty then none else some hints := by
  obtain ⟨metrics, hrun⟩ := run_partMoments
  obtain ⟨hrun, -⟩ := hrun.before
  have hlawful : Lawful partMoments.tail := fun m hm =>
    lawful_partMoments m (List.mem_of_mem_tail hm)
  obtain ⟨layout, trimMark, hlayout, htrim, hhints⟩ := hints_of_transfer hrun hlawful rfl rfl
  cases hlayout
  cases htrim
  exact ⟨partlyCopying, hrun, rfl, rfl, hhints 3 (by decide) ⟨_, List.mem_cons_self,
    by decide +kernel⟩ (by decide +kernel)⟩

end Coordinator

end LogRepair
