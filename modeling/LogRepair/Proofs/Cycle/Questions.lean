import LogRepair.Proofs.Cycle.Representation
import LogRepair.Proofs.Tracked.Pointwise

/-!
# What a cycle asks about

A cycle asks which addresses are held, and has others copied. Both are addresses of segments that
need a copy, for every batch size and whichever worker asks.

* `Workload.Confined`: the workers of a workload ask only about their targets.
* `Coordinator.above_trimMark_or_leftover`: what is asked about lies above the trim mark, unless it
  belongs to a segment of which the layout requires nothing any more.
* `Coordinator.leftover_below_trimMark`: such a segment is copied whole, also below the trim mark.
-/

namespace LogRepair

open TrackedSegment

/-- The question is about the address: whether it is held, or to have it copied. -/
def Query.Touches : Query → Address → Prop
  | .present span, x => x ∈ span
  | .transfer batch, x => x ∈ batch.addresses
  | .layout, _ | .trimMark, _ | .propose _, _ => False

/-- The question that a worker waits for. -/
def Errand.query : Errand → Query
  | .checking _ span => .present span
  | .copying _ _ batch => .transfer batch

theorem Errand.query_stage (errand : Errand) (d : Draft) (w : Workload) :
    (errand.stage d w).query = errand.query := by
  cases errand <;> rfl

/-- The target is handed out within its segment. -/
def Target.Confined (t : Target) : Prop :=
  0 ≤ t.segment.first ∧ t.cursor.Within t.segment.toSpan

/-! ## What taking a chunk keeps -/

namespace Workload

section

variable {P : Nat → Target → Prop} {w w' : Workload}

/-- Taking a chunk drops chunks of targets that are cut short, and moves the cursor of the target
that it is of, which is not. -/
theorem forall_takeFrom
    (hdrop : ∀ {i t}, P i t → t.cancelled = true → ∀ worker, P i (t.note worker .dropped))
    {targets : List Target} (h : ∀ i, ∀ t : Target, targets[i]? = some t → P i t) (worker : Nat)
    (queue : List Nat) :
    match takeFrom worker targets queue with
    | (targets', some (i, span, _)) =>
      (∃ t cursor, P i t ∧ t.cancelled = false ∧ t.cursor.next? = some (span, cursor) ∧
        targets'[i]? = some { t with cursor }) ∧
        ∀ j, ∀ t : Target, j ≠ i → targets'[j]? = some t → P j t
    | (targets', none) => ∀ i, ∀ t : Target, targets'[i]? = some t → P i t := by
  fun_induction takeFrom worker targets queue with
  | case1 => exact h
  | case2 targets i queue hnone ih => exact ih h
  | case3 targets i queue t ht hcancelled ih =>
    refine ih fun j u hu => ?_
    rw [List.getElem?_set] at hu
    split at hu
    · next hij =>
      split at hu
      · cases hu
        exact hij ▸ hdrop (h i t ht) hcancelled worker
      · cases hu
    · exact h j u hu
  | case4 targets i queue t ht hcancelled hnext ih => exact ih h
  | case5 targets i queue t ht hcancelled span cursor hnext =>
    refine ⟨⟨t, cursor, h i t ht, Bool.eq_false_iff.mpr hcancelled, hnext, ?_⟩, fun j u hj hu => ?_⟩
    · rw [List.getElem?_set_self (List.getElem?_eq_some_iff.mp ht).1]
    · rw [List.getElem?_set_ne (Ne.symm hj)] at hu
      exact h j u hu

theorem forall_take_some
    (hdrop : ∀ {i t}, P i t → t.cancelled = true → ∀ worker, P i (t.note worker .dropped))
    (h : ∀ i, ∀ t : Target, w.targets[i]? = some t → P i t) {i : Nat} {span : Span}
    (htake : w.take = (w', some (i, span))) :
    (∃ t cursor, P i t ∧ t.cancelled = false ∧ t.cursor.next? = some (span, cursor) ∧
      w'.targets[i]? = some { t with cursor }) ∧
      ∀ j, ∀ t : Target, j ≠ i → w'.targets[j]? = some t → P j t := by
  obtain ⟨queue, heq, -⟩ := take_eq_some htake
  have htaken := forall_takeFrom (P := P) hdrop h w.worker w.queue
  rwa [heq] at htaken

theorem forall_take_none
    (hdrop : ∀ {i t}, P i t → t.cancelled = true → ∀ worker, P i (t.note worker .dropped))
    (h : ∀ i, ∀ t : Target, w.targets[i]? = some t → P i t) (htake : w.take = (w', none)) :
    ∀ i, ∀ t : Target, w'.targets[i]? = some t → P i t := by
  have htaken := forall_takeFrom (P := P) hdrop h w.worker w.queue
  rwa [(take_eq_none htake).1] at htaken

end

/-! ## What a workload asks about stays within its targets -/

/-- Every target is handed out within its segment, and the workers that wait ask only about the
segments of their targets. -/
structure Confined (w : Workload) : Prop where
  targets : ∀ (i : Nat) (t : Target), w.targets[i]? = some t → t.Confined
  asked : ∀ p ∈ w.others, ∀ x, p.2.query.Touches x →
    ∃ s, (w.targets.map (·.segment))[p.2.target]? = some s ∧ x ∈ s.toSpan

section

variable {w w' : Workload}

/-- Only the segments and cursors of the targets matter, and who waits for what. -/
theorem Confined.of_others (h : w.Confined)
    (htargets : ∀ (i : Nat) (t : Target), w'.targets[i]? = some t → t.Confined)
    (hsegments : w'.targets.map (·.segment) = w.targets.map (·.segment))
    (hothers : ∀ p ∈ w'.others, p ∈ w.others) : w'.Confined := by
  refine ⟨htargets, fun p hp => ?_⟩
  rw [hsegments]
  exact h.asked p (hothers p hp)

theorem confined_ofTargets {targets : List Target} {workers : Nat}
    (h : ∀ t ∈ targets, t.Confined) : (ofTargets targets workers).Confined :=
  ⟨fun _ t ht => h t (List.mem_of_getElem? ht), fun _ hp => absurd hp List.not_mem_nil⟩

theorem Confined.take (h : w.Confined) {i : Nat} {span : Span}
    (htake : w.take = (w', some (i, span))) : (w'.park (.checking i span)).Confined := by
  have hsegments := segments_take htake
  have hothers := others_take htake
  obtain ⟨⟨t, cursor, ht, -, hnext, hi⟩, hrest⟩ :=
    forall_take_some (P := fun _ t => t.Confined) (fun ht _ _ => ht) h.targets htake
  obtain ⟨hrange, hwithin⟩ := ht.2.next ht.1 hnext
  refine ⟨fun j u hu => ?_, fun p hp x hx => ?_⟩
  · by_cases hji : j = i
    · have hu' : w'.targets[i]? = some u := hji ▸ hu
      rw [hi] at hu'
      cases hu'
      exact ⟨ht.1, hwithin⟩
    · exact hrest j u hji hu
  · rcases List.mem_append.mp hp with hp | hp
    · rw [hothers] at hp
      obtain ⟨s, hs, hxs⟩ := h.asked p hp x hx
      exact ⟨s, by rw [← hs, ← hsegments]; rfl, hxs⟩
    · rw [List.mem_singleton.mp hp] at hx ⊢
      refine ⟨t.segment, ?_, hrange x hx⟩
      show (w'.targets.map (·.segment))[i]? = some t.segment
      rw [List.getElem?_map, hi, Option.map_some]

theorem Confined.retire (h : w.Confined) (htake : w.take = (w', none)) : w'.retire.Confined := by
  have hsegments := segments_take htake
  have hothers := others_take htake
  have htargets := forall_take_none (P := fun _ t => t.Confined) (fun ht _ _ => ht) h.targets
    htake
  refine h.of_others (fun i u hu => ?_) ((segments_retire w').trans hsegments) fun p hp => ?_
  · obtain ⟨t, ht, rfl⟩ := exists_of_retire hu
    exact htargets i t ht
  · rwa [← hothers]

theorem Confined.note {errand : Errand} (h : (w.park errand).Confined) (i : Nat)
    (o : ChunkOutcome) : (w.note i o).Confined := by
  refine h.of_others (fun j u hu => ?_) (segments_note w i o) fun p => List.mem_append_left _
  obtain ⟨t, ht, rfl⟩ := exists_of_note hu
  have hconfined := h.targets j t ht
  split
  · exact hconfined
  · exact hconfined

theorem Confined.leave {errand : Errand} (h : (w.park errand).Confined) (crashed : Bool) :
    Confined { w with crashed } :=
  h.of_others h.targets rfl fun _ => List.mem_append_left _

/-- A worker may go on to a narrower errand for the same target. -/
theorem Confined.proceed {errand errand' : Errand} (h : (w.park errand).Confined)
    (htarget : errand'.target = errand.target)
    (hasked : ∀ x, errand'.query.Touches x → errand.query.Touches x) :
    (w.park errand').Confined := by
  refine ⟨h.targets, fun p hp x hx => ?_⟩
  rcases List.mem_append.mp hp with hp | hp
  · exact h.asked p (List.mem_append_left _ hp) x hx
  · rw [List.mem_singleton.mp hp] at hx ⊢
    have hlast := h.asked _ (List.mem_append_right _ List.mem_cons_self) x (hasked x hx)
    rwa [← htarget] at hlast

theorem Confined.recancel (h : w.Confined) (f : Target → Bool) : (w.recancel f).Confined := by
  refine h.of_others (fun i u hu => ?_) (segments_recancel f w) fun _ => id
  obtain ⟨t, ht, rfl⟩ := exists_of_recancel hu
  exact h.targets i t ht

/-- The worker at its turn asks only about a segment that is served. -/
theorem Confined.exists_segment {errand : Errand} (h : (w.park errand).Confined) {x : Address}
    (hx : errand.query.Touches x) : ∃ s ∈ w.targets.map (·.segment), x ∈ s.toSpan := by
  obtain ⟨s, hs, hxs⟩ := h.asked _ (List.mem_append_right _ List.mem_cons_self) x hx
  exact ⟨s, List.mem_of_getElem? hs, hxs⟩

end

end Workload

namespace Coordinator

/-! ## Segments that the layout requires nothing of any more -/

/-- The published list when the trim mark was read last. -/
def trackedRead (moments : List Moment) : Option (List TrackedSegment) :=
  moments.findSome? fun m =>
    match m.happening with
    | .reply (.readingTrimMark _) (.ok _) => some m.before.tracked
    | _ => none

/-- The segment needs a copy and ends above the trim mark, but what the layout has of it lies at or
below the trim mark. -/
structure Leftover (layout : Layout) (trimMark : Address) (s : TrackedSegment) : Prop where
  isDue : s.isDue = true
  trimMark_lt : trimMark < s.last
  le_trimMark : ∀ y ∈ s.toSpan, layout.Covers y → y ≤ trimMark

/-- What the draft has to copy lies above the trim mark, but for what is left over. -/
def Drawn (moments : List Moment) (d : Draft) : Prop :=
  ∃ tracked, trackedRead moments = some tracked ∧
    ∀ s ∈ d.tracked, s.isDue = true → ∀ x ∈ s.toSpan,
      d.trimMark < x ∨ ∃ o ∈ tracked, Leftover d.layout d.trimMark o ∧ x ∈ o.toSpan

theorem Drawn.cons {moments : List Moment} {d : Draft} (h : Drawn moments d) {m : Moment}
    (hread : trackedRead (m :: moments) = trackedRead moments) : Drawn (m :: moments) d := by
  obtain ⟨tracked, htracked, hdue⟩ := h
  exact ⟨tracked, hread.trans htracked, hdue⟩

theorem drawn_draft {c : Coordinator} {moments : List Moment} {layout : Layout}
    {trimMark : Address} {d : Draft} (hl : layout.Valid) (hlist : Tidy c.tracked)
    (h : c.draft layout trimMark = .ok d) :
    Drawn (⟨c, .reply (.readingTrimMark layout) (.ok trimMark)⟩ :: moments) d := by
  obtain ⟨required, hrequired, hrec, rfl⟩ := hlist.of_draft hl h
  refine ⟨c.tracked, rfl, fun s hs hdue x hx => ?_⟩
  obtain ⟨hmem, hlast⟩ := List.mem_filter.mp hs
  rw [decide_eq_true_eq] at hlast
  rcases mem_reconciled.mp hmem with ⟨f, hf, hsf⟩ | ⟨o, ho, rfl⟩
  · have hxf := hrec.mem_of_mem_overlaid hf hsf hx
    exact Or.inl (Layout.covers_of_mem_requirement hl hrequired hf hxf).2
  · obtain ⟨hold, hclear⟩ := mem_unclaimed.mp ho
    have hsame := carriedOn_eq_self_of_isDue hdue
    rw [hsame] at hx hlast hdue
    exact Or.inr ⟨o, hold, ⟨hdue, hlast, fun _ hy =>
      Layout.le_trimMark_of_clear hl hrequired hclear hy⟩, hx⟩

/-! ## The points of a cycle -/

/-- What is known at each point of the questions of its workers. -/
def Confined (moments : List Moment) : Point → Prop
  | .drafted d => Drawn moments d
  | .working d w | .lost d w | .passed d w => Drawn moments d ∧ w.Confined
  | .waiting (.checking d w i span) => Drawn moments d ∧ (w.park (.checking i span)).Confined
  | .waiting (.copying d w i present batch) =>
    Drawn moments d ∧ (w.park (.copying i present batch)).Confined
  | .waiting .readingLayout | .waiting (.readingTrimMark _) => True
  | .waiting (.proposing _ _ _ _ _) | .waiting (.refreshing _ _) => True
  | .copied _ | .unlisted _ | .listing _ _ _ | .settled _ _ _ | .through _ | .over _ _ => True

section

variable {moments : List Moment} {c : Coordinator}

theorem confined_stage {d : Draft} {w : Workload} {errand : Errand} :
    Confined moments (.waiting (errand.stage d w)) ↔
      Drawn moments d ∧ (w.park errand).Confined := by
  cases errand <;> exact Iff.rfl

theorem Confined.step {p q : Point} (hrep : Represented moments p) (hp : Confined moments p)
    (h : Step c p q) : Confined moments q := by
  cases h with
  | skip | close | stop | goOn | rest | list | exhaust | defer | reflect | propose | skipMarks
  | mark | conclude | crash | refuse => trivial
  | @copy d h =>
    refine ⟨hp, Workload.confined_ofTargets fun t ht => ?_⟩
    obtain ⟨s, hs, rfl⟩ := List.mem_map.mp ht
    refine ⟨((Faithful.tracks hrep).valid s (List.mem_filter.mp hs).1).first_nonneg, rfl, ?_⟩
    intro p hp
    cases hp
    exact Or.inl (Int64.le_refl _)
  | take h => exact ⟨hp.1, hp.2.take h⟩
  | retire h => exact ⟨hp.1, hp.2.retire h⟩
  | replace => exact ⟨hp.1, hp.2.of_others hp.2.targets rfl fun _ => id⟩
  | miss => exact hp
  | turn h =>
    exact confined_stage.mpr ⟨hp.1, hp.2.of_others hp.2.targets rfl fun _ =>
      (Workload.perm_others_turn h).mem_iff.mp⟩

theorem Confined.entry {s : Stage} {answer : s.query.Reply} {p : Point}
    (hlist : Tidy c.tracked) (hrep : Represented moments (.waiting s))
    (hp : Confined moments (.waiting s)) (h : Entry c s answer p) :
    Confined (⟨c, .reply s answer⟩ :: moments) p := by
  cases h with
  | layoutUnread | layoutRead | trimMarkUnread | undrafted => trivial
  | accepted | stale | refused | refreshed | unrefreshed => trivial
  | drafted h => exact drawn_draft hrep.2 hlist h
  | unreadable | held | written | uncopied => exact ⟨hp.1.cons rfl, hp.2.note _ _⟩
  | inverted | crashed => exact ⟨hp.1.cons rfl, hp.2.leave true⟩
  | missing hmissing =>
    exact ⟨hp.1.cons rfl, hp.2.proceed rfl fun x hx =>
      Span.mem_of_mem_toList (List.mem_filter.mp hx).1⟩

theorem Confined.aside {m : Moment} (hm : m.happening.IsAside) {s : Stage}
    (hp : Confined moments (.waiting s)) : Confined (m :: moments) (.waiting s) := by
  have hread : trackedRead (m :: moments) = trackedRead moments := by
    obtain ⟨before, happening⟩ := m
    cases happening with
    | reply s answer => exact absurd hm id
    | _ => rfl
  cases s with
  | checking | copying => exact ⟨hp.1.cons hread, hp.2⟩
  | _ => trivial

theorem Confined.shift {s : Stage} {p : Point} (hp : Confined moments (.waiting s))
    (h : Shift s p) : Confined moments p := by
  cases h with
  | recancel f hs =>
    cases s with
    | checking | copying =>
      cases hs
      exact ⟨hp.1, hp.2.recancel f⟩
    | _ => cases hs
  | switch h =>
    obtain ⟨hdrawn, hconfined⟩ := confined_stage.mp hp
    exact confined_stage.mpr ⟨hdrawn, hconfined.of_others hconfined.targets rfl fun _ =>
      (Workload.perm_others_switch h).mem_iff.mp⟩
  | hire h =>
    obtain ⟨hdrawn, hconfined⟩ := confined_stage.mp hp
    exact ⟨hdrawn, hconfined.of_others hconfined.targets rfl fun _ => id⟩
  | abandon h hcrashed => trivial

end

/-! ## Along a run -/

theorem invariant_confined {b : Coordinator} (hidle : b.stage = none) (htidy : Tidy b.tracked) :
    Invariant b (fun moments p => Represented moments p ∧ Confined moments p)
      fun _ => Tidy := by
  have base := invariant_represented_from hidle htidy
  exact {
    list_start := base.list_start
    stage_start := fun s hs => by
      rw [hidle] at hs
      cases hs
    list_cons := fun h => h
    begun := fun _ _ => ⟨trivial, trivial⟩
    aside := fun hm hp => ⟨base.aside hm hp.1, hp.2.aside hm⟩
    shift := fun hp h => ⟨base.shift hp.1 h, hp.2.shift h⟩
    entry := fun task hlawful hlist hp h =>
      ⟨base.entry task hlawful hlist hp.1 h, hp.2.entry hlist hp.1 h⟩
    step := fun task hp h => ⟨base.step task hp.1 h, hp.2.step hp.1 h⟩
    publish := fun hp => base.publish hp.1 }

/-- A question about an address comes from a cycle that has it in a segment that needs a copy. -/
theorem exists_due_of_touches {moments : List Moment} {s : Stage} {x : Address}
    (hrep : Represented moments (.waiting s)) (hp : Confined moments (.waiting s))
    (hx : s.query.Touches x) :
    ∃ d w errand, s = Errand.stage d w errand ∧ Faithful moments d ∧
      ∃ o ∈ d.tracked, o.isDue = true ∧ x ∈ o.toSpan := by
  obtain ⟨d, w, errand, rfl⟩ : ∃ d w errand, s = Errand.stage d w errand := by
    cases s with
    | checking d w i span => exact ⟨d, w, .checking i span, rfl⟩
    | copying d w i present batch => exact ⟨d, w, .copying i present batch, rfl⟩
    | _ => exact hx.elim
  obtain ⟨hfaithful, hserves⟩ := represented_stage.mp hrep
  rw [errand.query_stage] at hx
  obtain ⟨o, ho, hxo⟩ := (confined_stage.mp hp).2.exists_segment hx
  rw [hserves] at ho
  obtain ⟨hmem, hdue⟩ := List.mem_filter.mp ho
  exact ⟨d, w, errand, rfl, hfaithful, o, hmem, hdue, hxo⟩

/-- Whatever the history, the layouts, the trim marks and the batch size: an address that the open
question asks about or has copied lies above the trim mark that the cycle read, or else in a
segment that was tracked before, ends above the trim mark, and of which the layout has no address
above it. -/
theorem above_trimMark_or_leftover {node : NodeId} {settings : Settings} {moments : List Moment}
    {c : Coordinator} (hrun : Run { node, settings } moments c) (hlawful : Lawful moments)
    {s : Stage} (hs : c.stage = some s) {x : Address} (hx : s.query.Touches x) :
    ∃ layout trimMark tracked, layoutRead moments = some layout ∧
      trimMarkRead moments = some trimMark ∧ trackedRead moments = some tracked ∧
      (trimMark < x ∨ ∃ o ∈ tracked, Leftover layout trimMark o ∧ x ∈ o.toSpan) := by
  have inv := invariant_confined (b := { node, settings }) rfl tidy_nil
  obtain ⟨hrep, hconfined⟩ := (inv.run hrun hlawful).2 s hs
  obtain ⟨d, w, errand, rfl, hfaithful, o, ho, hdue, hxo⟩ :=
    exists_due_of_touches hrep hconfined hx
  obtain ⟨tracked, htracked, hdrawn⟩ := (confined_stage.mp hconfined).1
  exact ⟨d.layout, d.trimMark, tracked, hfaithful.layout_eq, hfaithful.trimMark_eq, htracked,
    hdrawn o ho hdue x hxo⟩

/-! ## A segment that is left over -/

/-- A later layout, of other addresses. -/
def movedLayout : Layout := ⟨5, [⟨9, 12, [⟨["a"]⟩]⟩]⟩

def movedRange : TrackedSegment := ⟨⟨9, 11⟩, .notTransferred 0⟩

theorem reconciled_movedRange :
    reconciled [failedHalf, heldHalf] [movedRange] = [failedHalf, heldHalf, movedRange] := by
  have htidy := tidy_halfFailed
  have hmoved : movedRange.Valid := ⟨by decide +kernel, by decide⟩
  have hrec : Reconcilable [failedHalf, heldHalf] [movedRange] :=
    ⟨htidy.ascending.apart, htidy.valid, List.pairwise_singleton _ _, by simpa using hmoved,
      by decide +kernel⟩
  have hnone : [failedHalf, heldHalf].filter (·.overlaps movedRange) = [] := by decide +kernel
  have hpieces : overlaid [failedHalf, heldHalf] movedRange = [movedRange] := by
    rw [overlaid, pieces, hnone, List.mergeSort_nil]
    rfl
  have hperm : (reconciled [failedHalf, heldHalf] [movedRange]).Perm
      [failedHalf, heldHalf, movedRange] := by
    refine (List.mergeSort_perm _ _).trans ?_
    rw [List.flatMap_cons, hpieces]
    decide +kernel
  exact (ascending_reconciled hrec).eq_of_perm (by unfold Ascending; decide +kernel)
    (fun s hs => (valid_of_mem_reconciled hrec hs).first_le_last) hperm

/-- The coordinator that asks for the trim mark of a later cycle. -/
def movedRead (metrics : Metrics) : Coordinator :=
  { halfFailed metrics with stage := some (.readingTrimMark movedLayout) }

def movedDraft : Draft := draftOf movedLayout 2 [failedHalf, heldHalf, movedRange]

/-- The workload once the chunk of the range that failed is handed out. -/
def movedWork : Workload :=
  ⟨[⟨failedHalf, [], ⟨some 5, 4, 10⟩, false, []⟩,
    ⟨movedRange, ["a"], ⟨some 9, 11, 10⟩, false, []⟩], [1], 3, 3, [], false⟩

theorem draft_movedRead (metrics : Metrics) :
    (movedRead metrics).draft movedLayout 2 = .ok movedDraft := by
  have hrequired : movedLayout.requirement (movedRead metrics).node 2 = .ok [movedRange] := rfl
  have htracked : (movedRead metrics).tracked = [failedHalf, heldHalf] := rfl
  have htidy : Tidy (movedRead metrics).tracked := tidy_halfFailed
  rw [draft_eq (by decide +kernel) htidy.ascending htidy.valid hrequired, htracked,
    reconciled_movedRange]
  rfl

theorem targets_movedRead (metrics : Metrics) :
    [failedHalf, movedRange].map ((movedRead metrics).targetOf movedLayout) =
      [⟨failedHalf, [], ⟨some 0, 4, 10⟩, false, []⟩,
        ⟨movedRange, ["a"], ⟨some 9, 11, 10⟩, false, []⟩] := by
  have hnear : movedLayout.sources "n" ⟨0, 4⟩ = [] := by decide +kernel
  have hfar : movedLayout.sources "n" ⟨9, 11⟩ = ["a"] := by decide +kernel
  have hnode : (movedRead metrics).node = "n" := rfl
  simp only [List.map_cons, List.map_nil, targetOf, hnode]
  rw [failedHalf, movedRange, hnear, hfar]
  rfl

theorem stage_movedRead (metrics : Metrics) :
    ((movedRead metrics).resume (.readingTrimMark movedLayout) (.ok 2)).coordinator.stage =
      some (.checking movedDraft movedWork 0 ⟨0, 4⟩) := by
  rw [resume_readingTrimMark (draft_movedRead metrics) rfl (targets_movedRead metrics)]
  rfl

/-- What has led to the question. -/
def movedMoments (metrics : Metrics) : List Moment :=
  readMoments (halfFailed metrics) movedLayout 2 ++ failMoments

theorem lawful_movedMoments (metrics : Metrics) : Lawful (movedMoments metrics) :=
  lawful_readMoments lawful_failMoments _ (by decide +kernel) 2

theorem run_movedMoments :
    ∃ metrics c, Run { node := "n", settings := {} } (movedMoments metrics) c ∧
      c.stage = some (.checking movedDraft movedWork 0 ⟨0, 4⟩) := by
  obtain ⟨metrics, hrun⟩ := run_failMoments
  exact ⟨metrics, _, run_readMoments hrun rfl rfl movedLayout 2, stage_movedRead metrics⟩

/-- The copy of a range fails, and the next layout has other addresses. The range ends above the
next trim mark, so it is tried again whole, with the addresses at or below the trim mark. -/
theorem leftover_below_trimMark :
    ∃ metrics c, Run { node := "n", settings := {} } (movedMoments metrics) c ∧
      Lawful (movedMoments metrics) ∧ trimMarkRead (movedMoments metrics) = some 2 ∧
      ∃ s, c.stage = some s ∧ s.query.Touches 1 ∧ ¬(2 : Address) < 1 := by
  obtain ⟨metrics, c, hrun, hstage⟩ := run_movedMoments
  have hmem : (1 : Address) ∈ (⟨0, 4⟩ : Span) := by decide
  exact ⟨metrics, c, hrun, lawful_movedMoments metrics, rfl, _, hstage, hmem, by decide⟩

theorem above_trimMark_or_leftover_of_moved :
    ∃ metrics c, Run { node := "n", settings := {} } (movedMoments metrics) c ∧
      c.stage = some (.checking movedDraft movedWork 0 ⟨0, 4⟩) ∧
      ∃ o ∈ [failedHalf, heldHalf], Leftover movedLayout 2 o ∧ 1 ∈ o.toSpan := by
  obtain ⟨metrics, c, hrun, hstage⟩ := run_movedMoments
  have hmem : (1 : Address) ∈ (⟨0, 4⟩ : Span) := by decide
  obtain ⟨layout, trimMark, tracked, hlayout, htrim, htracked, habove⟩ :=
    above_trimMark_or_leftover hrun (lawful_movedMoments metrics) hstage hmem
  cases hlayout
  cases htrim
  cases htracked
  exact ⟨metrics, c, hrun, hstage, habove.resolve_left (by decide)⟩

end Coordinator

end LogRepair
