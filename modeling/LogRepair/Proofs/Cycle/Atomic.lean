import LogRepair.Proofs.Cycle.Books
import LogRepair.Proofs.Cycle.Intact
import LogRepair.Proofs.Cycle.Questions
import LogRepair.Proofs.Cycle.Traces

/-!
# What a failed cycle leaves behind

* `Coordinator.Asked`, `Coordinator.ended`: what the latest cycle asked about a target, and what
  came of the chunks of it that ended.
* `Coordinator.Replied`: at each point of a cycle its workload is as the replies say.
* `Coordinator.Finished`: the segments that needed a copy are replaced by what the replies make of
  them.
* `Coordinator.failed_cycle_is_atomic`: a cycle that fails leaves everything as it was, but for the
  list that it publishes when shutdown was signalled while it copied.
-/

namespace LogRepair

namespace Coordinator

/-! ## What the latest cycle asked and was told -/

/-- The moment is a reply to a question about a chunk of the target that has the address in it. -/
def Moment.AsksAbout (m : Moment) (i : Nat) (x : Address) : Prop :=
  match m.happening with
  | .reply (.checking _ _ j span) _ => j = i ∧ x ∈ span
  | _ => False

/-- What came of the chunk of the target that the moment ends, if it ends one. -/
def Moment.ending? (i : Nat) (m : Moment) : Option ChunkOutcome :=
  match m.happening with
  | .reply s answer => (s.ending? answer).bind fun (j, o) => if i = j then some o else none
  | _ => none

end Coordinator

/-- The worker has asked about a chunk of the target that has the address in it, and waits. -/
def Errand.AsksAbout : Errand → Nat → Address → Prop
  | checking j span, i, x => j = i ∧ x ∈ span
  | copying _ _ _, _, _ => False

namespace Coordinator

/-- The latest cycle has checked a chunk of the target that has the address in it. -/
def Checked (moments : List Moment) (i : Nat) (x : Address) : Prop :=
  ∃ m ∈ sinceBegin moments, m.AsksAbout i x

/-- The latest cycle asked about such a chunk; these errands wait for a reply. -/
def Asked (moments : List Moment) (errands : List Errand) (i : Nat) (x : Address) : Prop :=
  Checked moments i x ∨ ∃ errand ∈ errands, errand.AsksAbout i x

/-- What came of the chunks of the target that ended in the latest cycle, latest first. -/
def ended (moments : List Moment) (i : Nat) : List ChunkOutcome :=
  (sinceBegin moments).filterMap (Moment.ending? i)

/-- What the latest cycle drew up. -/
def Redrawn (moments : List Moment) (d : Draft) : Prop :=
  ∃ b, cycleStart moments = some b ∧ b.draft d.layout d.trimMark = .ok d

/-- The latest cycle has not asked about any target. -/
structure Unasked (moments : List Moment) : Prop where
  asked : ∀ i x, ¬Asked moments [] i x
  ended : ∀ i, ended moments i = []

/-- The workload is as the replies of the latest cycle say, and these errands wait for one. -/
structure Telling (moments : List Moment) (d : Draft) (w : Workload) (errands : List Errand) :
    Prop where
  redrawn : Redrawn moments d
  traced : w.Traced (Asked moments errands) (ended moments)

/-- Each segment of the merged list that needed a copy is replaced by what the replies of the latest
cycle make of it. -/
def Finished (moments : List Moment) (merged tracked : List TrackedSegment) : Prop :=
  ∃ updates, tracked = replaceCandidates merged updates ∧
    updates.length = (merged.filter (·.isDue)).length ∧
    ∀ (i : Nat) (s u : TrackedSegment), (merged.filter (·.isDue))[i]? = some s →
      updates[i]? = some u → s.Resolved (Checked moments i) (ended moments i) u

/-- The list is what became of the one that the latest cycle drew up from this layout and this
trim mark. -/
def FinishedFrom (moments : List Moment) (layout : Layout) (trimMark : Address)
    (tracked : List TrackedSegment) : Prop :=
  ∃ b d, cycleStart moments = some b ∧ b.draft layout trimMark = .ok d ∧
    Finished moments d.tracked tracked

/-- What is known at each point of what the replies say. -/
def Replied (moments : List Moment) : Point → Prop
  | .waiting .readingLayout | .waiting (.readingTrimMark _) => Unasked moments
  | .drafted d => Unasked moments ∧ Redrawn moments d
  | .working d w => Telling moments d w (w.others.map (·.2))
  | .lost d w => Telling moments d w (w.others.map (·.2)) ∧ w.crashed = true
  | .passed d w =>
    Telling moments d w (w.others.map (·.2)) ∧ (w.crashed = false → w.queue = [])
  | .waiting (.checking d w i span) =>
    Telling moments d w (.checking i span :: w.others.map (·.2))
  | .waiting (.copying d w i present batch) =>
    Telling moments d w (.copying i present batch :: w.others.map (·.2))
  | .copied d => FinishedFrom moments d.layout d.trimMark d.tracked
  | .over (some tracked) (.error _) =>
    ∃ layout trimMark, layoutRead moments = some layout ∧ trimMarkRead moments = some trimMark ∧
      FinishedFrom moments layout trimMark tracked
  | _ => True

section

variable {moments : List Moment} {c : Coordinator} {s : Stage}

theorem checked_cons (hs : c.stage = some s) (h : Happening) (i : Nat) (x : Address) :
    Checked (⟨c, h⟩ :: moments) i x ↔ Moment.AsksAbout ⟨c, h⟩ i x ∨ Checked moments i x :=
  exists_sinceBegin_cons hs h _

theorem ended_cons (hs : c.stage = some s) (h : Happening) (i : Nat) :
    ended (⟨c, h⟩ :: moments) i =
      (Moment.ending? i ⟨c, h⟩).toList ++ ended moments i := by
  rw [ended, sinceBegin_cons hs, List.filterMap_cons]
  cases Moment.ending? i ⟨c, h⟩ <;> rfl

/-- The chunk that a reply ends is one more of its target. -/
theorem ended_reply (hs : c.stage = some s) (answer : s.query.Reply) (i : Nat) :
    ended (⟨c, .reply s answer⟩ :: moments) i =
      ((s.ending? answer).bind fun (j, o) => if i = j then some o else none).toList ++
        ended moments i :=
  ended_cons hs _ i

theorem asked_errand_cons (errand : Errand) (errands : List Errand) (i : Nat) (x : Address) :
    Asked moments (errand :: errands) i x ↔ Asked moments errands i x ∨ errand.AsksAbout i x := by
  simp only [Asked, List.mem_cons, exists_eq_or_imp]
  rw [or_assoc, or_comm (a := errand.AsksAbout i x)]

theorem Asked.perm {errands errands' : List Errand} (h : errands'.Perm errands) (i : Nat)
    (x : Address) : Asked moments errands' i x ↔ Asked moments errands i x := by
  simp only [Asked, h.mem_iff]

/-- A reply is as good as the question that it answers. -/
theorem asked_reply (hs : c.stage = some s) (answer : s.query.Reply) {errand : Errand}
    (herrand : ∀ i x, Moment.AsksAbout ⟨c, .reply s answer⟩ i x ↔ errand.AsksAbout i x)
    (errands : List Errand) (i : Nat) (x : Address) :
    Asked (⟨c, .reply s answer⟩ :: moments) errands i x ↔
      Asked moments (errand :: errands) i x := by
  rw [asked_errand_cons, Asked, checked_cons hs, herrand, Asked, or_assoc, or_comm]

/-- Without a reply nothing is asked and nothing ends. -/
theorem told_aside (moments : List Moment) (hs : c.stage = some s) {h : Happening}
    (haside : h.IsAside) :
    (∀ errands i x, Asked (⟨c, h⟩ :: moments) errands i x ↔ Asked moments errands i x) ∧
      ended (⟨c, h⟩ :: moments) = ended moments := by
  have hnone : ∀ i x, ¬Moment.AsksAbout ⟨c, h⟩ i x := by
    intro i x
    cases h with
    | reply => exact haside.elim
    | _ => exact id
  have hkept : ∀ i, Moment.ending? i ⟨c, h⟩ = none := by
    intro i
    cases h with
    | reply => exact haside.elim
    | _ => rfl
  refine ⟨fun errands i x => ?_, funext fun i => ?_⟩
  · rw [Asked, checked_cons hs, or_iff_right (hnone i x), Asked]
  · rw [ended_cons hs, hkept]
    rfl

theorem Redrawn.cons {d : Draft} (h : Redrawn moments d) (hs : c.stage = some s)
    (happening : Happening) : Redrawn (⟨c, happening⟩ :: moments) d := by
  obtain ⟨b, hb, hd⟩ := h
  exact ⟨b, (cycleStart_cons hs happening).trans hb, hd⟩

theorem telling_stage {d : Draft} {w : Workload} {errand : Errand} :
    Replied moments (.waiting (errand.stage d w)) ↔
      Telling moments d w (errand :: w.others.map (·.2)) := by
  cases errand <;> exact Iff.rfl

/-- Only the targets and their queue matter, and who asks for what. -/
theorem Telling.of_targets {d : Draft} {w w' : Workload} {errands errands' : List Errand}
    (h : Telling moments d w errands) (htargets : w'.targets = w.targets)
    (hqueue : w'.queue = w.queue) (herrands : errands'.Perm errands) :
    Telling moments d w' errands' :=
  ⟨h.redrawn, (h.traced.of_targets htargets hqueue).imp (Asked.perm herrands)⟩

/-! ## Step by step -/

/-- Before anything is asked the targets are untouched. -/
theorem Unasked.telling {d : Draft} {w : Workload} (h : Unasked moments) (hd : Redrawn moments d)
    (hw : w.Traced (fun _ _ => False) fun _ => []) : Telling moments d w [] := by
  have hended : Coordinator.ended moments = fun _ => [] := funext h.ended
  refine ⟨hd, ?_⟩
  rw [hended]
  exact hw.imp fun i x => iff_of_false (h.asked i x) id

/-- At each place of the list stands the old segment, or what the replies make of it. -/
theorem Finished.renewed {merged tracked : List TrackedSegment}
    (h : Finished moments merged tracked) :
    Renewed (fun i s u => s.Resolved (Checked moments i) (ended moments i) u) merged tracked := by
  obtain ⟨updates, rfl, hlength, hupdates⟩ := h
  exact renewed_replaceCandidates hlength hupdates

/-- Once no target is queued and no worker waits, each is closed as the replies say. -/
theorem Telling.finished {d : Draft} {w : Workload} (h : Telling moments d w [])
    (hserves : Serves d w) (hvalid : ∀ s ∈ d.tracked, s.Valid) (hqueue : w.queue = [])
    {fates : List (TrackedSegment × Bool)} (hclose : w.close = .ok fates) :
    Finished moments d.tracked (replaceCandidates d.tracked (fates.map (·.1))) := by
  obtain ⟨hlength, htargets⟩ := hserves.exists_closed hclose
  refine ⟨_, rfl, (List.length_map _).trans hlength, fun i s u hs hu => ?_⟩
  rw [List.getElem?_map] at hu
  obtain ⟨fate, hfate, rfl⟩ := Option.map_eq_some_iff.mp hu
  obtain ⟨t, ht, rfl, hclosed⟩ := htargets i s fate hs hfate
  have hnone : False ↔ i ∈ w.queue := by
    rw [hqueue]
    exact (iff_false_intro List.not_mem_nil).symm
  have hchecked : ∀ x, Checked moments i x ↔ Asked moments [] i x := fun x =>
    (or_iff_left fun hasked => List.not_mem_nil hasked.choose_spec.1).symm
  obtain ⟨htvalid, hdue⟩ := hserves.valid_isDue (fun s hs _ => hvalid s hs)
    (List.mem_of_getElem? ht)
  exact Target.resolved ((h.traced.asked i t ht).imp hchecked) (h.traced.ended i t ht)
    ((h.traced.queued.targets i t ht).imp hnone) htvalid hdue hclosed

theorem Replied.step {p q : Point} (hrep : Represented moments p) (hconfined : Confined moments q)
    (hp : Replied moments p) (h : Step c p q) : Replied moments q := by
  cases h with
  | crash | refuse | goOn | rest | list | exhaust | defer | reflect | propose | skipMarks | mark
  | conclude => trivial
  | @skip d h =>
    obtain ⟨-, b, hb, hd⟩ := hp
    refine ⟨b, d, hb, hd, [], ?_, ?_, fun i s u hs => ?_⟩
    · cases d.tracked <;> rfl
    · rw [h]
    · rw [h] at hs
      cases hs
  | @copy d h =>
    have hvalid := (Faithful.tracks hrep).valid
    refine hp.1.telling hp.2 (Workload.traced_ofTargets (fun t ht => ?_) (fun t ht => ?_)
      (fun t ht => ?_) fun t ht => ?_)
    · obtain ⟨i, hi⟩ := List.mem_iff_getElem?.mp ht
      exact hconfined.2.targets i t hi
    all_goals obtain ⟨s, hs, rfl⟩ := List.mem_map.mp ht
    · exact ⟨_, rfl⟩
    · exact (hvalid s (List.mem_filter.mp hs).1).first_le_last
    · rfl
  | @take d w w' i span h =>
    have hothers : w'.others = w.others := Workload.others_take h
    refine ⟨hp.redrawn, (hp.traced.take h).imp fun j x => ?_⟩
    rw [asked_errand_cons, hothers, Errand.AsksAbout, eq_comm]
  | @retire d w w' h =>
    have hothers : w'.others = w.others := Workload.others_take h
    obtain ⟨htraced, hqueue⟩ := hp.traced.retire h
    refine ⟨⟨hp.redrawn, htraced.imp fun j x => ?_⟩, fun _ => hqueue⟩
    rw [← hothers]
    rfl
  | replace => exact hp.1.of_targets rfl rfl (.refl _)
  | miss =>
    refine ⟨hp.1, fun halive => ?_⟩
    rw [hp.2] at halive
    cases halive
  | turn h =>
    refine telling_stage.mpr (hp.1.of_targets rfl rfl ?_)
    rw [h]
    exact .refl _
  | @close d w fates h hcrashed hclose =>
    obtain ⟨hfaithful, hserves⟩ := hrep
    obtain ⟨b, hb, hd⟩ := hp.1.redrawn
    have htelling : Telling moments d w [] := by
      have htelling := hp.1
      rwa [h] at htelling
    exact ⟨b, d, hb, hd,
      htelling.finished hserves hfaithful.tracks.valid (hp.2 hcrashed) hclose⟩
  | stop h => exact ⟨_, _, Faithful.layout_eq hrep, Faithful.trimMark_eq hrep, hp⟩

/-! ## Reply by reply -/

theorem Unasked.reply {answer : s.query.Reply} (h : Unasked moments) (hs : c.stage = some s)
    (hasks : ∀ i x, ¬Moment.AsksAbout ⟨c, .reply s answer⟩ i x)
    (hending : s.ending? answer = none) : Unasked (⟨c, .reply s answer⟩ :: moments) := by
  refine ⟨fun i x => ?_, fun i => ?_⟩
  · rw [Asked, checked_cons hs, or_iff_right (hasks i x)]
    exact h.asked i x
  · rw [ended_reply hs, hending, h.ended]
    rfl

theorem unasked_begin (hidle : c.stage = none) (hgoing : c.stopped = false) :
    Unasked (⟨c, .begin⟩ :: moments) := by
  refine ⟨fun i x => ?_, fun i => ?_⟩
  · rw [Asked, Checked, exists_sinceBegin_begin hidle hgoing]
    rintro (hasks | ⟨errand, herrand, -⟩)
    · exact hasks
    · cases herrand
  · rw [ended, sinceBegin_begin hidle hgoing]
    rfl

/-- A reply that ends the chunk of a worker is noted for its target. -/
theorem Telling.note {d : Draft} {w : Workload} {errand : Errand} {answer : s.query.Reply} {i : Nat}
    {o : ChunkOutcome} (h : Telling moments d w (errand :: w.others.map (·.2)))
    (hs : c.stage = some s)
    (herrand : ∀ i x, Moment.AsksAbout ⟨c, .reply s answer⟩ i x ↔ errand.AsksAbout i x)
    (hending : s.ending? answer = some (i, o)) (ho : o ≠ .dropped) :
    Telling (⟨c, .reply s answer⟩ :: moments) d (w.note i o) ((w.note i o).others.map (·.2)) := by
  have hended : ended (⟨c, .reply s answer⟩ :: moments) =
      fun j => if j = i then o :: ended moments j else ended moments j := by
    funext j
    rw [ended_reply hs, hending, Option.bind_some]
    dsimp only
    by_cases hji : j = i
    · rw [if_pos hji, if_pos hji]
      rfl
    · rw [if_neg hji, if_neg hji]
      rfl
  refine ⟨h.redrawn.cons hs _, ?_⟩
  rw [hended]
  exact (h.traced.note i ho).imp (asked_reply hs answer herrand _)

/-- A reply that ends no chunk changes only who asks for what. -/
theorem Telling.reply {d : Draft} {w w' : Workload} {errand : Errand} {answer : s.query.Reply}
    {errands : List Errand} (h : Telling moments d w (errand :: errands)) (hs : c.stage = some s)
    (herrand : ∀ i x, Moment.AsksAbout ⟨c, .reply s answer⟩ i x ↔ errand.AsksAbout i x)
    (hending : s.ending? answer = none) (htargets : w'.targets = w.targets)
    (hqueue : w'.queue = w.queue) : Telling (⟨c, .reply s answer⟩ :: moments) d w' errands := by
  have hended : ended (⟨c, .reply s answer⟩ :: moments) = ended moments := by
    funext j
    rw [ended_reply hs, hending]
    rfl
  refine ⟨h.redrawn.cons hs _, ?_⟩
  rw [hended]
  exact (h.traced.of_targets htargets hqueue).imp (asked_reply hs answer herrand _)

/-- What is copied of a chunk was asked about with the chunk. -/
theorem Telling.copying {d : Draft} {w : Workload} {errands : List Errand}
    (h : Telling moments d w errands) (i : Nat) (present : UInt64) (batch : Batch) :
    Telling moments d w (.copying i present batch :: errands) :=
  ⟨h.redrawn, h.traced.imp fun _ _ => (asked_errand_cons _ _ _ _).trans (or_iff_left id)⟩

theorem Replied.entry {answer : s.query.Reply} {p : Point} (hs : c.stage = some s)
    (hlist : Tidy c.tracked) (hrep : Represented moments (.waiting s))
    (hintact : Intact moments c (.waiting s)) (hp : Replied moments (.waiting s))
    (h : Entry c s answer p) (hlost : p.isLost = s.losesWorker answer) :
    Replied (⟨c, .reply s answer⟩ :: moments) p := by
  cases h with
  | layoutUnread | trimMarkUnread | undrafted | accepted | stale | refused | refreshed
  | unrefreshed => trivial
  | layoutRead => exact Unasked.reply hp hs (fun _ _ => id) rfl
  | @drafted layout trimMark d h =>
    obtain ⟨b, hb, -, hsame⟩ := hintact trivial
    refine ⟨Unasked.reply hp hs (fun _ _ => id) rfl, b, (cycleStart_cons hs _).trans hb, ?_⟩
    have hdraft : b.draft layout trimMark = .ok d := by
      rw [← h, draft, draft, hsame.node_eq, hsame.tracked_eq]
    have hrequired := Layout.requirement_eq hrep.2 c.node trimMark
    rw [draft_eq hrep.2 hlist.ascending hlist.valid hrequired] at h
    cases h
    exact hdraft
  | unreadable =>
    exact hp.note hs (fun _ _ => Iff.rfl) rfl
      (by simp [ChunkOutcome.unreadable])
  | @held d w i span present hmissing =>
    refine hp.note hs (fun _ _ => Iff.rfl) ?_ (by simp)
    have hlost : (decide (span.last < span.first) && !present.isEmpty) = false := hlost.symm
    rw [Stage.ending?, hlost, if_neg Bool.false_ne_true, if_pos hmissing]
  | written | uncopied =>
    exact hp.note hs (fun _ _ => Iff.rfl) rfl (by simp)
  | @inverted d w i span present hspan =>
    have hlost : (decide (span.last < span.first) && !present.isEmpty) = true := hlost.symm
    refine ⟨hp.reply hs (fun _ _ => Iff.rfl) ?_ rfl rfl, rfl⟩
    rw [Stage.ending?, if_pos hlost]
  | crashed =>
    exact ⟨hp.reply hs (fun _ _ => Iff.rfl) rfl rfl rfl, rfl⟩
  | @missing d w i span present hmissing =>
    have hlost : (decide (span.last < span.first) && !present.isEmpty) = false := hlost.symm
    refine (hp.reply hs (fun _ _ => Iff.rfl) ?_ rfl rfl).copying i _ _
    rw [Stage.ending?, hlost, if_neg Bool.false_ne_true, if_neg (Bool.eq_false_iff.mp hmissing)]

/-! ## Besides replies -/

theorem Replied.aside {h : Happening} (haside : h.IsAside) (hs : c.stage = some s)
    (hp : Replied moments (.waiting s)) : Replied (⟨c, h⟩ :: moments) (.waiting s) := by
  obtain ⟨hasked, hended⟩ := told_aside moments hs haside
  have htelling : ∀ {d w errands}, Telling moments d w errands →
      Telling (⟨c, h⟩ :: moments) d w errands := by
    intro d w errands htelling
    refine ⟨htelling.redrawn.cons hs h, ?_⟩
    rw [hended]
    exact htelling.traced.imp (hasked errands)
  have hunasked : Unasked moments → Unasked (⟨c, h⟩ :: moments) := by
    intro hunasked
    refine ⟨fun i x => mt (hasked [] i x).mp (hunasked.asked i x), fun i => ?_⟩
    rw [hended, hunasked.ended]
  cases s with
  | readingLayout | readingTrimMark => exact hunasked hp
  | checking | copying => exact htelling hp
  | proposing | refreshing => trivial

theorem Replied.shift {p : Point} (hp : Replied moments (.waiting s)) (h : Shift s p) :
    Replied moments p := by
  rcases h.errands_perm with hperm | ⟨rfl, -⟩
  · cases h with
    | recancel f hs =>
      cases s with
      | checking | copying =>
        cases hs
        exact ⟨hp.redrawn, hp.traced.recancel f⟩
      | _ => cases hs
    | switch hk =>
      rw [errands_stage, errands_stage] at hperm
      exact telling_stage.mpr ((telling_stage.mp hp).of_targets rfl rfl hperm)
    | hire h =>
      rw [errands_stage] at hperm
      exact (telling_stage.mp hp).of_targets rfl rfl hperm
    | abandon => trivial
  · trivial

end

theorem upkeep_replied (node : NodeId) (settings : Settings) :
    Upkeep { node, settings } (fun moments p => Represented moments p ∧ Confined moments p)
      (fun _ => Tidy) (fun moments c p => Intact moments c p ∧ Replied moments p)
      fun _ _ => True := by
  have base := upkeep_intact { node, settings }
    (fun moments p => Represented moments p ∧ Confined moments p) fun _ => Tidy
  exact {
    at_start := trivial
    rest := fun _ _ => trivial
    begun := fun hidle hgoing h => ⟨base.begun hidle hgoing h, unasked_begin hidle hgoing⟩
    waiting := fun hp => ⟨base.waiting hp.1, hp.2⟩
    aside := fun haside hs hp => ⟨base.aside haside hs hp.1, hp.2.aside haside hs⟩
    shift := fun hbase hp h => ⟨base.shift hbase hp.1 h, hp.2.shift h⟩
    entry := fun task hlawful hlist hbase hnext hs hp h hlost =>
      ⟨base.entry task hlawful hlist hbase hnext hs hp.1 h hlost,
        hp.2.entry hs hlist hbase.1 hp.1 h hlost⟩
    step := fun task hbase hnext hp h =>
      ⟨base.step task hbase hnext hp.1 h, hp.2.step hbase.1 hnext.2 h⟩
    idle_of_over := fun _ _ => trivial }

/-! ## How a cycle ends -/

/-- A cycle that another one or a shutdown keeps from beginning changes nothing. -/
theorem begin_refused {c : Coordinator} (h : c.stage.isSome = true ∨ c.stopped = true) :
    c.begin.coordinator = c ∧ Moment.Refuses ⟨c, .begin⟩ := by
  by_cases hrunning : c.stage.isSome = true
  · have hturn : c.begin = ⟨c, some (.error .cycleInProgress)⟩ := if_pos hrunning
    exact ⟨congrArg Turn.coordinator hturn, rfl,
      Or.inl ⟨hrunning, congrArg Turn.outcome hturn⟩⟩
  · have hstopped := h.resolve_left hrunning
    have hturn : c.begin = ⟨c, some (.error .cancelled)⟩ :=
      (if_neg hrunning).trans (if_pos hstopped)
    exact ⟨congrArg Turn.coordinator hturn, rfl,
      Or.inr ⟨Option.not_isSome_iff_eq_none.mp hrunning, hstopped, congrArg Turn.outcome hturn⟩⟩

namespace Moment

/-- A cycle that cannot read the layout or the trim mark is over at once. -/
theorem Passes.eq_over_of_unread {m : Moment} {c : Coordinator} {p : Point} {e : Error}
    (h : m.Passes c p) (hunread : m.Unread e) : p = .over none (.error e) := by
  obtain ⟨b, q, hopens, hwalks, -⟩ := h
  have hq : q = .over none (.error e) := by
    cases hopens with
    | begun =>
      rcases hunread with hreply | ⟨layout, hreply⟩
      · cases hreply
      · cases hreply
    | shift haside =>
      rcases hunread with hreply | ⟨layout, hreply⟩
      · cases hreply
        exact haside.elim
      · cases hreply
        exact haside.elim
    | entry hs hentry =>
      rcases hunread with hreply | ⟨layout, hreply⟩
      · cases hreply
        cases hentry
        rfl
      · cases hreply
        cases hentry
        rfl
  rcases Relation.ReflTransGen.cases_head hwalks with heq | ⟨next, ⟨hstep, -⟩, -⟩
  · rw [← hq]
    exact congrArg Prod.snd heq.symm
  · rw [hq] at hstep
    cases hstep

/-- A moment after which no cycle runs where one did passes the end of that cycle. -/
theorem exists_passes_over {m : Moment} (possible : m.happening.Possible m.before)
    (hbefore : m.before.stage.isSome = true) (hafter : m.after.stage = none) :
    ∃ c published outcome, m.Passes c (.over published outcome) ∧
      m.after = { c with stage := none } ∧ m.outcome = some outcome := by
  rcases m.turn_cases possible with hstill | ⟨b, q, hopens, hleads⟩
  · rw [hstill.after_eq, stage_heeded] at hafter
    rw [hafter] at hbefore
    cases hbefore
  · obtain ⟨c, p, hpasses, hturn⟩ := exists_passes_end hopens hleads
    rw [after] at hafter ⊢
    rw [outcome]
    rcases Point.of_turn? hturn with ⟨s, -, heq⟩ | ⟨published, outcome, rfl, heq⟩
    · rw [heq] at hafter
      cases hafter
    · rw [heq]
      exact ⟨c, published, outcome, hpasses, rfl, rfl⟩

end Moment

section

variable {moments : List Moment} {m : Moment} {c : Coordinator}
  {published : Option (List TrackedSegment)} {outcome : Outcome}

/-- A cycle that loses a worker, or cannot read what it needs, fails and publishes nothing. -/
theorem Explained.failed (h : Explained (m :: moments) c (.over published outcome))
    (hpasses : m.Passes c (.over published outcome))
    (hfailed : WorkerLost (m :: moments) ∨ ∃ e, m.Unread e) :
    ∃ e, published = none ∧ outcome = .error e := by
  rcases hfailed with hlost | ⟨e, hunread⟩
  · match outcome, h with
    | .ok report, h => exact absurd hlost h
    | .error e, h => exact ⟨e, (h.resolve_right fun h => h.1 hlost).1, rfl⟩
  · obtain ⟨rfl, rfl⟩ := Point.over.inj (hpasses.eq_over_of_unread hunread)
    exact ⟨e, rfl, rfl⟩

/-- Otherwise, after a shutdown before the listing, it is cancelled and publishes a list. -/
theorem Explained.cancelled (h : Explained (m :: moments) c (.over published outcome))
    (hstopping : Stopping (m :: moments) c (.over published outcome))
    (halive : ¬WorkerLost (m :: moments)) (hread : ∀ e, ¬m.Unread e)
    (hearly : StoppedEarly (m :: moments)) :
    ∃ tracked, published = some tracked ∧ outcome = .error .cancelled := by
  obtain ⟨-, hbefore⟩ := hstopping hearly
  match outcome, hbefore, h with
  | .error e, _, h =>
    obtain ⟨-, hkind⟩ := h.resolve_left fun h => halive h.2.2
    rcases hkind with ⟨hsome, rfl, -⟩ | ⟨-, m', hm', hunread⟩
    · obtain ⟨tracked, rfl⟩ := Option.isSome_iff_exists.mp hsome
      exact ⟨tracked, rfl, rfl⟩
    · cases hm'
      exact absurd hunread (hread e)

end

/-- If another cycle runs, or shutdown was signalled before, a new cycle is refused and nothing
changes. When a cycle ends no segment is being copied any more. If it ends because the layout or the
trim mark could not be read, or after a worker died, it fails, it has proposed nothing, and all that
is published and all that is counted of cycles, proposals and segments is as before it. If instead
shutdown was signalled before it began to list what it copied, it is cancelled, it has proposed
nothing and counts nothing of this, and it publishes the list that it drew up: each segment of which
every address was asked about has the outcome of an attempt, each other one that needed a copy only
counts what was copied of it, and the rest stays. -/
theorem failed_cycle_is_atomic {node : NodeId} {settings : Settings} {moments : List Moment}
    {m : Moment} {c : Coordinator} (hrun : Run { node, settings } (m :: moments) c)
    (hlawful : Lawful (m :: moments)) :
    (m.happening = .begin → m.before.stage.isSome = true ∨ m.before.stopped = true →
        c = m.before ∧ m.Refuses) ∧
      (m.before.stage.isSome = true → c.stage = none →
        c.metrics.segmentsInFlight = 0 ∧
          (WorkerLost (m :: moments) ∨ (∃ e, m.Unread e) →
            ∃ b e, cycleStart (m :: moments) = some b ∧ m.outcome = some (.error e) ∧
              Untouched b c ∧ c.failures = b.failures ∧ Unlisted (m :: moments)) ∧
          (¬WorkerLost (m :: moments) → (∀ e, ¬m.Unread e) → StoppedEarly (m :: moments) →
            ∃ b d layout trimMark, cycleStart (m :: moments) = some b ∧
              m.outcome = some (.error .cancelled) ∧ SameBooks b c ∧ Unlisted (m :: moments) ∧
              layoutRead (m :: moments) = some layout ∧
              trimMarkRead (m :: moments) = some trimMark ∧ b.draft layout trimMark = .ok d ∧
              Finished (m :: moments) d.tracked c.tracked)) := by
  obtain ⟨hbefore, possible⟩ := hrun.before
  obtain rfl : c = m.after := by
    cases hrun
    rfl
  refine ⟨fun hbegin hrefused => ?_, fun hrunning hidle => ?_⟩
  · obtain ⟨b, happening⟩ := m
    obtain rfl : happening = .begin := hbegin
    exact begin_refused hrefused
  have inv := invariant_confined (b := { node, settings }) rfl tidy_nil
  have hsums := ((upkeep_sums node settings).run (invariant_represented node settings) rfl hrun
    hlawful).between hidle
  refine ⟨hsums.segmentsInFlight.resolve_left id, ?_⟩
  obtain ⟨c, published, outcome, hpasses, hafter, houtcome⟩ :=
    Moment.exists_passes_over possible hrunning hidle
  have hexplaining : Upkeep { node, settings }
      (fun moments p => Represented moments p ∧ Confined moments p) (fun _ => Tidy) Explained
      fun _ _ => True := (upkeep_explained node settings).of_base And.left id
  have hexplained := (hexplaining.passes inv rfl hrun hlawful hpasses).2
  obtain ⟨hintact, hreplied⟩ := ((upkeep_replied node settings).passes inv rfl hrun hlawful
    hpasses).2
  have hstopping := ((upkeep_stopping { node, settings }
    (fun moments p => Represented moments p ∧ Confined moments p) fun _ => Tidy).passes inv rfl hrun
    hlawful hpasses).2
  have hover : Untouched c { c with stage := none } := ⟨⟨rfl, rfl, rfl, rfl, rfl⟩, rfl, rfl⟩
  rw [hafter, houtcome]
  refine ⟨fun hfailed => ?_, fun halive hread hearly => ?_⟩
  · obtain ⟨e, rfl, rfl⟩ := hexplained.failed hpasses hfailed
    obtain ⟨b, hb, hunlisted, hsame⟩ := hintact trivial
    have hsame' := hsame.trans hover
    exact ⟨b, e, hb, rfl, hsame', hsame'.failures_eq, hunlisted⟩
  · obtain ⟨tracked, rfl, rfl⟩ := hexplained.cancelled hstopping halive hread hearly
    obtain ⟨b, hb, hunlisted, hsame, rfl⟩ := hintact trivial
    obtain ⟨layout, trimMark, hlayout, htrimMark, b', d, hb', hd, hfinished⟩ := hreplied
    rw [hb] at hb'
    cases hb'
    exact ⟨b, d, layout, trimMark, hb, rfl, hsame.trans hover.toSameBooks, hunlisted, hlayout,
      htrimMark, hd, hfinished⟩

/-- Shutdown is signalled while the only chunk of the missing half is checked. -/
def stopMoments : List Moment := ⟨halfChecking, .shutdown⟩ :: halfMoments

/-- The reply then says that all of the chunk is held. -/
def lastReply : Happening :=
  .reply (.checking halfDraft halfWork.cancelAll 0 ⟨0, 4⟩) (.ok [0, 1, 2, 3, 4])

/-- The half of which every address was asked about is published as copied although the cycle is
cancelled, and no cycle begins after that. One that cannot read the layout leaves all as it was. -/
theorem failed_cycle_is_atomic_stopped :
    (∃ c, Run { node := "n", settings := {} }
        (⟨halfChecking.shutdown, lastReply⟩ :: stopMoments) c ∧
      Moment.outcome ⟨halfChecking.shutdown, lastReply⟩ = some (.error .cancelled) ∧
      c.tracked = [copiedHalf, heldHalf] ∧ c.metrics.cycles = 0 ∧
      c.metrics.segmentsInFlight = 0 ∧
      Finished (⟨halfChecking.shutdown, lastReply⟩ :: stopMoments) halfDraft.tracked c.tracked ∧
      c.begin.coordinator = c) ∧
    ∃ metrics c, Run { node := "n", settings := {} }
      (unreadMoment metrics :: ⟨halfFailed metrics, .begin⟩ :: failMoments) c ∧
      Untouched (halfFailed metrics) c ∧ c.failures = [failedHalf] := by
  constructor
  · have hstopped := run_halfMoments.cons .shutdown trivial
    have hended := hstopped.cons lastReply rfl
    have hlawful : Lawful (⟨halfChecking.shutdown, lastReply⟩ :: stopMoments) :=
      List.forall_mem_cons.mpr ⟨trivial, List.forall_mem_cons.mpr ⟨trivial, lawful_halfMoments⟩⟩
    obtain ⟨-, hover⟩ := failed_cycle_is_atomic hended hlawful
    obtain ⟨hinFlight, -, hcancelled⟩ := hover rfl rfl
    have hkept : ∀ m ∈ ⟨halfChecking.shutdown, lastReply⟩ :: stopMoments, ¬m.LosesWorker := by
      simp only [stopMoments, halfMoments, List.forall_mem_cons]
      exact ⟨Bool.false_ne_true, id, Bool.false_ne_true, Bool.false_ne_true, id,
        fun _ hm => absurd hm List.not_mem_nil⟩
    have halive : ¬WorkerLost (⟨halfChecking.shutdown, lastReply⟩ :: stopMoments) := by
      rintro ⟨m, hm, hlost⟩
      exact hkept m (sinceBegin_subset _ hm) hlost
    have hread : ∀ e, ¬Moment.Unread ⟨halfChecking.shutdown, lastReply⟩ e := by
      rintro e (hreply | ⟨layout, hreply⟩)
      · cases hreply
      · cases hreply
    have hearly : StoppedEarly (⟨halfChecking.shutdown, lastReply⟩ :: stopMoments) := by
      refine ⟨⟨halfChecking, .shutdown⟩, List.mem_cons_of_mem _ List.mem_cons_self, rfl, ?_⟩
      intro s hs
      cases hs
      trivial
    obtain ⟨b, d, layout, trimMark, hb, houtcome, -, -, hlayout, htrimMark, hd, hfinished⟩ :=
      hcancelled halive hread hearly
    cases hb
    cases hlayout
    cases htrimMark
    obtain rfl : d = halfDraft := Except.ok.inj (hd.symm.trans draft_halfRead)
    have hrefused := hended.cons .begin trivial
    obtain ⟨hsame, -⟩ := (failed_cycle_is_atomic hrefused
      (List.forall_mem_cons.mpr ⟨trivial, hlawful⟩)).1 rfl (Or.inr rfl)
    exact ⟨_, hended, houtcome, rfl, rfl, hinFlight, hfinished, hsame⟩
  · obtain ⟨metrics, hfailed⟩ := run_failMoments
    have hunread := (hfailed.cons .begin trivial).cons
      (.reply .readingLayout (.error (.transfer "no reply"))) rfl
    have hlawful : Lawful (unreadMoment metrics :: ⟨halfFailed metrics, .begin⟩ :: failMoments) :=
      List.forall_mem_cons.mpr ⟨trivial, List.forall_mem_cons.mpr ⟨trivial, lawful_failMoments⟩⟩
    obtain ⟨-, hatomic, -⟩ := (failed_cycle_is_atomic hunread hlawful).2 rfl rfl
    obtain ⟨b, e, hb, -, hsame, hfailures, -⟩ := hatomic (Or.inr ⟨_, Or.inl rfl⟩)
    cases hb
    exact ⟨metrics, _, hunread, hsame, hfailures⟩

end Coordinator

end LogRepair
