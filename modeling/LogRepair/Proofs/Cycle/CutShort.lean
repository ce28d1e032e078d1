import LogRepair.Proofs.Cycle.Handing
import LogRepair.Proofs.Cycle.Spent

/-!
# Cutting targets short

Newer layouts and a shutdown cut targets short, at any time. What is not handed out yet is left,
and what is handed out runs to its end.

* `Coordinator.Serving`: a worker is at its turn, and the targets are as told.
* `Coordinator.CycleRun.standing`: where a cycle stands that began to copy.
* `Coordinator.Closed.counts`: every target that was copied is counted once.
* `Coordinator.CopiedAs.renewed`: each fate stands in the place of its segment.
* `Coordinator.cancels_exactly`: what is cut short, and what becomes of it.
-/

namespace LogRepair

open TrackedSegment

namespace TrackedSegment

variable {cursor : Cursor} {moments : List Coordinator.Moment} {i : Nat} {s : TrackedSegment}
  {fate : TrackedSegment × Bool}

/-- What is no reply to a worker changes nothing for the targets. -/
theorem LeftAs.aside (h : s.LeftAs cursor moments i fate) {m : Coordinator.Moment}
    (hm : m.errand? = none) : s.LeftAs cursor (m :: moments) i fate := by
  obtain ⟨-, hcredit, hfails⟩ := Coordinator.silent_aside hm i
  have hcredited : Coordinator.credited (m :: moments) i = Coordinator.credited moments i := by
    rw [Coordinator.credited, List.map_cons, List.sum_cons, hcredit, Nat.zero_add]
    rfl
  have hstarted : Coordinator.started (m :: moments) [] i = Coordinator.started moments [] i := by
    rw [Coordinator.started, Coordinator.given_aside hm]
    rfl
  refine ⟨h.span_eq, ?_, ?_, h.of_cut, fun hwhole => ?_⟩
  · rw [hcredited]
    exact h.copied_eq
  · rw [hstarted]
    exact h.cut_iff
  · obtain ⟨failure, hprogress, hfailure⟩ := h.of_whole hwhole
    refine ⟨failure, ?_, ?_⟩
    · rw [hcredited]
      exact hprogress
    · rw [hfailure, List.forall_mem_cons]
      exact (and_iff_right hfails).symm

/-- Only the count of a target that is cut short is another. -/
theorem LeftAs.eq_of_cut (h : s.LeftAs cursor moments i fate)
    (hleft : (cursor.range? (Coordinator.started moments [] i).length).isSome = true) :
    fate.1 = ⟨s.toSpan, s.state,
      .ofNat (max s.progress.copied.toNat (Coordinator.credited moments i)),
      s.progress.failure⟩ := by
  obtain ⟨hstate, hfailure⟩ := h.of_cut (h.cut_iff.mpr hleft)
  rw [← h.copied_eq, UInt64.ofNat_toNat, ← h.span_eq, ← hstate, ← hfailure]
  rfl

/-- Every other target has the outcome of an attempt, a failed one if a chunk failed. -/
theorem LeftAs.exists_of_whole (h : s.LeftAs cursor moments i fate)
    (hnone : cursor.range? (Coordinator.started moments [] i).length = none) : ∃ failure,
    fate.1 = ⟨s.toSpan, s.outcome (.ofNat (Coordinator.credited moments i)) failure⟩ ∧
      (failure = none ↔ ∀ m ∈ moments, ¬m.Fails i) := by
  have hwhole : fate.2 = false := by
    rw [← Bool.not_eq_true, h.cut_iff, hnone]
    exact Bool.false_ne_true
  obtain ⟨failure, hprogress, hfailure⟩ := h.of_whole hwhole
  refine ⟨failure, ?_, hfailure⟩
  rw [← h.span_eq, ← hprogress]

end TrackedSegment

namespace Coordinator

/-! ## One turn -/

/-- A worker is at its turn and waits for the errand, and the targets are as told. -/
structure Serving (c : Coordinator) (d : Draft) (moments : List Moment) (c' : Coordinator)
    (w : Workload) (errand : Errand) : Prop where
  task : SameTask c c'
  stage : c'.stage = some (errand.stage d w)
  serves : Serves d w
  told : w.Told c moments (errand :: w.others.map (·.2))

/-- Where a turn leaves the copying of the draft. -/
inductive Reaches (c : Coordinator) (d : Draft) (moments : List Moment) (turn : Turn) : Prop
  | serving {w : Workload} {errand : Errand}
      (h : Serving c d moments turn.coordinator w errand)
  | ended {c' : Coordinator} {fates : List (TrackedSegment × Bool)} (task : SameTask c c')
      (turn_eq : turn = c'.afterCopying (d.withFates fates)) (closed : Closed c d moments fates)

section

variable {c c' : Coordinator} {d : Draft} {moments : List Moment} {w : Workload} {errand : Errand}

theorem Serving.errands_eq (h : Serving c d moments c' w errand) :
    c'.errands = errand :: w.others.map (·.2) :=
  errands_of_stage h.stage

theorem Serving.inFlight_eq (h : Serving c d moments c' w errand) : c'.inFlight = w.targets :=
  inFlight_of_stage h.stage (errand.workload?_stage d w)

variable (hvalid : ∀ s ∈ d.tracked, s.isDue = true → s.Valid)

include hvalid

theorem reaches_passTurn (task : SameTask c c') (serves : Serves d w)
    (told : w.Told c moments (w.others.map (·.2))) (hqueue : w.queue = []) :
    Reaches c d moments (c'.passTurn d w) := by
  cases hothers : w.others with
  | nil =>
    rw [hothers] at told
    obtain ⟨fates, hclose, hclosed⟩ := told.exists_fates hqueue serves hvalid
    have htask : SameTask c { c' with metrics := c'.metrics.set .segmentsInFlight 0 } :=
      task.trans ⟨rfl, rfl⟩
    have hturn : c'.passTurn d w =
        ({ c' with metrics := c'.metrics.set .segmentsInFlight 0 } : Coordinator).afterCopying
          (d.withFates fates) := by
      simp only [passTurn, hothers, closeWorkload, told.crashed_eq, hclose, Bool.false_eq_true,
        if_false]
      rfl
    exact .ended htask hturn hclosed
  | cons p others =>
    obtain ⟨worker, errand⟩ := p
    have hturn : c'.passTurn d w = c'.wait (errand.stage d { w with worker, others }) := by
      rw [passTurn, hothers]
    rw [hturn]
    refine .serving ⟨task.trans ⟨rfl, rfl⟩, rfl, serves, ?_⟩
    rw [hothers] at told
    exact told.of_targets rfl rfl rfl (.refl _)

theorem reaches_nextChunk (task : SameTask c c') (serves : Serves d w)
    (told : w.Told c moments (w.others.map (·.2))) (hcut : w.CutBy c moments) :
    Reaches c d moments (c'.nextChunk d w) := by
  cases htake : w.take with
  | mk w' chunk =>
    have hothers := Workload.others_take htake
    have hserves : Serves d w' := (Workload.segments_take htake).trans serves
    cases chunk with
    | some chunk =>
      obtain ⟨i, span⟩ := chunk
      have hturn : c'.nextChunk d w = c'.wait (Errand.stage d w' (.checking i span)) := by
        rw [nextChunk, htake]
        rfl
      rw [hturn]
      refine .serving ⟨task.trans ⟨rfl, rfl⟩, rfl, hserves, ?_⟩
      rw [hothers]
      exact told.take hcut htake
    | none =>
      have hturn : c'.nextChunk d w = c'.passTurn d w'.retire := by
        rw [nextChunk, htake]
      obtain ⟨htold, hqueue⟩ := told.retire hcut htake
      rw [← hothers] at htold
      rw [hturn]
      exact reaches_passTurn hvalid task ((Workload.segments_retire w').trans hserves) htold hqueue

/-- A reply ends a chunk. -/
theorem Serving.reaches_noteChunk {m : Moment} (h : Serving c d moments m.before w errand)
    {o : ChunkOutcome} (hm : m.Ends errand o) :
    Reaches c d (m :: moments) (m.before.noteChunk d w errand.target o) := by
  have htold := h.told
  rw [← h.errands_eq] at htold
  exact reaches_nextChunk hvalid (h.task.trans ⟨rfl, rfl⟩)
    ((Workload.segments_note w _ o).trans h.serves) (htold.note hm h.errands_eq h.inFlight_eq)
    ((Workload.cutBy_cons h.inFlight_eq).note _ o)

theorem Serving.reaches_checking {j : Nat} {span : Span}
    (h : Serving c d moments c' w (.checking j span)) {answer : Except Error (List Address)}
    (halive : Stage.losesWorker (.checking d w j span) answer = false) :
    Reaches c d (⟨c', .reply (.checking d w j span) answer⟩ :: moments)
      (c'.resumeChecking d w j span answer) := by
  cases answer with
  | error e => exact Serving.reaches_noteChunk hvalid h (ends_unreadable e)
  | ok present =>
    have hkept : ¬(decide (span.last < span.first) && !present.isEmpty) = true :=
      Bool.eq_false_iff.mp halive
    simp only [resumeChecking, if_neg hkept]
    by_cases hmissing : (Batch.missing span present).isEmpty = true
    · rw [if_pos hmissing]
      exact Serving.reaches_noteChunk hvalid h (ends_held hmissing)
    · rw [if_neg hmissing]
      have htold := h.told
      rw [← h.errands_eq] at htold
      have hstage : (c'.wait (.copying d w j (.ofNat (span.toList.countP present.contains))
          ((Batch.missing span present).withSources (w.sources j)))).coordinator.stage =
        some (Errand.stage d w (.copying j (.ofNat (span.toList.countP present.contains))
          ((Batch.missing span present).withSources (w.sources j)))) := rfl
      refine .serving ⟨h.task.trans ⟨rfl, rfl⟩, hstage, h.serves, ?_⟩
      refine htold.proceed (leaves_missing _ _ (Bool.eq_false_iff.mpr hmissing) h.errands_eq)
        (fun i => ?_) (fun i => id) h.inFlight_eq
      rw [h.errands_eq]
      simp only [List.map_cons, List.sum_cons, Errand.held, Moment.credit, zero_add]
      split
      · exact add_comm _ _
      · exact (zero_add _).trans (add_zero _).symm

theorem Serving.reaches_copying {j : Nat} {present : UInt64} {batch : Batch}
    (h : Serving c d moments c' w (.copying j present batch)) {answer : TransferReply}
    (halive : Stage.losesWorker (.copying d w j present batch) answer = false) :
    Reaches c d (⟨c', .reply (.copying d w j present batch) answer⟩ :: moments)
      (c'.resumeCopying d w j present batch answer) := by
  cases answer with
  | written returned => exact Serving.reaches_noteChunk hvalid h (ends_written returned)
  | failed e => exact Serving.reaches_noteChunk hvalid h (ends_uncopied e)
  | crashed => cases halive

/-- Whatever else happens, no chunk ends. -/
theorem Serving.reaches_aside (h : Serving c d moments c' w errand) {happening : Happening}
    (haside : happening.IsAside) :
    Reaches c d (⟨c', happening⟩ :: moments) (happening.turn c') := by
  have hsilent : Moment.errand? ⟨c', happening⟩ = none := by
    cases happening with
    | reply => exact haside.elim
    | _ => rfl
  have htold : w.Told c (⟨c', happening⟩ :: moments) (errand :: w.others.map (·.2)) := by
    have htold := h.told
    rw [← h.errands_eq] at htold ⊢
    exact htold.aside hsilent h.inFlight_eq
  have hcut : w.CutBy c (⟨c', happening⟩ :: moments) := Workload.cutBy_cons h.inFlight_eq
  have hsame : ∀ outcome, Reaches c d (⟨c', happening⟩ :: moments) ⟨c', outcome⟩ := fun _ =>
    .serving ⟨h.task, h.stage, h.serves, htold⟩
  have hrecancel : ∀ (c₁ : Coordinator) (f : Target → Bool), SameTask c c₁ →
      Reaches c d (⟨c', happening⟩ :: moments) (c₁.wait (errand.stage d (w.recancel f))) := by
    intro c₁ f task
    exact .serving ⟨task.trans ⟨rfl, rfl⟩, rfl, (Workload.segments_recancel f w).trans h.serves,
      htold.recancel f⟩
  clear hsilent
  cases happening with
  | reply s answer => exact haside.elim
  | begin =>
    simp only [Happening.turn, begin, h.stage, Option.isSome_some, if_true]
    exact hsame _
  | announce layout =>
    simp only [Happening.turn]
    cases hrequired : layout.requirement c'.node c'.trimMark with
    | error e =>
      simp only [adaptTo, hrequired]
      exact hsame none
    | ok required =>
      rw [adaptTo_of_stage h.stage hrequired]
      exact hrecancel c' _ h.task
  | shutdown =>
    simp only [Happening.turn]
    rw [shutdown_of_stage h.stage]
    exact hrecancel { c' with stopped := true } _ (h.task.trans ⟨rfl, rfl⟩)
  | switch k =>
    simp only [Happening.turn]
    rw [switch_of_stage h.stage]
    cases hk : w.others[k]? with
    | none => exact hsame none
    | some p =>
      obtain ⟨worker, errand'⟩ := p
      refine .serving ⟨h.task.trans ⟨rfl, rfl⟩, rfl, h.serves, ?_⟩
      refine htold.of_targets rfl rfl rfl ?_
      have hperm : ((w.others.set k (w.worker, errand)).map (·.2) ++ [errand']).Perm
          (w.others.map (·.2) ++ [errand]) := by
        simpa only [Workload.park, List.map_append, List.map_cons, List.map_nil] using
          (@Workload.perm_others_switch w errand errand' k worker hk).map (·.2)
      exact (List.perm_append_singleton _ _).symm.trans
        (hperm.trans (List.perm_append_singleton _ _))
  | hire =>
    simp only [Happening.turn]
    rw [hire_of_stage h.stage]
    split
    · exact hsame none
    · refine reaches_nextChunk hvalid h.task h.serves ?_ hcut
      refine htold.of_targets rfl rfl rfl ?_
      simp [Workload.hire, Workload.park]
  | abandon =>
    simp only [Happening.turn]
    rw [abandon_of_stage h.stage, h.told.crashed_eq]
    exact hsame none

/-- Whatever happens, chunks are handed out and end as they should. -/
theorem Serving.reaches_turn (h : Serving c d moments c' w errand) {happening : Happening}
    (possible : happening.Possible c') (alive : ¬Moment.LosesWorker ⟨c', happening⟩) :
    Reaches c d (⟨c', happening⟩ :: moments) (happening.turn c') := by
  rcases happening.isAside_or_reply with haside | ⟨s, answer, rfl⟩
  · exact Serving.reaches_aside hvalid h haside
  · obtain rfl := Option.some.inj (h.stage.symm.trans possible)
    cases errand with
    | checking j span => exact Serving.reaches_checking hvalid h (Bool.eq_false_iff.mpr alive)
    | copying j present batch =>
      exact Serving.reaches_copying hvalid h (Bool.eq_false_iff.mpr alive)

/-- The copying begins. If there is nothing to copy it ends at once. -/
theorem reaches_copy (hnone : d.withFates [] = d) : Reaches c d [] (c.copy d) := by
  cases hdue : d.tracked.filter (·.isDue) with
  | nil =>
    have hturn : c.copy d = c.afterCopying (d.withFates []) := by rw [copy, hdue, hnone]
    refine .ended (.refl c) hturn ⟨?_, fun i s hs => ?_, fun i s fate hs => ?_⟩
    · rw [List.countP_eq_length_filter, hdue]
      rfl
    · rw [hdue] at hs
      cases hs
    · rw [hdue] at hs
      cases hs
  | cons s rest =>
    have hle : ∀ s ∈ d.tracked.filter (·.isDue), s.first ≤ s.last := by
      intro s hs
      obtain ⟨hs, hdue⟩ := List.mem_filter.mp hs
      exact (hvalid s hs hdue).first_le_last
    obtain ⟨htold, hcut⟩ := @Workload.told_targetOf c _ hle d.layout
      c.settings.maxConcurrentBatches.toNat
    have hserves : Serves d (.ofTargets ((d.tracked.filter (·.isDue)).map (c.targetOf d.layout))
        c.settings.maxConcurrentBatches.toNat) := by
      rw [Serves, Workload.ofTargets, List.map_map]
      exact List.map_id _
    rw [copy, hdue]
    rw [hdue] at htold hcut hserves
    exact reaches_nextChunk hvalid ⟨rfl, rfl⟩ hserves htold hcut

end

/-! ## The run of a cycle -/

section

variable {c c' : Coordinator} {d : Draft} {moments : List Moment} {turn : Turn}
  {fates : List (TrackedSegment × Bool)}

theorem errands_of_idle (h : c.workload? = none) : c.errands = [] := by
  rw [workload?] at h
  unfold errands
  cases hstage : c.stage with
  | none => rfl
  | some s =>
    rw [hstage, Option.bind_some] at h
    cases s with
    | checking | copying => cases h
    | _ => rfl

theorem errand?_of_idle (h : c.workload? = none) {happening : Happening}
    (possible : happening.Possible c) : Moment.errand? ⟨c, happening⟩ = none := by
  cases happening with
  | reply s answer =>
    have hstage : c.stage = some s := possible
    rw [workload?, hstage, Option.bind_some] at h
    cases s with
    | checking | copying => cases h
    | _ => rfl
  | _ => rfl

theorem Closed.cons (h : Closed c d moments fates) {m : Moment}
    (hidle : m.before.workload? = none) (hm : m.errand? = none) :
    Closed c d (m :: moments) fates := by
  refine ⟨h.length_eq, fun i s hs => ?_, fun i s fate hs hfate => ?_⟩
  · have hleaves := leaves_aside hm i
    have hhanded := h.handed i s hs
    rw [errands_of_idle hidle] at hleaves
    rw [← errands_of_idle hidle] at hhanded
    exact hhanded.cons hleaves
  · obtain ⟨hleft, hcut⟩ := h.left i s fate hs hfate
    exact ⟨hleft.aside hm, fun hshort => (hcut hshort).cons m⟩

/-- Whatever is answered, the cycle goes on. -/
theorem CycleRun.reply {start : Turn} (run : CycleRun start moments turn) {s : Stage}
    (hstage : turn.coordinator.stage = some s) (answer : s.query.Reply)
    (halive : s.losesWorker answer = false) :
    CycleRun start (⟨turn.coordinator, .reply s answer⟩ :: moments)
      (turn.coordinator.resume s answer) := by
  refine run.cons ?_ (.reply s answer) hstage ?_
  · rw [hstage]
    rfl
  · exact Bool.eq_false_iff.mp halive

/-- Where a cycle stands that began to copy the draft. -/
inductive Standing (c : Coordinator) (d : Draft) (moments : List Moment) (turn : Turn) : Prop
  | serving {w : Workload} {errand : Errand}
      (h : Serving c d moments turn.coordinator w errand)
  | ended {fates : List (TrackedSegment × Bool)} (copied : CopiedAs c d moments turn fates)
      (carries : Carries (d.withFates fates).report turn) (closed : Closed c d moments fates)

theorem Reaches.standing (h : Reaches c d moments turn)
    (hrun : CycleRun (c.copy d) moments turn) : Standing c d moments turn := by
  cases h with
  | serving h => exact .serving h
  | ended task turn_eq closed =>
    subst turn_eq
    exact .ended ⟨⟨_, [], moments, task, rfl, hrun, .refl⟩, closed.length_eq, closed.left⟩
      (carries_afterCopying _ _) closed

/-- Whatever happens, the cycle stands somewhere. -/
theorem CycleRun.standing (hvalid : ∀ s ∈ d.tracked, s.isDue = true → s.Valid)
    (hnone : d.withFates [] = d) (hrun : CycleRun (c.copy d) moments turn) :
    Standing c d moments turn := by
  induction hrun with
  | refl => exact (reaches_copy hvalid hnone).standing .refl
  | @cons moments turn run running happening possible alive ih =>
    have hrun := run.cons running happening possible alive
    cases ih with
    | serving h => exact (Serving.reaches_turn hvalid h possible alive).standing hrun
    | ended copied carries closed =>
      have hidle := carries.workload?_eq_none
      have hclosed := closed.cons (m := ⟨turn.coordinator, happening⟩) hidle
        (errand?_of_idle hidle possible)
      obtain ⟨c', later, earlier, task, rfl, hearlier, hlater⟩ := copied.ended
      exact .ended ⟨⟨c', _ :: later, earlier, task, rfl, hearlier,
          hlater.cons running happening possible alive⟩, hclosed.length_eq, hclosed.left⟩
        (carries.turn running possible) hclosed

/-! ## What is counted -/

/-- A segment that was copied failed or is transferred, and one that was cut short is counted
besides. -/
theorem counts_fates (hattempted : ∀ fate ∈ fates, fate.2 = false →
      fate.1.state = .failed ∨ fate.1.state = .transferred) (r : Report) :
    (tallyFates r fates).transferred + (tallyFates r fates).failed +
      (tallyFates r fates).cancelled = fates.length := by
  simp only [tallyFates, countIn, List.countP_map]
  induction fates with
  | nil => rfl
  | cons fate fates ih =>
    obtain ⟨hfate, hrest⟩ := List.forall_mem_cons.mp hattempted
    have hsum := ih hrest
    obtain ⟨s, short⟩ := fate
    cases short with
    | true =>
      simp at hsum ⊢
      omega
    | false =>
      rcases hfate rfl with hstate | hstate <;> simp [hstate] at hsum ⊢ <;> omega

/-- Every target is counted once in the report of the cycle. -/
theorem Closed.counts (h : Closed c d moments fates) (r : Report) :
    (tallyFates r fates).transferred + (tallyFates r fates).failed +
      (tallyFates r fates).cancelled = d.tracked.countP (·.isDue) := by
  rw [← h.length_eq]
  refine counts_fates (fun fate hfate hwhole => ?_) r
  obtain ⟨i, hi⟩ := List.mem_iff_getElem?.mp hfate
  have hlength : fates.length = (d.tracked.filter (·.isDue)).length := by
    rw [h.length_eq, List.countP_eq_length_filter]
  obtain ⟨s, hs⟩ : ∃ s, (d.tracked.filter (·.isDue))[i]? = some s :=
    ⟨_, List.getElem?_eq_getElem (hlength ▸ (List.getElem?_eq_some_iff.mp hi).1)⟩
  obtain ⟨failure, hprogress, -⟩ := (h.left i s fate hs hi).1.of_whole hwhole
  rw [state, hprogress]
  exact (s.outcome_cases _ failure).2

/-! ## What is cut short -/

/-- A target of which all chunks are handed out is not asked for more. -/
theorem Standing.spent (h : Standing c d moments turn) {i : Nat} {s : TrackedSegment}
    (hs : (d.tracked.filter (·.isDue))[i]? = some s)
    (hall : (c.cursorOf s).range? (started moments turn.coordinator.errands i).length = none) :
    turn.coordinator.Spent i := by
  cases h with
  | @serving w errand h =>
    have hserves := h.serves
    rw [← hserves, List.getElem?_map] at hs
    obtain ⟨t, ht, rfl⟩ := Option.map_eq_some_iff.mp hs
    rw [h.errands_eq, Cursor.range?_eq_none_iff, ← (h.told.targets i t ht).cursor_eq] at hall
    intro s hs
    rw [h.stage] at hs
    cases hs
    refine spent_stage.mpr fun hqueued => ?_
    rw [((h.told.queued.targets i t ht).waits hqueued).1] at hall
    cases hall
  | ended _ carries => exact carries.flagged.1

theorem Standing.handedOut (h : Standing c d moments turn) {i : Nat} {s : TrackedSegment}
    (hs : (d.tracked.filter (·.isDue))[i]? = some s) :
    HandedOut moments turn.coordinator.errands i c s := by
  cases h with
  | @serving w errand h =>
    have hserves := h.serves
    rw [← hserves, List.getElem?_map] at hs
    obtain ⟨t, ht, rfl⟩ := Option.map_eq_some_iff.mp hs
    rw [h.errands_eq]
    exact (h.told.targets i t ht).handed
  | ended _ carries closed =>
    rw [errands_of_idle carries.workload?_eq_none]
    exact closed.handed i s hs

/-- The cycle goes on with the list in which every segment that needed a copy has given its place to
its fate. -/
theorem CopiedAs.renewed {fates : List (TrackedSegment × Bool)}
    (h : CopiedAs c d moments turn fates) :
    Renewed (fun i s u => ∃ fate, fates[i]? = some fate ∧ u = fate.1 ∧
      s.LeftAs (c.cursorOf s) moments i fate) d.tracked (d.withFates fates).tracked := by
  have hlength : fates.length = (d.tracked.filter (·.isDue)).length := by
    rw [h.length_eq, List.countP_eq_length_filter]
  exact renewed_fates hlength fun i s fate hs hfate =>
    ⟨fate, hfate, rfl, (h.left i s fate hs hfate).1⟩

theorem withFates_draftOf (layout : Layout) (trimMark : Address) (tracked : List TrackedSegment) :
    (draftOf layout trimMark tracked).withFates [] = draftOf layout trimMark tracked := by
  rw [Draft.withFates, List.map_nil, replaceCandidates_nil]
  rfl

/-- A cycle copies, while layouts and a shutdown cut targets short at any time, and no worker dies.
Of each target the first chunks are handed out, but none any more once it is cut short, and all that
is missing of a chunk is asked for. A target of which all chunks are handed out ends as if it had
been cut short, or had not been. At the end a target of which chunks are left keeps its state and
the cause of its failure, and every other was attempted; only what was cut short has chunks left.
Both count all that the replies credit. The report counts every target once. -/
theorem cancels_exactly {c : Coordinator} {layout : Layout} {trimMark : Address}
    {tracked : List TrackedSegment} (hvalid : ∀ s ∈ tracked, s.isDue = true → s.Valid)
    {moments : List Moment} {turn : Turn}
    (hrun : CycleRun (c.copy (draftOf layout trimMark tracked)) moments turn) :
    (∀ (i : Nat) (s : TrackedSegment), (tracked.filter (·.isDue))[i]? = some s →
      HandedOut moments turn.coordinator.errands i c s ∧
      ((c.cursorOf s).range? (started moments turn.coordinator.errands i).length = none →
        ∀ (b : Bool) (later : List Moment) (turn' : Turn), CycleRun turn later turn' →
          turn'.coordinator.workload? = none →
            ∃ later', CycleRun (turn.flag i b) later' turn' ∧
              List.Forall₂ (Moment.SameBut i) later later')) ∧
    (turn.coordinator.workload? = none → ∃ fates,
      CopiedAs c (draftOf layout trimMark tracked) moments turn fates ∧
      ∀ report, turn.outcome = some (.ok report) →
        report.cancelled = fates.countP (·.2) ∧
        report.candidates = report.transferred + report.failed + report.cancelled) := by
  have hstanding := hrun.standing hvalid (withFates_draftOf layout trimMark tracked)
  refine ⟨fun i s hs => ⟨hstanding.handedOut hs, fun hall b later turn' hlater hended =>
    hlater.same_end (hstanding.spent hs hall) hended b⟩, fun hended => ?_⟩
  cases hstanding with
  | serving h =>
    rw [workload?, h.stage, Option.bind_some, Errand.workload?_stage] at hended
    cases hended
  | @ended fates copied carries closed =>
    refine ⟨fates, copied, fun report hreport => ?_⟩
    have hsame := carries.outcome report hreport
    have hcounts := closed.counts (draftOf layout trimMark tracked).report
    refine ⟨hsame.cancelled_eq, ?_⟩
    rw [hsame.candidates_eq, hsame.transferred_eq, hsame.failed_eq, hsame.cancelled_eq]
    exact hcounts.symm

end

/-- A later layout, that lists the node for the first segment that is missing. -/
def servedLayout : Layout := ⟨5, [⟨0, 5, [⟨["a", "n"]⟩]⟩, ⟨5, 12, [⟨["a"]⟩]⟩]⟩

/-- The workload of the two segments once the first is cut short. -/
def servedWork (tallies : List (Nat × Tally)) (second : Address) (queue : List Nat) : Workload :=
  ⟨[⟨⟨⟨0, 4⟩, .failed 1 ⟨"operation cancelled"⟩⟩, ["a"], ⟨some 3, 4, 3⟩, true, tallies⟩,
    ⟨⟨⟨10, 11⟩, .notTransferred 0⟩, ["a"], ⟨some second, 11, 3⟩, false, []⟩],
    queue, 3, 3, [], false⟩

/-- The list after that: the first segment was cut short, and the last has failed for a cause. -/
def servedTracked (cause : Failure) : List TrackedSegment :=
  [⟨⟨0, 4⟩, .failed 3 ⟨"operation cancelled"⟩⟩, ⟨⟨5, 9⟩, .restored 5⟩, ⟨⟨10, 11⟩, .failed 1 cause⟩]

/-- What the replies credit and fail tells what stands at each place. -/
theorem exists_servedTracked {moments : List Moment} {turn : Turn}
    {fates : List (TrackedSegment × Bool)}
    (h : CopiedAs copiesByThree missingTwo moments turn fates)
    (hfirst : started moments [] 0 = [⟨0, 2⟩]) (hthree : credited moments 0 = 3)
    (hsecond : started moments [] 1 = [⟨10, 11⟩]) (hone : credited moments 1 = 1)
    (hfails : ∃ m ∈ moments, m.Fails 1) :
    ∃ cause, (missingTwo.withFates fates).tracked = servedTracked cause := by
  -- The two targets stand at the first and the last place, and the one between them stays.
  have hrenewed := h.renewed
  obtain ⟨a, b, c, hlist⟩ := List.length_eq_three.mp hrenewed.length_eq
  rw [hlist] at hrenewed ⊢
  obtain ⟨u, hu, fate, -, rfl, hcut⟩ := hrenewed.renewed 0 _ rfl rfl
  obtain ⟨v, hv, fate', -, rfl, hwhole⟩ := hrenewed.renewed 2 _ rfl rfl
  have ha := hcut.eq_of_cut (i := 0) (by rw [hfirst]; decide +kernel)
  obtain ⟨failure, hc, hfailure⟩ :=
    hwhole.exists_of_whole (i := 1) (by rw [hsecond]; decide +kernel)
  obtain ⟨m, hm, hfails⟩ := hfails
  cases failure with
  | none => exact absurd hfails (hfailure.mp rfl m hm)
  | some cause =>
    obtain rfl : a = fate.1 := Option.some.inj hu
    obtain rfl : b = ⟨⟨5, 9⟩, .restored 5⟩ := Option.some.inj (hrenewed.kept 1 _ rfl rfl)
    obtain rfl : c = fate'.1 := Option.some.inj hv
    rw [ha, hc, hthree, hone]
    exact ⟨cause, rfl⟩

/-- A layout is announced while the first chunk is checked. All of that chunk turns out to be held,
and of the next, of the other segment, only a part is copied. -/
theorem cancels_exactly_of_served : ∃ moments turn fates cause,
    CycleRun (copiesByThree.copy missingTwo) moments turn ∧
      (∃ m ∈ moments, m.before.CutShort 0) ∧
      turn.outcome =
        some (.ok { epoch := 4, trimMark := -1, candidates := 2, failed := 1, cancelled := 1 }) ∧
      CopiedAs copiesByThree missingTwo moments turn fates ∧ fates.countP (·.2) = 1 ∧
      (missingTwo.withFates fates).tracked = servedTracked cause ∧
      turn.coordinator.tracked =
        servedTracked ⟨"wrote 1 of 2 addresses in batch starting at 10"⟩ := by
  have hcut : CycleRun (copiesByThree.copy missingTwo) _ _ :=
    CycleRun.refl.cons (by decide +kernel) (.announce servedLayout) trivial id
  have hstage : ((copiesByThree.copy missingTwo).coordinator.adaptTo servedLayout).1.stage =
      some (.checking missingTwo (servedWork [] 10 [1, 0]) 0 ⟨0, 2⟩) := by decide +kernel
  have hshort :
      ((copiesByThree.copy missingTwo).coordinator.adaptTo servedLayout).1.CutShort 0 := by
    rw [CutShort, inFlight_of_stage hstage rfl]
    exact ⟨_, rfl, rfl⟩
  have hheld := hcut.reply hstage (.ok [0, 1, 2]) (by decide)
  have hrest : CycleRun (copiesByThree.copy missingTwo) _ _ := hheld.reply
    (s := .checking missingTwo (servedWork [(3, { present := 3 })] 12 [0]) 1 ⟨10, 11⟩)
    (by decide +kernel) (.ok []) (by decide)
  have hrun := hrest.reply
    (s := .copying missingTwo (servedWork [(3, { present := 3 })] 12 [0]) 1 0
      ⟨[10, 11], some ["a"]⟩) (by decide +kernel) (.written [11]) (by decide)
  obtain ⟨-, hend⟩ := cancels_exactly valid_missingTwo hrun
  obtain ⟨fates, hcopied, hreport⟩ := hend (by decide +kernel)
  obtain ⟨hcancelled, -⟩ := hreport
    { epoch := 4, trimMark := -1, candidates := 2, failed := 1, cancelled := 1 } (by decide +kernel)
  obtain ⟨cause, htracked⟩ := exists_servedTracked hcopied (by decide +kernel) (by decide +kernel)
    (by decide +kernel) (by decide +kernel) ⟨_, List.mem_cons_self, rfl, by decide⟩
  exact ⟨_, _, fates, cause, hrun,
    ⟨_, List.mem_cons_of_mem _ (List.mem_cons_of_mem _ List.mem_cons_self), hshort⟩,
    by decide +kernel, hcopied, hcancelled.symm, htracked, by decide +kernel⟩

end Coordinator

end LogRepair
