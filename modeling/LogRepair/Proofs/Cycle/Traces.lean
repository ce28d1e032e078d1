import LogRepair.Proofs.Cycle.Exact

/-!
# What the replies say of the targets

Each target of a workload can be told from the replies about it: which addresses were asked about,
and what came of the chunks that ended.

* `Target.Asked`: the cursor of the target has left behind just what was asked about.
* `Target.Ended`: the tallies of the target are those of the chunks that ended.
* `Target.Queued`: a target that is not queued was cut short exactly if its cursor is not through.
* `Workload.Traced.take`, `Workload.Traced.retire`, `Workload.Traced.note`: what workers do keeps
  all of this.
* `Target.resolved`: a target that is not queued any more is closed as the replies say.
-/

namespace LogRepair

open TrackedSegment

/-! ## Where the failure of a target comes from -/

namespace Tally

theorem failure_note_some {t : Tally} {o : ChunkOutcome} {f : Failure}
    (h : (t.note o).failure = some f) : o.failure? = some f ∨ t.failure = some f := by
  cases o with
  | processed present result =>
    rcases Option.or_eq_some_iff.mp h with hbefore | ⟨-, hnow⟩
    · exact Or.inr hbefore
    · exact Or.inl hnow
  | held | dropped => exact Or.inr h

theorem failure_noteFor_some {worker : Nat} {o : ChunkOutcome} {ts : List (Nat × Tally)}
    {p : Nat × Tally} (hp : p ∈ noteFor worker o ts) {f : Failure} (h : p.2.failure = some f) :
    o.failure? = some f ∨ ∃ q ∈ ts, q.2.failure = some f := by
  fun_induction noteFor worker o ts with
  | case1 =>
    rw [List.mem_singleton.mp hp] at h
    refine Or.inl ((failure_note_some h).resolve_right fun hnone => ?_)
    cases hnone
  | case2 t rest =>
    rcases List.mem_cons.mp hp with rfl | hp
    · exact (failure_note_some h).imp id fun hbefore => ⟨_, List.mem_cons_self, hbefore⟩
    · exact Or.inr ⟨p, List.mem_cons_of_mem _ hp, h⟩
  | case3 k t rest hk ih =>
    rcases List.mem_cons.mp hp with rfl | hp
    · exact Or.inr ⟨_, List.mem_cons_self, h⟩
    · refine (ih hp).imp id ?_
      rintro ⟨q, hq, hbefore⟩
      exact ⟨q, List.mem_cons_of_mem _ hq, hbefore⟩

theorem exists_of_failure_foldl {t : Tally} {us : List Tally} {f : Failure}
    (h : (us.foldl append t).failure = some f) :
    t.failure = some f ∨ ∃ u ∈ us, u.failure = some f := by
  induction us generalizing t with
  | nil => exact Or.inl h
  | cons u us ih =>
    rcases ih h with hfirst | ⟨v, hv, hrest⟩
    · rcases Option.or_eq_some_iff.mp hfirst with hbefore | ⟨-, hnow⟩
      · exact Or.inl hbefore
      · exact Or.inr ⟨u, List.mem_cons_self, hnow⟩
    · exact Or.inr ⟨v, List.mem_cons_of_mem _ hv, hrest⟩

end Tally

theorem Target.exists_of_failure {t : Target} {f : Failure} (h : t.tally.failure = some f) :
    ∃ p ∈ t.tallies, p.2.failure = some f := by
  rcases Tally.exists_of_failure_foldl h with hnone | ⟨u, hu, hfailure⟩
  · cases hnone
  · obtain ⟨p, hp, rfl⟩ := List.mem_map.mp hu
    exact ⟨p, hp, hfailure⟩

/-! ## What one target has seen -/

namespace Target

/-- The tallies of the target are those of the chunks of it that ended. -/
structure Ended (ended : List ChunkOutcome) (t : Target) : Prop where
  total_eq : t.tally.total = (ended.map ChunkOutcome.amount).sum
  failure_eq_none : t.tally.failure = none ↔ ∀ o ∈ ended, o.failure? = none
  exists_failure : ∀ p ∈ t.tallies, ∀ f, p.2.failure = some f → ∃ o ∈ ended, o.failure? = some f

/-- The cursor of the target has left behind just the addresses that were asked about. -/
structure Asked (asked : Address → Prop) (t : Target) : Prop where
  confined : t.Confined
  asked_of_passed : ∀ x ∈ t.segment.toSpan, t.cursor.Passed x → asked x
  left_of_asked : ∀ x, asked x → t.cursor.Left x

/-- A target that is queued has chunks left and was not cut short. One that is not queued was cut
short exactly if it has chunks left. -/
structure Queued (queued : Prop) (t : Target) : Prop where
  waits : queued → t.cursor.isDone = false ∧ t.tally.cancelled = false
  cut_iff : ¬queued → (t.tally.cancelled = true ↔ t.cursor.isDone = false)

section

variable {t : Target} {ended : List ChunkOutcome} {asked asked' : Address → Prop}
  {queued queued' : Prop}

theorem Ended.note (h : t.Ended ended) (worker : Nat) (o : ChunkOutcome) :
    (t.note worker o).Ended (o :: ended) := by
  refine ⟨?_, ?_, fun p hp f hf => ?_⟩
  · rw [total_note, h.total_eq, List.map_cons, List.sum_cons, add_comm]
  · rw [failure_note, h.failure_eq_none, List.forall_mem_cons]
  · rcases Tally.failure_noteFor_some hp hf with hnow | ⟨q, hq, hbefore⟩
    · exact ⟨o, List.mem_cons_self, hnow⟩
    · obtain ⟨o', ho', hfailure⟩ := h.exists_failure q hq f hbefore
      exact ⟨o', List.mem_cons_of_mem _ ho', hfailure⟩

/-- Dropping the rest of the target counts nothing. -/
theorem Ended.drop (h : t.Ended ended) (worker : Nat) : (t.note worker .dropped).Ended ended := by
  refine ⟨?_, ?_, fun p hp f hf => ?_⟩
  · rw [total_note, h.total_eq]
    exact add_zero _
  · rw [failure_note, h.failure_eq_none]
    exact and_iff_right rfl
  · rcases Tally.failure_noteFor_some hp hf with hnow | ⟨q, hq, hbefore⟩
    · cases hnow
    · exact h.exists_failure q hq f hbefore

theorem Ended.retire (h : t.Ended ended) (worker : Nat) : (t.retire worker).Ended ended := by
  refine ⟨?_, ?_, fun p hp => ?_⟩
  · rw [total_retire, h.total_eq]
  · rw [failure_retire, h.failure_eq_none]
  · exact h.exists_failure p ((t.mem_tallies_retire worker p).mp hp)

/-- Only the tallies matter. -/
theorem Ended.of_tallies (h : t.Ended ended) {t' : Target} (htallies : t'.tallies = t.tallies) :
    t'.Ended ended := by
  have htally : t'.tally = t.tally := by rw [tally, tally, htallies]
  refine ⟨?_, ?_, ?_⟩
  · rw [htally, h.total_eq]
  · rw [htally, h.failure_eq_none]
  · rw [htallies]
    exact h.exists_failure

/-- Only the segment and the cursor matter. -/
theorem Asked.of_cursor (h : t.Asked asked) {t' : Target} (hsegment : t'.segment = t.segment)
    (hcursor : t'.cursor = t.cursor) : t'.Asked asked := by
  refine ⟨?_, ?_, ?_⟩
  · rw [Confined, hsegment, hcursor]
    exact h.confined
  · rw [hsegment, hcursor]
    exact h.asked_of_passed
  · rw [hcursor]
    exact h.left_of_asked

theorem Asked.imp (h : t.Asked asked) (hasked : ∀ x, asked' x ↔ asked x) : t.Asked asked' :=
  ⟨h.confined, fun x hx hpassed => (hasked x).mpr (h.asked_of_passed x hx hpassed),
    fun x hx => h.left_of_asked x ((hasked x).mp hx)⟩

/-- A chunk that is handed out is asked about. -/
theorem Asked.advance (h : t.Asked asked) {span : Span} {cursor : Cursor}
    (hnext : t.cursor.next? = some (span, cursor)) :
    Target.Asked (fun x => asked x ∨ x ∈ span) { t with cursor } := by
  obtain ⟨hfirst, hwithin⟩ := h.confined
  have hsteady : t.cursor.Steady := fun p hp =>
    (hwithin.first_le p hp).imp (Int64.le_trans hfirst) And.left
  refine ⟨⟨hfirst, (hwithin.next hfirst hnext).2⟩, fun x hx hpassed => ?_, fun x hx => ?_⟩
  · have hnonneg : 0 ≤ x := Int64.le_trans hfirst hx.1
    exact (Cursor.passed_or_mem hnext hsteady hnonneg hpassed).imp (h.asked_of_passed x hx) And.left
  · rcases hx with hx | hx
    · exact ((h.left_of_asked x hx).next hnext).2
    · exact hwithin.left_of_mem hfirst hnext hx

/-- A target that is through was asked about as a whole, and one that is not was not. -/
theorem Asked.isDone_iff (h : t.Asked asked) (hle : t.segment.first ≤ t.segment.last) :
    t.cursor.isDone = true ↔ ∀ x ∈ t.segment.toSpan, asked x := by
  have hlast : t.cursor.last = t.segment.last := h.confined.2.last_eq
  constructor
  · intro hdone x hx
    refine h.asked_of_passed x hx (Cursor.passed_of_isDone hdone ?_)
    rw [hlast]
    exact hx.2
  · intro hall
    have hpassed := (h.left_of_asked _ (hall t.segment.last ⟨hle, Int64.le_refl _⟩)).2
    unfold Cursor.isDone
    split
    · rfl
    · next p hp =>
      rw [hlast]
      exact decide_eq_true (hpassed p hp)

theorem Queued.imp (h : t.Queued queued) (hqueued : queued' ↔ queued) : t.Queued queued' :=
  ⟨fun hq => h.waits (hqueued.mp hq), fun hq => h.cut_iff (mt hqueued.mpr hq)⟩

theorem Queued.note (h : t.Queued queued) (worker : Nat) {o : ChunkOutcome} (ho : o ≠ .dropped) :
    (t.note worker o).Queued queued := by
  have hsame := t.cancelled_note_of_ne worker ho
  refine ⟨fun hq => ?_, fun hq => ?_⟩
  · rw [hsame]
    exact h.waits hq
  · rw [hsame]
    exact h.cut_iff hq

theorem Queued.retire (h : t.Queued queued) (worker : Nat) : (t.retire worker).Queued queued := by
  refine ⟨fun hq => ?_, fun hq => ?_⟩
  · rw [cancelled_retire]
    exact h.waits hq
  · rw [cancelled_retire]
    exact h.cut_iff hq

end

end Target

/-! ## What all targets have seen -/

namespace Workload

/-- No target is queued twice, and the queue tells which targets were cut short. -/
structure Queued (targets : List Target) (queue : List Nat) : Prop where
  nodup : queue.Nodup
  targets : ∀ (i : Nat) (t : Target), targets[i]? = some t → t.Queued (i ∈ queue)

section

variable {targets : List Target} {i : Nat} {queue queue' : List Nat}

/-- A target leaves the head of the queue, and perhaps goes to its end. -/
theorem Queued.set {t t' : Target} (h : Queued targets (i :: queue)) (ht : targets[i]? = some t)
    (hqueue' : queue'.Nodup) (hmem : ∀ j, j ≠ i → (j ∈ queue' ↔ j ∈ queue))
    (ht' : t'.Queued (i ∈ queue')) : Queued (targets.set i t') queue' := by
  refine ⟨hqueue', fun j u hu => ?_⟩
  by_cases hij : i = j
  · rw [← hij, List.getElem?_set_self (List.getElem?_eq_some_iff.mp ht).1] at hu
    cases hu
    rwa [← hij]
  · rw [List.getElem?_set_ne hij] at hu
    refine (h.targets j u hu).imp ?_
    rw [hmem j (Ne.symm hij), List.mem_cons]
    exact (or_iff_right (Ne.symm hij)).symm

/-- A place in the queue that is no target leaves it. -/
theorem Queued.skip (h : Queued targets (i :: queue)) (ht : targets[i]? = none) :
    Queued targets queue := by
  refine ⟨h.nodup.of_cons, fun j u hu => (h.targets j u hu).imp ?_⟩
  have hji : j ≠ i := by
    rintro rfl
    rw [ht] at hu
    cases hu
  rw [List.mem_cons]
  exact (or_iff_right hji).symm

theorem queued_takeFrom (h : Queued targets queue) (worker : Nat) :
    match takeFrom worker targets queue with
    | (targets', some (_, _, queue')) => Queued targets' queue'
    | (targets', none) => Queued targets' [] := by
  fun_induction takeFrom worker targets queue with
  | case1 => exact h
  | case2 targets i queue hnone ih => exact ih (h.skip hnone)
  | case3 targets i queue t ht hcancelled ih =>
    -- It had chunks left, for it was queued.
    obtain ⟨hleft, -⟩ := (h.targets i t ht).waits List.mem_cons_self
    obtain ⟨hi, hnodup⟩ := List.nodup_cons.mp h.nodup
    have hcut := (t.cancelled_note worker .dropped).mpr (Or.inl rfl)
    exact ih (h.set ht hnodup (fun _ _ => Iff.rfl)
      ⟨fun hq => absurd hq hi, fun _ => iff_of_true hcut hleft⟩)
  | case4 targets i queue t ht hcancelled hnext ih =>
    obtain ⟨hleft, -⟩ := (h.targets i t ht).waits List.mem_cons_self
    rw [Cursor.isDone_of_next?_eq_none hnext] at hleft
    cases hleft
  | case5 targets i queue t ht hcancelled span cursor hnext =>
    obtain ⟨-, hwhole⟩ := (h.targets i t ht).waits List.mem_cons_self
    obtain ⟨hi, hnodup⟩ := List.nodup_cons.mp h.nodup
    by_cases hdone : cursor.isDone = true
    · simp only [if_pos hdone]
      refine h.set ht hnodup (fun _ _ => Iff.rfl) ⟨fun hq => absurd hq hi, fun _ => ?_⟩
      exact iff_of_false (Bool.eq_false_iff.mp hwhole) (ne_of_eq_of_ne hdone Bool.true_eq_false.mp)
    · simp only [if_neg hdone]
      refine h.set ht ?_ (fun j hj => ?_) ⟨fun _ => ⟨Bool.eq_false_iff.mpr hdone, hwhole⟩, ?_⟩
      · exact List.nodup_append.mpr ⟨hnodup, List.nodup_singleton i, fun a ha b hb => by
          rw [List.mem_singleton.mp hb]
          rintro rfl
          exact hi ha⟩
      · rw [List.mem_append, List.mem_singleton]
        exact or_iff_left hj
      · exact fun hq => absurd (List.mem_append_right _ List.mem_cons_self) hq

end

section

variable {w w' : Workload}

theorem Queued.take (h : Queued w.targets w.queue) {i : Nat} {span : Span}
    (htake : w.take = (w', some (i, span))) : Queued w'.targets w'.queue := by
  obtain ⟨queue, heq, hw'⟩ := take_eq_some htake
  have htaken := queued_takeFrom h w.worker
  rw [heq] at htaken
  rw [hw']
  exact htaken

/-- A worker that finds nothing to take leaves an empty queue. -/
theorem Queued.retire (h : Queued w.targets w.queue) (htake : w.take = (w', none)) :
    Queued w'.retire.targets w'.retire.queue ∧ w'.retire.queue = [] := by
  obtain ⟨heq, hw'⟩ := take_eq_none htake
  have hqueued := queued_takeFrom h w.worker
  rw [heq] at hqueued
  have hempty : w'.queue = [] := by rw [hw']
  refine ⟨⟨hempty ▸ List.nodup_nil, fun i u hu => ?_⟩, hempty⟩
  obtain ⟨t, ht, rfl⟩ := exists_of_retire hu
  refine ((hqueued.targets i t ht).retire _).imp ?_
  rw [Workload.retire, hempty]

theorem Queued.recancel (h : Queued w.targets w.queue) (f : Target → Bool) :
    Queued (w.recancel f).targets (w.recancel f).queue := by
  refine ⟨h.nodup, fun i u hu => ?_⟩
  obtain ⟨t, ht, rfl⟩ := exists_of_recancel hu
  have hqueued := h.targets i t ht
  exact ⟨hqueued.waits, hqueued.cut_iff⟩

theorem Queued.note (h : Queued w.targets w.queue) (i : Nat) {o : ChunkOutcome}
    (ho : o ≠ .dropped) : Queued (w.note i o).targets (w.note i o).queue := by
  refine ⟨h.nodup, fun j u hu => ?_⟩
  obtain ⟨t, ht, rfl⟩ := exists_of_note hu
  have hqueued := h.targets j t ht
  split
  · exact hqueued.note w.worker ho
  · exact hqueued

/-- Before anything is handed out every target is queued. -/
theorem queued_ofTargets {targets : List Target} {workers : Nat}
    (hcursor : ∀ t ∈ targets, ∃ size, t.cursor = .ofSpan t.segment.toSpan size)
    (hle : ∀ t ∈ targets, t.segment.first ≤ t.segment.last)
    (htallies : ∀ t ∈ targets, t.tallies = []) :
    Queued (ofTargets targets workers).targets (ofTargets targets workers).queue := by
  refine ⟨List.nodup_range, fun i t ht => ?_⟩
  have hmem : t ∈ targets := List.mem_of_getElem? ht
  obtain ⟨size, hsize⟩ := hcursor t hmem
  refine ⟨fun _ => ⟨?_, ?_⟩, fun hq => ?_⟩
  · rw [hsize]
    exact decide_eq_false (Int64.not_lt.mpr (hle t hmem))
  · rw [Target.tally, htallies t hmem]
    rfl
  · exact absurd (List.mem_range.mpr (List.getElem?_eq_some_iff.mp ht).1) hq

end

/-- The targets have seen what the replies say: `asked` of each was asked about, and `ended` are the
chunks of it that ended. -/
structure Traced (asked : Nat → Address → Prop) (ended : Nat → List ChunkOutcome) (w : Workload) :
    Prop where
  asked : ∀ (i : Nat) (t : Target), w.targets[i]? = some t → t.Asked (asked i)
  ended : ∀ (i : Nat) (t : Target), w.targets[i]? = some t → t.Ended (ended i)
  queued : Queued w.targets w.queue

section

variable {asked asked' : Nat → Address → Prop} {ended : Nat → List ChunkOutcome}
  {w w' : Workload}

theorem Traced.imp (h : w.Traced asked ended) (hasked : ∀ i x, asked' i x ↔ asked i x) :
    w.Traced asked' ended :=
  ⟨fun i t ht => (h.asked i t ht).imp (hasked i), h.ended, h.queued⟩

/-- Only the targets and their queue matter. -/
theorem Traced.of_targets (h : w.Traced asked ended) (htargets : w'.targets = w.targets)
    (hqueue : w'.queue = w.queue) : w'.Traced asked ended := by
  refine ⟨?_, ?_, ?_⟩
  · rw [htargets]
    exact h.asked
  · rw [htargets]
    exact h.ended
  · rw [htargets, hqueue]
    exact h.queued

theorem Traced.take (h : w.Traced asked ended) {i : Nat} {span : Span}
    (htake : w.take = (w', some (i, span))) :
    w'.Traced (fun j x => asked j x ∨ j = i ∧ x ∈ span) ended := by
  obtain ⟨⟨t, cursor, ⟨hasked, hended⟩, -, hnext, hi⟩, hrest⟩ := forall_take_some
    (P := fun j t => t.Asked (asked j) ∧ t.Ended (ended j))
    (fun ht _ worker => ⟨ht.1.of_cursor rfl rfl, ht.2.drop worker⟩)
    (fun j t ht => ⟨h.asked j t ht, h.ended j t ht⟩) htake
  refine ⟨fun j u hu => ?_, fun j u hu => ?_, h.queued.take htake⟩
  · by_cases hji : j = i
    · rw [hji, hi] at hu
      cases hu
      exact (hasked.advance hnext).imp fun x => by rw [hji, and_iff_right rfl]
    · exact (hrest j u hji hu).1.imp fun x => or_iff_left fun hnow => hji hnow.1
  · by_cases hji : j = i
    · rw [hji, hi] at hu
      cases hu
      rw [hji]
      exact hended.of_tallies rfl
    · exact (hrest j u hji hu).2

/-- A worker that finds nothing to take leaves an empty queue. -/
theorem Traced.retire (h : w.Traced asked ended) (htake : w.take = (w', none)) :
    w'.retire.Traced asked ended ∧ w'.retire.queue = [] := by
  have htargets := forall_take_none
    (P := fun j t => t.Asked (asked j) ∧ t.Ended (ended j))
    (fun ht _ worker => ⟨ht.1.of_cursor rfl rfl, ht.2.drop worker⟩)
    (fun j t ht => ⟨h.asked j t ht, h.ended j t ht⟩) htake
  obtain ⟨hqueued, hempty⟩ := h.queued.retire htake
  refine ⟨⟨fun i u hu => ?_, fun i u hu => ?_, hqueued⟩, hempty⟩
  · obtain ⟨t, ht, rfl⟩ := exists_of_retire hu
    exact (htargets i t ht).1.of_cursor rfl rfl
  · obtain ⟨t, ht, rfl⟩ := exists_of_retire hu
    exact (htargets i t ht).2.retire _

theorem Traced.recancel (h : w.Traced asked ended) (f : Target → Bool) :
    (w.recancel f).Traced asked ended := by
  refine ⟨fun i u hu => ?_, fun i u hu => ?_, h.queued.recancel f⟩
  · obtain ⟨t, ht, rfl⟩ := exists_of_recancel hu
    exact (h.asked i t ht).of_cursor rfl rfl
  · obtain ⟨t, ht, rfl⟩ := exists_of_recancel hu
    exact (h.ended i t ht).of_tallies rfl

/-- A chunk that ends is one more of its target. -/
theorem Traced.note (h : w.Traced asked ended) (i : Nat) {o : ChunkOutcome} (ho : o ≠ .dropped) :
    (w.note i o).Traced asked fun j => if j = i then o :: ended j else ended j := by
  refine ⟨fun j u hu => ?_, fun j u hu => ?_, h.queued.note i ho⟩
  · obtain ⟨t, ht, rfl⟩ := exists_of_note hu
    have hasked := h.asked j t ht
    split
    · exact hasked.of_cursor rfl rfl
    · exact hasked
  · obtain ⟨t, ht, rfl⟩ := exists_of_note hu
    have hended := h.ended j t ht
    by_cases hij : i = j
    · rw [if_pos hij, if_pos hij.symm]
      exact hended.note w.worker o
    · rw [if_neg hij, if_neg (Ne.symm hij)]
      exact hended

theorem traced_ofTargets {targets : List Target} {workers : Nat}
    (hconfined : ∀ t ∈ targets, t.Confined)
    (hcursor : ∀ t ∈ targets, ∃ size, t.cursor = .ofSpan t.segment.toSpan size)
    (hle : ∀ t ∈ targets, t.segment.first ≤ t.segment.last)
    (htallies : ∀ t ∈ targets, t.tallies = []) :
    (ofTargets targets workers).Traced (fun _ _ => False) fun _ => [] := by
  refine ⟨fun i t ht => ?_, fun i t ht => ?_, queued_ofTargets hcursor hle htallies⟩
  all_goals have hmem : t ∈ targets := List.mem_of_getElem? ht
  · obtain ⟨size, hsize⟩ := hcursor t hmem
    refine ⟨hconfined t hmem, fun x hx hpassed => ?_, fun _ hx => hx.elim⟩
    have hlt : x < t.segment.first := hpassed _ (by rw [hsize]; rfl)
    exact absurd hx.1 (Int64.not_le.mpr hlt)
  · have htally : t.tally = {} := by rw [Target.tally, htallies t hmem]; rfl
    refine ⟨?_, ?_, fun p hp => ?_⟩
    · rw [htally]
      rfl
    · rw [htally]
      exact iff_of_true rfl fun _ ho => absurd ho List.not_mem_nil
    · rw [htallies t hmem] at hp
      cases hp

end

end Workload

/-! ## How each target is closed -/

namespace TrackedSegment

/-- What the replies make of a segment. If all of it was asked about, it has the outcome of an
attempt that copied what its chunks came to, and that failed exactly if one of them did, for the
cause of one that did. Else it was cut short, and only counts what its chunks came to. -/
def Resolved (asked : Address → Prop) (ended : List ChunkOutcome) (s u : TrackedSegment) : Prop :=
  let total := (ended.map ChunkOutcome.amount).sum
  ((∀ x ∈ s.toSpan, asked x) →
      ∃ failure, u = ⟨s.toSpan, s.outcome total failure⟩ ∧
        (failure = none ↔ ∀ o ∈ ended, o.failure? = none) ∧
        ∀ f, failure = some f → ∃ o ∈ ended, o.failure? = some f) ∧
    ((¬∀ x ∈ s.toSpan, asked x) →
      u = ⟨s.toSpan, { s.progress with copied := s.creditFor total }⟩ ∧
        s.progress.copied ≤ u.progress.copied)

end TrackedSegment

/-- A target that is not queued any more is closed as the replies say. -/
theorem Target.resolved {t : Target} {asked : Address → Prop} {ended : List ChunkOutcome}
    (hasked : t.Asked asked) (hended : t.Ended ended) (hqueued : t.Queued False)
    (hvalid : t.segment.Valid) (hdue : t.segment.isDue = true) {fate : TrackedSegment × Bool}
    (hclose : t.close = .ok fate) : t.segment.Resolved asked ended fate.1 := by
  have hwhole := hasked.isDone_iff hvalid.first_le_last
  have hcut := hqueued.cut_iff id
  rw [close, hended.total_eq] at hclose
  refine ⟨fun hall => ?_, fun hnot => ?_⟩
  · have hkept : t.tally.cancelled = false := by
      rw [Bool.eq_false_iff, ne_eq, hcut, hwhole.mpr hall]
      exact Bool.true_eq_false.mp
    rw [hkept, if_neg Bool.false_ne_true, attempted_eq hvalid hdue] at hclose
    cases hclose
    refine ⟨t.tally.failure, rfl, hended.failure_eq_none, fun f hf => ?_⟩
    obtain ⟨p, hp, hfailure⟩ := exists_of_failure hf
    exact hended.exists_failure p hp f hfailure
  · have hshort : t.tally.cancelled = true := hcut.mpr (Bool.eq_false_iff.mpr (mt hwhole.mp hnot))
    rw [hshort, if_pos rfl, interrupted_eq hvalid] at hclose
    cases hclose
    exact ⟨rfl, copied_le_creditFor hvalid _⟩

end LogRepair
