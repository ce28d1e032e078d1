import LogRepair.Proofs.Batch.Cursor
import LogRepair.Proofs.Cycle.Points

/-!
# Chunks of a workload

* `Workload.segments_take`: serving a workload changes none of the segments that it serves.
* `Workload.Accounts`: of each target without a failure, the cursor leaves only such addresses
  behind as are held, but for those that a worker waits to learn of.
* `Workload.Accounts.take`, `Workload.Accounts.note`: taking a chunk and noting its outcome keep
  the account, for every batch size and whichever worker does it.
* `Workload.Accounts.held_of_through`: a target that is through without a failure is held.
-/

namespace LogRepair

/-! ## The segments served -/

namespace Workload

/-- A target that is replaced by one for the same segment. -/
theorem segments_set {targets : List Target} {i : Nat} {t t' : Target}
    (ht : targets[i]? = some t) (hsegment : t'.segment = t.segment) :
    (targets.set i t').map (·.segment) = targets.map (·.segment) := by
  obtain ⟨hi, heq⟩ := List.getElem?_eq_some_iff.mp ht
  refine List.ext_getElem? fun j => ?_
  rw [List.getElem?_map, List.getElem?_map, List.getElem?_set]
  by_cases hij : i = j
  · rw [if_pos hij, if_pos hi, ← hij, ht, Option.map_some, Option.map_some, hsegment]
  · rw [if_neg hij]

theorem segments_takeFrom (worker : Nat) (targets : List Target) (queue : List Nat) :
    (takeFrom worker targets queue).1.map (·.segment) = targets.map (·.segment) := by
  fun_induction takeFrom worker targets queue with
  | case1 => rfl
  | case2 targets i queue h ih => exact ih
  | case3 targets i queue t ht hcancelled ih => exact ih.trans (segments_set ht rfl)
  | case4 targets i queue t ht hcancelled hnext ih => exact ih
  | case5 targets i queue t ht hcancelled span cursor hnext => exact segments_set ht rfl

theorem take_eq_some {w w' : Workload} {i : Nat} {span : Span}
    (h : w.take = (w', some (i, span))) :
    ∃ queue, takeFrom w.worker w.targets w.queue = (w'.targets, some (i, span, queue)) ∧
      w' = { w with targets := w'.targets, queue } := by
  unfold take at h
  split at h
  · next targets j span' queue heq =>
    cases h
    exact ⟨queue, heq, rfl⟩
  · cases h

theorem take_eq_none {w w' : Workload} (h : w.take = (w', none)) :
    takeFrom w.worker w.targets w.queue = (w'.targets, none) ∧
      w' = { w with targets := w'.targets, queue := [] } := by
  unfold take at h
  split at h
  · cases h
  · next targets heq =>
    cases h
    exact ⟨heq, rfl⟩

theorem segments_take {w w' : Workload} {chunk : Option (Nat × Span)} (h : w.take = (w', chunk)) :
    w'.targets.map (·.segment) = w.targets.map (·.segment) := by
  rw [← segments_takeFrom w.worker w.targets w.queue]
  match chunk, h with
  | some (i, span), h =>
    obtain ⟨queue, heq, -⟩ := take_eq_some h
    rw [heq]
  | none, h => rw [(take_eq_none h).1]

theorem segments_note (w : Workload) (i : Nat) (o : ChunkOutcome) :
    (w.note i o).targets.map (·.segment) = w.targets.map (·.segment) := by
  refine List.ext_getElem? fun j => ?_
  simp only [note, List.getElem?_map, List.getElem?_modify]
  cases w.targets[j]? with
  | none => rfl
  | some t => by_cases hij : i = j <;> simp [hij, Target.note]

theorem segments_retire (w : Workload) :
    w.retire.targets.map (·.segment) = w.targets.map (·.segment) := by
  simp only [retire, List.map_map]
  rfl

theorem segments_recancel (f : Target → Bool) (w : Workload) :
    (w.recancel f).targets.map (·.segment) = w.targets.map (·.segment) := by
  simp only [recancel, List.map_map]
  rfl

/-! ## Where a target comes from -/

section

variable {w : Workload} {i j : Nat} {u : Target}

theorem exists_of_note {o : ChunkOutcome} (hu : (w.note i o).targets[j]? = some u) :
    ∃ t, w.targets[j]? = some t ∧ (if i = j then t.note w.worker o else t) = u := by
  simp only [note, List.getElem?_modify] at hu
  exact Option.map_eq_some_iff.mp hu

theorem exists_of_retire (hu : w.retire.targets[i]? = some u) :
    ∃ t, w.targets[i]? = some t ∧ t.retire w.worker = u := by
  rw [retire, List.getElem?_map] at hu
  exact Option.map_eq_some_iff.mp hu

theorem exists_of_recancel {f : Target → Bool} (hu : (w.recancel f).targets[i]? = some u) :
    ∃ t : Target, w.targets[i]? = some t ∧ { t with cancelled := t.cancelled || f t } = u := by
  rw [recancel, List.getElem?_map] at hu
  exact Option.map_eq_some_iff.mp hu

end

end Workload

/-! ## What the tallies of the workers say -/

/-- The failure that a chunk adds to the tally, if there was none. -/
def ChunkOutcome.failure? : ChunkOutcome → Option Failure
  | .processed _ result => result.failure
  | .held _ | .dropped => none

/-- A batch without failure was written in full. -/
theorem BatchResult.mem_of_ofWritten {batch : Batch} {addresses : List Address}
    (h : (ofWritten batch addresses).failure = none) {x : Address}
    (hx : x ∈ batch.addresses) : x ∈ addresses := by
  unfold ofWritten at h
  dsimp only at h
  split at h
  · next hlength =>
    have hall := List.length_filter_eq_length_iff.mp hlength x hx
    simpa using hall
  · cases h

namespace Tally

theorem failure_note (t : Tally) (o : ChunkOutcome) :
    (t.note o).failure = none ↔ o.failure? = none ∧ t.failure = none := by
  cases o with
  | processed present result => simp [note, ChunkOutcome.failure?, Option.or_eq_none_iff, and_comm]
  | held | dropped => simp [note, ChunkOutcome.failure?]

theorem cancelled_note (t : Tally) (o : ChunkOutcome) :
    (t.note o).cancelled = true ↔ o = .dropped ∨ t.cancelled = true := by
  cases o <;> simp [note]

theorem failure_foldl_append (t : Tally) (us : List Tally) :
    (us.foldl append t).failure = none ↔ t.failure = none ∧ ∀ u ∈ us, u.failure = none := by
  induction us generalizing t with
  | nil => simp
  | cons u us ih => simp [ih, append, Option.or_eq_none_iff, and_assoc]

theorem cancelled_foldl_append (t : Tally) (us : List Tally) :
    (us.foldl append t).cancelled = true ↔
      t.cancelled = true ∨ ∃ u ∈ us, u.cancelled = true := by
  induction us generalizing t with
  | nil => simp
  | cons u us ih => simp [ih, append, or_assoc]

/-- The tallies without failure stay so exactly if the chunk did not fail. -/
theorem failure_noteFor (worker : Nat) (o : ChunkOutcome) (ts : List (Nat × Tally)) :
    (∀ p ∈ noteFor worker o ts, p.2.failure = none) ↔
      o.failure? = none ∧ ∀ p ∈ ts, p.2.failure = none := by
  fun_induction noteFor worker o ts with
  | case1 => simp [failure_note]
  | case2 t rest => simp [failure_note, and_assoc]
  | case3 k t rest hk ih =>
    rw [List.forall_mem_cons, ih, List.forall_mem_cons]
    exact and_left_comm

theorem cancelled_noteFor (worker : Nat) (o : ChunkOutcome) (ts : List (Nat × Tally)) :
    (∃ p ∈ noteFor worker o ts, p.2.cancelled = true) ↔
      o = .dropped ∨ ∃ p ∈ ts, p.2.cancelled = true := by
  fun_induction noteFor worker o ts with
  | case1 => simp [cancelled_note]
  | case2 t rest => simp [cancelled_note, or_assoc]
  | case3 k t rest hk ih =>
    simp only [List.mem_cons, or_and_right, exists_or, exists_eq_left] at ih ⊢
    rw [ih]
    exact or_left_comm

end Tally

namespace Target

theorem failure_eq_none_iff (t : Target) :
    t.tally.failure = none ↔ ∀ p ∈ t.tallies, p.2.failure = none := by
  rw [tally, Tally.ofWorkers, Tally.failure_foldl_append, List.forall_mem_map]
  exact and_iff_right rfl

theorem cancelled_eq_true_iff (t : Target) :
    t.tally.cancelled = true ↔ ∃ p ∈ t.tallies, p.2.cancelled = true := by
  rw [tally, Tally.ofWorkers, Tally.cancelled_foldl_append]
  constructor
  · rintro (hnone | ⟨u, hu, hcancelled⟩)
    · cases hnone
    · obtain ⟨p, hp, rfl⟩ := List.mem_map.mp hu
      exact ⟨p, hp, hcancelled⟩
  · rintro ⟨p, hp, hcancelled⟩
    exact Or.inr ⟨p.2, List.mem_map_of_mem hp, hcancelled⟩

theorem failure_note (t : Target) (worker : Nat) (o : ChunkOutcome) :
    (t.note worker o).tally.failure = none ↔ o.failure? = none ∧ t.tally.failure = none := by
  rw [failure_eq_none_iff, failure_eq_none_iff]
  exact Tally.failure_noteFor worker o t.tallies

theorem cancelled_note (t : Target) (worker : Nat) (o : ChunkOutcome) :
    (t.note worker o).tally.cancelled = true ↔ o = .dropped ∨ t.tally.cancelled = true := by
  rw [cancelled_eq_true_iff, cancelled_eq_true_iff]
  exact Tally.cancelled_noteFor worker o t.tallies

/-- Only a chunk that is dropped cuts the target short. -/
theorem cancelled_note_of_ne (t : Target) (worker : Nat) {o : ChunkOutcome} (ho : o ≠ .dropped) :
    (t.note worker o).tally.cancelled = t.tally.cancelled := by
  rw [Bool.eq_iff_iff, cancelled_note]
  exact or_iff_right ho

/-- A worker that ends leaves the same tallies, in another order. -/
theorem perm_tallies_retire (t : Target) (worker : Nat) :
    (t.retire worker).tallies.Perm t.tallies := by
  have hsplit := List.filter_append_perm (fun p : Nat × Tally => p.1 != worker) t.tallies
  simpa only [retire, bne, Bool.not_not] using hsplit

theorem mem_tallies_retire (t : Target) (worker : Nat) (p : Nat × Tally) :
    p ∈ (t.retire worker).tallies ↔ p ∈ t.tallies :=
  (t.perm_tallies_retire worker).mem_iff

/-- The order in which the workers end decides only which failure counts. -/
theorem failure_retire (t : Target) (worker : Nat) :
    (t.retire worker).tally.failure = none ↔ t.tally.failure = none := by
  simp only [failure_eq_none_iff, mem_tallies_retire]

theorem cancelled_retire (t : Target) (worker : Nat) :
    (t.retire worker).tally.cancelled = t.tally.cancelled := by
  rw [Bool.eq_iff_iff]
  simp only [cancelled_eq_true_iff, mem_tallies_retire]

end Target

/-! ## What the tallies and cursors account for -/

/-- Unless a chunk of the target failed, the cursor leaves only held addresses behind; and as long
as it is not through, the target is queued or was cut short. -/
structure Target.Accounted (held : Address → Prop) (queued : Prop) (t : Target) : Prop where
  last_eq : t.cursor.last = t.segment.last
  steady : t.cursor.Steady
  held_of_passed : t.tally.failure = none →
    ∀ x ∈ t.segment.toSpan, 0 ≤ x → t.cursor.Passed x → held x
  served : queued ∨ t.tally.cancelled = true ∨ t.cursor.isDone = true

section

variable {held held' : Address → Prop} {queued queued' : Prop} {t : Target}

theorem Target.Accounted.imp (h : t.Accounted held queued) (hheld : ∀ x, held x → held' x)
    (hqueued : queued → queued') : t.Accounted held' queued' :=
  ⟨h.last_eq, h.steady, fun hfailure x hx hnonneg hpassed =>
    hheld x (h.held_of_passed hfailure x hx hnonneg hpassed), h.served.imp hqueued id⟩

theorem Target.Accounted.recancel (h : t.Accounted held queued) (cancelled : Bool) :
    Target.Accounted held queued { t with cancelled } :=
  ⟨h.last_eq, h.steady, h.held_of_passed, h.served⟩

/-- After a chunk that did not fail, what was held as far as that chunk reached has to be held. -/
theorem Target.Accounted.note (h : t.Accounted held' queued) {o : ChunkOutcome}
    (hheld : o.failure? = none → ∀ x, held' x → held x) (worker : Nat) :
    (t.note worker o).Accounted held queued := by
  refine ⟨h.last_eq, h.steady, fun hfailure x hx hnonneg hpassed => ?_, ?_⟩
  · obtain ⟨ho, ht⟩ := (t.failure_note worker o).mp hfailure
    exact hheld ho x (h.held_of_passed ht x hx hnonneg hpassed)
  · exact h.served.imp id (Or.imp (fun ht => (t.cancelled_note worker o).mpr (Or.inr ht)) id)

theorem Target.Accounted.drop (h : t.Accounted held queued) (worker : Nat) :
    (t.note worker .dropped).Accounted held queued' :=
  ⟨h.last_eq, h.steady, (h.note (fun _ _ => id) worker).held_of_passed,
    Or.inr (Or.inl ((t.cancelled_note worker .dropped).mpr (Or.inl rfl)))⟩

theorem Target.Accounted.retire (h : t.Accounted held queued) (worker : Nat) :
    (t.retire worker).Accounted held queued := by
  refine ⟨h.last_eq, h.steady, fun hfailure => ?_, ?_⟩
  · exact h.held_of_passed ((t.failure_retire worker).mp hfailure)
  · rw [t.cancelled_retire worker]
    exact h.served

theorem Target.Accounted.advance (h : t.Accounted held queued) {span : Span} {cursor : Cursor}
    (hnext : t.cursor.next? = some (span, cursor)) (hqueued : cursor.isDone = false → queued') :
    Target.Accounted (fun x => held x ∨ x ∈ span ∧ 0 ≤ span.first) queued' { t with cursor } := by
  refine ⟨?_, h.steady.next hnext, fun hfailure x hx hnonneg hpassed => ?_, ?_⟩
  · obtain ⟨p, -, -, -, rfl⟩ := Cursor.next?_eq_some hnext
    exact h.last_eq
  · refine (Cursor.passed_or_mem hnext h.steady hnonneg hpassed).imp (fun hbefore => ?_) id
    exact h.held_of_passed hfailure x hx hnonneg hbefore
  · cases hdone : cursor.isDone with
    | true => exact Or.inr (Or.inr rfl)
    | false => exact Or.inl (hqueued hdone)

/-- A target that is through, with no chunk dropped and none failed, is held. -/
theorem Target.Accounted.held_of_through (h : t.Accounted held False)
    (hcancelled : t.tally.cancelled = false) (hfailure : t.tally.failure = none) {x : Address}
    (hx : x ∈ t.segment.toSpan) (hnonneg : 0 ≤ x) : held x := by
  have hdone : t.cursor.isDone = true := by
    rcases h.served with hqueued | hdropped | hdone
    · exact hqueued.elim
    · rw [hcancelled] at hdropped
      cases hdropped
    · exact hdone
  refine h.held_of_passed hfailure x hx hnonneg (Cursor.passed_of_isDone hdone ?_)
  rw [h.last_eq]
  exact hx.2

end

namespace Workload

/-- Every target is accounted for, with what is held for each. -/
def Accounted (held : Nat → Address → Prop) (targets : List Target) (queue : List Nat) : Prop :=
  ∀ i, ∀ t : Target, targets[i]? = some t → t.Accounted (held i) (i ∈ queue)

section

variable {held held' : Nat → Address → Prop} {targets : List Target} {i : Nat}
  {queue queue' : List Nat}

theorem Accounted.pop (h : Accounted held targets (i :: queue))
    (hi : ∀ t : Target, targets[i]? = some t → t.Accounted (held i) (i ∈ queue)) :
    Accounted held targets queue := by
  intro j t ht
  by_cases hji : j = i
  · rw [hji] at ht ⊢
    exact hi t ht
  · exact (h j t ht).imp (fun _ => id) fun hj => (List.mem_cons.mp hj).resolve_left hji

theorem Accounted.set {t : Target} (h : Accounted held targets (i :: queue))
    (hheld : ∀ j x, held j x → held' j x) (hqueue : ∀ j ∈ queue, j ∈ queue')
    (ht : t.Accounted (held' i) (i ∈ queue')) : Accounted held' (targets.set i t) queue' := by
  intro j u hu
  rw [List.getElem?_set] at hu
  split at hu
  · next hij =>
    split at hu
    · cases hu
      rwa [← hij]
    · cases hu
  · next hij =>
    refine (h j u hu).imp (hheld j) fun hj => hqueue j ?_
    exact (List.mem_cons.mp hj).resolve_left (Ne.symm hij)

end

/-- Whether a chunk is handed out or not, every target stays accounted for; the chunk itself is yet
to be held. -/
theorem accounted_takeFrom {held : Nat → Address → Prop} {targets : List Target}
    {queue : List Nat} (h : Accounted held targets queue) (worker : Nat) :
    match takeFrom worker targets queue with
    | (targets', some (i, span, queue')) =>
      Accounted (fun j x => held j x ∨ j = i ∧ x ∈ span ∧ 0 ≤ span.first) targets' queue'
    | (targets', none) => Accounted held targets' [] := by
  fun_induction takeFrom worker targets queue with
  | case1 => exact h
  | case2 targets i queue hnone ih =>
    refine ih (h.pop fun t ht => ?_)
    rw [hnone] at ht
    cases ht
  | case3 targets i queue t ht hcancelled ih =>
    -- The target leaves the queue, and its tally says so.
    exact ih (h.set (fun _ _ => id) (fun _ => id) ((h i t ht).drop worker))
  | case4 targets i queue t ht hcancelled hnext ih =>
    -- The target leaves the queue, for its cursor is through.
    refine ih (h.pop fun u hu => ?_)
    have hdone := Cursor.isDone_of_next?_eq_none hnext
    rw [ht] at hu
    cases hu
    have hi := h i t ht
    exact ⟨hi.last_eq, hi.steady, hi.held_of_passed, Or.inr (Or.inr hdone)⟩
  | case5 targets i queue t ht hcancelled span cursor hnext =>
    refine h.set (fun _ _ => Or.inl) (fun j hj => ?_) ?_
    · split
      · exact hj
      · exact List.mem_append_left _ hj
    · refine ((h i t ht).advance hnext fun hdone => ?_).imp (fun x => ?_) id
      · rw [hdone]
        simp
      · exact Or.imp id fun hx => ⟨rfl, hx⟩

end Workload

/-! ## What the workers wait for -/

namespace Errand

def target : Errand → Nat
  | checking i _ | copying i _ _ => i

/-- The errand is to find out whether the address is held, or to have it copied. -/
def Asks : Errand → Address → Prop
  | checking _ span, x => x ∈ span ∧ 0 ≤ span.first
  | copying _ _ batch, x => x ∈ batch.addresses

end Errand

namespace Workload

/-- The worker that gets the turn waits on, behind the others. -/
theorem perm_others_turn {w : Workload} {worker : Nat} {errand : Errand}
    {others : List (Nat × Errand)} (hothers : w.others = (worker, errand) :: others) :
    (park { w with worker, others } errand).others.Perm w.others := by
  rw [hothers]
  exact List.perm_append_singleton _ _

/-- The worker that gives up its turn takes the place of the one that gets it. -/
theorem perm_others_switch {w : Workload} {errand errand' : Errand} {k worker : Nat}
    (hk : w.others[k]? = some (worker, errand')) :
    (park { w with worker, others := w.others.set k (w.worker, errand) } errand').others.Perm
      (w.park errand).others := by
  unfold park
  dsimp only
  generalize w.others = others at hk
  generalize (w.worker, errand) = p
  induction others generalizing k with
  | nil => cases hk
  | cons q rest ih =>
    cases k with
    | zero =>
      cases hk
      have hlast := List.perm_append_singleton (worker, errand') rest
      exact (hlast.cons p).trans
        ((List.Perm.swap _ _ _).trans ((List.perm_append_singleton p rest).symm.cons _))
    | succ k => exact (ih hk).cons q

/-- A worker waits to learn of the address of a target. -/
def Awaits (w : Workload) (i : Nat) (x : Address) : Prop :=
  ∃ p ∈ w.others, p.2.target = i ∧ p.2.Asks x

/-- Unless a worker died, every target is accounted for, but for what the workers wait for. -/
def Accounts (held : Address → Prop) (w : Workload) : Prop :=
  w.crashed = false → Accounted (fun i x => held x ∨ w.Awaits i x) w.targets w.queue

section

variable {held held' : Address → Prop} {w w' : Workload}

theorem Accounts.imp (h : w.Accounts held) (hheld : ∀ x, held x → held' x) :
    w.Accounts held' :=
  fun hcrashed i t ht => (h hcrashed i t ht).imp (fun x => Or.imp (hheld x) id) id

/-- It does not matter which worker is at its turn, and in which order the others wait. -/
theorem Accounts.of_others (h : w.Accounts held) (htargets : w'.targets = w.targets)
    (hqueue : w'.queue = w.queue) (hcrashed : w'.crashed = w.crashed)
    (hothers : ∀ p ∈ w.others, p ∈ w'.others) : w'.Accounts held := by
  intro hw i t ht
  rw [htargets] at ht
  rw [hqueue]
  refine (h (hcrashed ▸ hw) i t ht).imp (fun x => Or.imp id ?_) id
  rintro ⟨p, hp, hasks⟩
  exact ⟨p, hothers p hp, hasks⟩

theorem Accounts.turn (h : w.Accounts held) {worker : Nat} {errand : Errand}
    {others : List (Nat × Errand)} (hothers : w.others = (worker, errand) :: others) :
    (park { w with worker, others } errand).Accounts held :=
  h.of_others rfl rfl rfl fun _ => (perm_others_turn hothers).mem_iff.mpr

theorem Accounts.switch {errand errand' : Errand} (h : (w.park errand).Accounts held)
    {k worker : Nat} (hk : w.others[k]? = some (worker, errand')) :
    (park { w with worker, others := w.others.set k (w.worker, errand) } errand').Accounts
      held :=
  h.of_others rfl rfl rfl fun _ => (perm_others_switch hk).mem_iff.mpr

theorem Accounts.take (h : w.Accounts held) {i : Nat} {span : Span}
    (htake : w.take = (w', some (i, span))) : (w'.park (.checking i span)).Accounts held := by
  obtain ⟨queue, heq, hw'⟩ := take_eq_some htake
  intro hcrashed
  have hw : w.crashed = false := by
    rw [hw'] at hcrashed
    exact hcrashed
  have hafter := accounted_takeFrom (h hw) w.worker
  rw [heq] at hafter
  intro j t ht
  rw [hw'] at ht ⊢
  refine (hafter j t ht).imp (fun x => ?_) id
  rintro ((hx | ⟨p, hp, hasks⟩) | ⟨rfl, hspan⟩)
  · exact Or.inl hx
  · exact Or.inr ⟨p, List.mem_append_left _ hp, hasks⟩
  · exact Or.inr ⟨_, List.mem_append_right _ List.mem_cons_self, rfl, hspan⟩

/-- A worker that finds nothing to take leaves an empty queue. -/
theorem Accounts.retire (h : w.Accounts held) (htake : w.take = (w', none)) :
    w'.retire.Accounts held ∧ w'.retire.queue = [] := by
  obtain ⟨heq, hw'⟩ := take_eq_none htake
  refine ⟨fun hcrashed j u hu => ?_, by rw [hw']; rfl⟩
  have hw : w.crashed = false := by
    rw [hw'] at hcrashed
    exact hcrashed
  have hafter := accounted_takeFrom (h hw) w.worker
  rw [heq] at hafter
  obtain ⟨t, ht, rfl⟩ := exists_of_retire hu
  rw [hw'] at ht ⊢
  exact (hafter j t ht).retire _

/-- What a chunk that did not fail was about has to be held then, and so does what was held. -/
theorem Accounts.note {errand : Errand} (h : (w.park errand).Accounts held') {o : ChunkOutcome}
    (hheld : ∀ x, held' x → held x) (hasks : o.failure? = none → ∀ x, errand.Asks x → held x) :
    (w.note errand.target o).Accounts held := by
  intro hcrashed j t ht
  obtain ⟨u, hu, rfl⟩ := exists_of_note ht
  have hacc := h hcrashed j u hu
  have hothers : ∀ x, (held' x ∨ (w.park errand).Awaits j x) →
      held x ∨ w.Awaits j x ∨ errand.target = j ∧ errand.Asks x := by
    rintro x (hx | ⟨p, hp, hp'⟩)
    · exact Or.inl (hheld x hx)
    · refine Or.inr ((List.mem_append.mp hp).imp (fun hp => ⟨p, hp, hp'⟩) fun hp => ?_)
      rw [List.mem_singleton.mp hp] at hp'
      exact hp'
  by_cases hij : errand.target = j
  · rw [if_pos hij]
    refine hacc.note (fun hfailure x hx => ?_) w.worker
    rcases hothers x hx with hx | hx | ⟨-, hx⟩
    · exact Or.inl hx
    · exact Or.inr hx
    · exact Or.inl (hasks hfailure x hx)
  · rw [if_neg hij]
    refine hacc.imp (fun x hx => ?_) id
    rcases hothers x hx with hx | hx | ⟨hji, -⟩
    · exact Or.inl hx
    · exact Or.inr hx
    · exact absurd hji hij

/-- A worker may go on to another errand for the same target once what it no longer asks about is
held. -/
theorem Accounts.proceed {errand errand' : Errand} (h : (w.park errand).Accounts held')
    (htarget : errand'.target = errand.target) (hheld : ∀ x, held' x → held x)
    (hasks : ∀ x, errand.Asks x → held x ∨ errand'.Asks x) :
    (w.park errand').Accounts held := by
  intro hcrashed j t ht
  refine (h hcrashed j t ht).imp (fun x => ?_) id
  rintro (hx | ⟨p, hp, hp'⟩)
  · exact Or.inl (hheld x hx)
  rcases List.mem_append.mp hp with hp | hp
  · exact Or.inr ⟨p, List.mem_append_left _ hp, hp'⟩
  rw [List.mem_singleton.mp hp] at hp'
  obtain ⟨hj, hx⟩ := hp'
  refine (hasks x hx).imp id fun hx => ?_
  exact ⟨_, List.mem_append_right _ List.mem_cons_self, htarget.trans hj, hx⟩

theorem Accounts.recancel (h : w.Accounts held) (f : Target → Bool) :
    (w.recancel f).Accounts held := by
  intro hcrashed i t ht
  obtain ⟨u, hu, rfl⟩ := exists_of_recancel ht
  exact (h hcrashed i u hu).recancel _

theorem accounts_of_crashed (hcrashed : w.crashed = true) : w.Accounts held := by
  intro hw
  rw [hcrashed] at hw
  cases hw

/-- A target that is through, with no chunk dropped and none failed, is held. -/
theorem Accounts.held_of_through (h : w.Accounts held) (hothers : w.others = [])
    (hqueue : w.queue = []) (hcrashed : w.crashed = false) {t : Target} (ht : t ∈ w.targets)
    (hcancelled : t.tally.cancelled = false) (hfailure : t.tally.failure = none) {x : Address}
    (hx : x ∈ t.segment.toSpan) (hnonneg : 0 ≤ x) : held x := by
  obtain ⟨i, hi⟩ := List.mem_iff_getElem?.mp ht
  have hacc := h hcrashed i t hi
  rw [hqueue] at hacc
  have hclosed := hacc.imp (fun _ => id) (List.not_mem_nil (a := i))
  refine (hclosed.held_of_through hcancelled hfailure hx hnonneg).resolve_right ?_
  rintro ⟨p, hp, -⟩
  rw [hothers] at hp
  cases hp

theorem accounts_ofTargets {targets : List Target} {workers : Nat}
    (hcursor : ∀ t ∈ targets, ∃ size, t.cursor = .ofSpan t.segment.toSpan size)
    (hfirst : ∀ t ∈ targets, 0 ≤ t.segment.first) :
    (ofTargets targets workers).Accounts held := by
  intro _ i t ht
  have hmem : t ∈ targets := List.mem_of_getElem? ht
  obtain ⟨size, hsize⟩ := hcursor t hmem
  refine ⟨?_, fun p hp => ?_, fun _ x hx _ hpassed => ?_, Or.inl ?_⟩
  · rw [hsize]
    rfl
  · rw [hsize] at hp
    cases hp
    exact Or.inl (hfirst t hmem)
  · rw [hsize] at hpassed
    have hlt := hpassed _ rfl
    have hle := hx.1
    grind
  · exact List.mem_range.mpr (List.getElem?_eq_some_iff.mp ht).1

end

end Workload

end LogRepair
