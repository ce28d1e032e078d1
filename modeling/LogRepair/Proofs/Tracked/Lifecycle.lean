import LogRepair.Proofs.Address
import LogRepair.Proofs.Tracked.Segments
import Mathlib.Logic.Relation

/-!
# The life of a segment

An attempt, an interruption or a listing replaces a segment by one over the same span, or is
refused. A replacement passes the same checks as any new segment. It never fails them: what counts
as copied is between what was copied before and the length of the segment, and a complete segment
counts all of it.

* `CopyState.Moves`: the states that can follow each other.
* `TrackedSegment.Becomes`: what an event that is not refused makes of a segment.
* `TrackedSegment.Valid.apply_cases`: one event is refused, or makes that of a valid segment.
* `TrackedSegment.becomes_or_is_refused`: so does each event of any series, with any counts and any
  failures.
-/

namespace LogRepair

/-- The states that can follow each other in the life of a segment. -/
inductive CopyState.Moves : CopyState → CopyState → Prop
  | stays (state : CopyState) : Moves state state
  | copied : Moves .notTransferred .transferred
  | fails : Moves .notTransferred .failed
  | recovers : Moves .failed .transferred
  | listed : Moves .transferred .restored

/-- An attempt may fail or succeed, first or again. -/
theorem CopyState.moves_of_attempt {state next : CopyState}
    (hdue : ¬(state = .transferred ∨ state = .restored))
    (hnext : next = .failed ∨ next = .transferred) : state.Moves next := by
  cases state with
  | notTransferred =>
    rcases hnext with rfl | rfl
    · exact .fails
    · exact .copied
  | failed =>
    rcases hnext with rfl | rfl
    · exact .stays _
    · exact .recovers
  | transferred => exact absurd (Or.inl rfl) hdue
  | restored => exact absurd (Or.inr rfl) hdue

namespace TrackedSegment

/-! ## What counts as copied -/

theorem creditFor_le (s : TrackedSegment) (copied : UInt64) : s.creditFor copied ≤ s.length :=
  Std.min_le_right

/-- What counts as copied after an attempt, the attempt copied or had been copied before. -/
theorem creditFor_le_or (s : TrackedSegment) (copied : UInt64) :
    (s.creditFor copied).toNat ≤ copied.toNat ∨
      (s.creditFor copied).toNat ≤ s.progress.copied.toNat := by
  have hle : (s.creditFor copied).toNat ≤ (max copied s.progress.copied).toNat :=
    UInt64.le_iff_toNat_le.mp Std.min_le_left
  by_cases hgrown : copied ≤ s.progress.copied
  · have hmax : max copied s.progress.copied = s.progress.copied := if_pos hgrown
    rw [hmax] at hle
    exact Or.inr hle
  · have hmax : max copied s.progress.copied = copied := if_neg hgrown
    rw [hmax] at hle
    exact Or.inl hle

/-- What a segment has copied already is never taken back. -/
theorem copied_le_creditFor {s : TrackedSegment} (hs : s.Valid) (copied : UInt64) :
    s.progress.copied ≤ s.creditFor copied := by
  have hmax : s.progress.copied ≤ max copied s.progress.copied := by
    change s.progress.copied ≤ if copied ≤ s.progress.copied then s.progress.copied else copied
    split
    · exact UInt64.le_refl _
    · next h => exact UInt64.le_of_lt (UInt64.not_le.mp h)
  exact Std.le_min_iff.mpr ⟨hmax, hs.copied_le⟩

theorem creditFor_of_isComplete {s : TrackedSegment} (hs : s.Valid)
    (hcomplete : s.isComplete = true) (copied : UInt64) : s.creditFor copied = s.length := by
  have hall : s.length ≤ s.creditFor copied := by
    rw [← hs.copied_eq hcomplete]
    exact copied_le_creditFor hs copied
  exact UInt64.le_antisymm (s.creditFor_le copied) hall

/-! ## The segment after an event -/

theorem valid_outcome {s : TrackedSegment} (hs : s.Valid) (copied : UInt64)
    (failure : Option Failure) : Valid ⟨s.toSpan, s.outcome copied failure⟩ := by
  have hfailed : ∀ f, Valid ⟨s.toSpan, .failed (s.creditFor copied) f⟩ := by
    intro f
    refine ⟨fault?_eq_none_iff.mpr ⟨hs.first_nonneg, hs.first_le_last, s.creditFor_le copied,
      fun hcomplete => ?_⟩, ?_⟩
    · simp [isComplete, state, Progress.failed, CopyState.isComplete] at hcomplete
    · simp [Progress.WellFormed, Progress.failed]
  unfold outcome
  split
  · exact hfailed _
  · dsimp only
    split
    · refine ⟨fault?_eq_none_iff.mpr ⟨hs.first_nonneg, hs.first_le_last,
        UInt64.le_refl s.length, fun _ => ?_⟩, ?_⟩
      · simp only [Progress.transferred, length]
      · simp [Progress.WellFormed, Progress.transferred]
    · exact hfailed _

/-- A complete segment counts all of its addresses already. -/
theorem valid_interrupted {s : TrackedSegment} (hs : s.Valid) (copied : UInt64) :
    Valid ⟨s.toSpan, { s.progress with copied := s.creditFor copied }⟩ := by
  refine ⟨fault?_eq_none_iff.mpr ⟨hs.first_nonneg, hs.first_le_last, s.creditFor_le copied,
    fun hcomplete => ?_⟩, hs.progress_wellFormed⟩
  exact creditFor_of_isComplete hs hcomplete copied

theorem interrupted_eq {s : TrackedSegment} (hs : s.Valid) (copied : UInt64) :
    s.interrupted copied = .ok ⟨s.toSpan, { s.progress with copied := s.creditFor copied }⟩ :=
  (valid_interrupted hs copied).checked_eq

theorem attempted_eq {s : TrackedSegment} (hs : s.Valid) (hdue : s.isDue = true)
    (copied : UInt64) (failure : Option Failure) :
    s.attempted copied failure = .ok ⟨s.toSpan, s.outcome copied failure⟩ := by
  rw [attempted, if_pos hdue]
  exact (valid_outcome hs copied failure).checked_eq

theorem eq_of_withProgress {s u : TrackedSegment} {progress : Progress}
    (h : s.withProgress progress = .ok u) : u = ⟨s.toSpan, progress⟩ :=
  (checked_eq_ok_iff.mp h).2

/-- An attempt copies all or fails, and counts what is copied. -/
theorem outcome_cases (s : TrackedSegment) (copied : UInt64) (failure : Option Failure) :
    (s.outcome copied failure).copied = s.creditFor copied ∧
      ((s.outcome copied failure).state = .failed ∨
        (s.outcome copied failure).state = .transferred) := by
  cases failure with
  | some failure => exact ⟨rfl, Or.inl rfl⟩
  | none =>
    unfold outcome
    dsimp only
    split
    · next hall => exact ⟨hall.symm, Or.inr rfl⟩
    · exact ⟨rfl, Or.inl rfl⟩

theorem isComplete_outcome_some (s : TrackedSegment) (copied : UInt64) (failure : Failure) :
    (s.outcome copied (some failure)).state.isComplete = false := rfl

/-! ## One event -/

/-- The event is an attempt, an interruption or a listing. -/
def Event.ofCopying : Event → Bool
  | .attempt .. | .interruption .. | .listing => true
  | .replacement .. => false

/-- The states in which an event is refused: an attempt once all is copied, a listing before. -/
def Event.RefusedIn : Event → CopyState → Prop
  | .attempt .., state => state = .transferred ∨ state = .restored
  | .listing, state => state = .notTransferred ∨ state = .failed
  | .interruption .., _ | .replacement .., _ => False

/-- The addresses that an event reports as copied. -/
def Event.reported : Event → UInt64
  | .attempt copied _ | .interruption copied => copied
  | .listing => 0
  | .replacement progress => progress.copied

/-- The state to which an event leads from `state`, if all is copied after it and if not. -/
def Event.leadsTo (state : CopyState) (whole : Bool) : Event → CopyState
  | .attempt _ none => if whole then .transferred else .failed
  | .attempt _ (some _) => .failed
  | .interruption _ => state
  | .listing => .restored
  | .replacement progress => progress.state

theorem Event.moves_leadsTo {e : Event} {state : CopyState} (he : e.ofCopying = true)
    (hadmitted : ¬e.RefusedIn state) (whole : Bool) : state.Moves (e.leadsTo state whole) := by
  cases e with
  | attempt copied failure =>
    refine CopyState.moves_of_attempt hadmitted ?_
    cases failure <;> cases whole <;> simp [leadsTo]
  | interruption copied => exact .stays state
  | listing =>
    cases state with
    | transferred => exact .listed
    | restored => exact .stays _
    | notTransferred => exact absurd (Or.inl rfl) hadmitted
    | failed => exact absurd (Or.inr rfl) hadmitted
  | replacement progress => cases he

/-- Only a whole copy without failure leads to the transferred state. -/
theorem Event.leadsTo_eq_transferred {e : Event} {state : CopyState} {whole : Bool}
    (he : e.ofCopying = true) (hbefore : state ≠ .transferred)
    (h : e.leadsTo state whole = .transferred) :
    (∃ copied, e = .attempt copied none) ∧ whole = true := by
  cases e with
  | attempt copied failure =>
    cases failure with
    | none =>
      cases whole with
      | true => exact ⟨⟨copied, rfl⟩, rfl⟩
      | false => cases h
    | some f => cases h
  | interruption copied => exact absurd h hbefore
  | listing => cases h
  | replacement progress => cases he

/-- The segment `u` is what the event `e` makes of `s`. -/
structure Becomes (e : Event) (s u : TrackedSegment) : Prop where
  /-- It passes the checks of a new segment. -/
  create_eq : create u.toSpan u.progress = .ok u
  toSpan_eq : u.toSpan = s.toSpan
  copied_eq : u.progress.copied = min (max e.reported s.progress.copied) s.length
  copied_le : s.progress.copied ≤ u.progress.copied
  copied_le_length : (u.progress.copied.toNat : Int) ≤ u.last.toInt - u.first.toInt + 1
  failure_iff : u.progress.failure.isSome = true ↔ u.state = .failed
  state_eq : u.state = e.leadsTo s.state (u.progress.copied = s.length)
  moves : s.state.Moves u.state
  transferred : u.state = .transferred → s.state ≠ .transferred →
    (∃ copied, e = .attempt copied none) ∧
      (u.progress.copied.toNat : Int) = u.last.toInt - u.first.toInt + 1

theorem Becomes.valid {e : Event} {s u : TrackedSegment} (h : Becomes e s u) : u.Valid :=
  ⟨(checked_eq_ok_iff.mp h.create_eq).1, h.failure_iff⟩

/-- It is enough to know the span, the count and the state of a valid segment. -/
theorem becomes_of_valid {e : Event} {s u : TrackedSegment} (he : e.ofCopying = true)
    (hadmitted : ¬e.RefusedIn s.state) (hs : s.Valid) (hu : u.Valid)
    (hspan : u.toSpan = s.toSpan) (hcopied : u.progress.copied = s.creditFor e.reported)
    (hstate : u.state = e.leadsTo s.state (u.progress.copied = s.length)) :
    Becomes e s u where
  create_eq := hu.checked_eq
  toSpan_eq := hspan
  copied_eq := hcopied
  copied_le := hcopied ▸ copied_le_creditFor hs e.reported
  copied_le_length := by
    rw [← Span.length_eq hu.first_nonneg hu.first_le_last]
    exact Int.ofNat_le.mpr (UInt64.le_iff_toNat_le.mp hu.copied_le)
  failure_iff := hu.progress_wellFormed
  state_eq := hstate
  moves := hstate ▸ e.moves_leadsTo he hadmitted _
  transferred htransferred hbefore := by
    have hwhole := Event.leadsTo_eq_transferred he hbefore (hstate.symm.trans htransferred)
    refine ⟨hwhole.1, ?_⟩
    rw [hu.copied_eq (isComplete_iff.mpr (Or.inl htransferred))]
    exact Span.length_eq hu.first_nonneg hu.first_le_last

theorem state_outcome (s : TrackedSegment) (copied : UInt64) (failure : Option Failure) :
    (s.outcome copied failure).state = (Event.attempt copied failure).leadsTo s.state
      ((s.outcome copied failure).copied = s.length) := by
  cases failure with
  | some failure => rfl
  | none =>
    unfold outcome
    dsimp only
    split
    · next hall => simp [Event.leadsTo, Progress.transferred]
    · next hshort => simp [Event.leadsTo, Progress.failed, hshort]

/-- Only an event that comes in a wrong state is refused, and never for what it would make of the
segment. -/
theorem Valid.apply_cases {s : TrackedSegment} (hs : s.Valid) {e : Event}
    (he : e.ofCopying = true) :
    (e.RefusedIn s.state → ∃ text, s.apply e = .error (.internal text)) ∧
      (¬e.RefusedIn s.state → ∃ u, s.apply e = .ok u ∧ Becomes e s u) := by
  refine ⟨fun hrefused => ?_, fun hadmitted => ?_⟩
  · cases e with
    | attempt copied failure =>
      have hcomplete := isComplete_iff.mpr hrefused
      have hdue : ¬s.isDue = true := by simp [isDue_eq_not_isComplete, hcomplete]
      exact ⟨_, if_neg hdue⟩
    | interruption copied => exact hrefused.elim
    | listing =>
      have hincomplete := isComplete_eq_false_of_isDue (isDue_iff.mpr hrefused)
      exact ⟨_, if_neg (Bool.eq_false_iff.mp hincomplete)⟩
    | replacement progress => cases he
  · cases e with
    | attempt copied failure =>
      have hdue : s.isDue = true := by
        have hincomplete := mt isComplete_iff.mp hadmitted
        simp [isDue_eq_not_isComplete, hincomplete]
      exact ⟨_, attempted_eq hs hdue copied failure,
        becomes_of_valid he hadmitted hs (valid_outcome hs copied failure) rfl
          (s.outcome_cases copied failure).1 (s.state_outcome copied failure)⟩
    | interruption copied =>
      exact ⟨_, interrupted_eq hs copied,
        becomes_of_valid he hadmitted hs (valid_interrupted hs copied) rfl rfl rfl⟩
    | listing =>
      have hcomplete : s.isComplete = true :=
        isComplete_of_isDue_eq_false (Bool.eq_false_iff.mpr (mt isDue_iff.mp hadmitted))
      exact ⟨_, listed_eq hs.fault_eq_none hcomplete,
        becomes_of_valid he hadmitted hs (valid_asRestored hs.fault_eq_none) rfl
          (creditFor_of_isComplete hs hcomplete 0).symm rfl⟩
    | replacement progress => cases he

/-! ## Any series of events -/

/-- The segment after an event, or as it was if the event is refused. -/
def after (s : TrackedSegment) (e : Event) : TrackedSegment :=
  match s.apply e with
  | .ok u => u
  | .error _ => s

/-- The segment after one event and another. -/
def afterAll (s : TrackedSegment) (events : List Event) : TrackedSegment := events.foldl after s

/-- The segment `t` is what a series of events has made of `s`. -/
structure Continues (s t : TrackedSegment) : Prop where
  valid : t.Valid
  toSpan_eq : t.toSpan = s.toSpan
  copied_le : s.progress.copied ≤ t.progress.copied
  moves : Relation.ReflTransGen CopyState.Moves s.state t.state

theorem Continues.refl {s : TrackedSegment} (hs : s.Valid) : Continues s s :=
  ⟨hs, rfl, UInt64.le_refl _, .refl⟩

theorem Continues.trans {s t u : TrackedSegment} (h : Continues s t) (h' : Continues t u) :
    Continues s u :=
  ⟨h'.valid, h'.toSpan_eq.trans h.toSpan_eq, UInt64.le_trans h.copied_le h'.copied_le,
    h.moves.trans h'.moves⟩

/-- A refused event leaves the segment as it was. -/
theorem Valid.continues_after {s : TrackedSegment} (hs : s.Valid) {e : Event}
    (he : e.ofCopying = true) : Continues s (s.after e) := by
  obtain ⟨hrefused, hadmitted⟩ := hs.apply_cases he
  unfold after
  by_cases hstate : e.RefusedIn s.state
  · obtain ⟨text, herror⟩ := hrefused hstate
    rw [herror]
    exact .refl hs
  · obtain ⟨u, hok, hu⟩ := hadmitted hstate
    rw [hok]
    exact ⟨hu.valid, hu.toSpan_eq, hu.copied_le, .single hu.moves⟩

theorem Valid.continues_afterAll {s : TrackedSegment} (hs : s.Valid) {events : List Event}
    (hevents : ∀ e ∈ events, e.ofCopying = true) : Continues s (s.afterAll events) := by
  induction events generalizing s with
  | nil => exact .refl hs
  | cons e rest ih =>
    have hfirst := hs.continues_after (hevents e List.mem_cons_self)
    exact hfirst.trans (ih hfirst.valid fun e he => hevents e (List.mem_cons_of_mem _ he))

/-- A segment is created with a cause of failure exactly if it failed, and any series of attempts,
interruptions and listings follows, with any counts and any failures. The next such event is refused
exactly if it is an attempt at a segment that is copied, or a listing of one that is not, and then
for its state and not as an invalid segment. Else it replaces the segment by one that could be
created as it is. That one has the same span, counts what the event reports but no less than before
and no more than there is, has a cause of failure exactly if it failed, and is in the state to which
the event leads, the same or one that may follow. Transferred it becomes only if an attempt without
failure has copied all. -/
theorem becomes_or_is_refused {span : Span} {progress : Progress} {s : TrackedSegment}
    (hs : create span progress = .ok s) (hprogress : progress.WellFormed) {events : List Event}
    (hevents : ∀ e ∈ events, e.ofCopying = true) {e : Event} (he : e.ofCopying = true) :
    let t := s.afterAll events
    Continues s t ∧ t.toSpan = span ∧
      (e.RefusedIn t.state → ∃ text, t.apply e = .error (.internal text)) ∧
      (¬e.RefusedIn t.state → ∃ u, t.apply e = .ok u ∧ Becomes e t u) := by
  obtain ⟨hfault, rfl⟩ := checked_eq_ok_iff.mp hs
  have hcontinues : Continues ⟨span, progress⟩ (afterAll ⟨span, progress⟩ events) :=
    Valid.continues_afterAll ⟨hfault, hprogress⟩ hevents
  exact ⟨hcontinues, hcontinues.toSpan_eq, hcontinues.valid.apply_cases he⟩

/-- The first attempt fails after four of ten addresses, a second is cut short after six, and the
listing comes too early. The third attempt copies the rest, and a fourth is refused. -/
theorem becomes_or_is_refused_after_retry :
    let reset : Failure := ⟨"reset"⟩
    let events : List Event := [.attempt 4 (some reset), .interruption 6, .listing]
    let retry : Event := .attempt 10 none
    let s : TrackedSegment := ⟨⟨0, 9⟩, .notTransferred 0⟩
    let t : TrackedSegment := ⟨⟨0, 9⟩, .failed 6 reset⟩
    let u : TrackedSegment := ⟨⟨0, 9⟩, .transferred 10⟩
    create ⟨0, 9⟩ (.notTransferred 0) = .ok s ∧ s.afterAll events = t ∧ Continues s t ∧
      t.apply retry = .ok u ∧ Becomes retry t u ∧ s.afterAll (events ++ [retry]) = u ∧
      ∃ text, u.apply retry = .error (.internal text) := by
  intro reset events retry s t u
  have hcreate : create ⟨0, 9⟩ (.notTransferred 0) = .ok s :=
    checked_eq_ok_iff.mpr ⟨by decide +kernel, rfl⟩
  have hwellFormed : (Progress.notTransferred 0).WellFormed := by decide
  have hevents : ∀ e ∈ events ++ [retry], e.ofCopying = true := by decide
  have hbefore : s.afterAll events = t := by decide +kernel
  have hafter : s.afterAll (events ++ [retry]) = u := by decide +kernel
  have hretry : t.after retry = u := by decide +kernel
  obtain ⟨hcontinues, -, -, hadmitted⟩ := becomes_or_is_refused hcreate hwellFormed
    (fun e he => hevents e (List.mem_append_left _ he)) (e := retry) rfl
  obtain ⟨-, -, hrefused, -⟩ := becomes_or_is_refused hcreate hwellFormed hevents (e := retry) rfl
  rw [hbefore] at hcontinues hadmitted
  rw [hafter] at hrefused
  obtain ⟨v, hok, hv⟩ := hadmitted (by simp [t, retry, Event.RefusedIn, state, Progress.failed])
  obtain rfl : v = u := by
    rw [after, hok] at hretry
    exact hretry
  exact ⟨hcreate, hbefore, hcontinues, hok, hv, hafter, hrefused (Or.inl rfl)⟩

end TrackedSegment

end LogRepair
