import LogRepair.Cycle.ServiceRun
import LogRepair.Proofs.Cycle.Invariant
import LogRepair.Proofs.Results

/-!
# What the event loop owes its events

The loop runs a cycle for every event that it receives, and for nothing else; an event of a
running cycle is first handed to that cycle. It goes off only when it was told to, or when a cycle
says that it was cancelled, which a cycle also says when its sources do.

* `Coordinator.cancelled_cases`: what makes a cycle say that it was cancelled.
* `Service.events_and_cycles`: every event gets a cycle, and no cycle is spurious.
* `Service.off_cases`: what ends the loop.
-/

namespace LogRepair

/-! ## Errors that the library reports of its own data -/

/-- A segment cannot be, or is asked for what its state does not allow. -/
def Error.IsRefusal : Error → Prop
  | .invalidSegment _ _ _ | .internal _ => True
  | .invalidConfig _ | .invalidLayout _ | .staleEpoch _ _ | .transfer _ | .cancelled
  | .cycleInProgress | .workerCrashed => False

namespace TrackedSegment

theorem failsWith_checked (s : TrackedSegment) : FailsWith Error.IsRefusal s.checked := by
  unfold checked
  split
  · exact failsWith_error trivial
  · exact failsWith_ok s

theorem failsWith_attempted (s : TrackedSegment) (copied : UInt64) (failure : Option Failure) :
    FailsWith Error.IsRefusal (s.attempted copied failure) := by
  unfold attempted
  split
  · exact failsWith_checked _
  · exact failsWith_error trivial

theorem failsWith_listed (s : TrackedSegment) : FailsWith Error.IsRefusal s.listed := by
  unfold listed
  split
  · exact failsWith_checked _
  · exact failsWith_error trivial

theorem failsWith_carried (s : TrackedSegment) : FailsWith Error.IsRefusal s.carried := by
  unfold carried
  split
  · exact failsWith_listed s
  · exact failsWith_ok s

end TrackedSegment

theorem failsWith_reconcile (old fresh : List TrackedSegment) :
    FailsWith Error.IsRefusal (reconcile old fresh) := by
  unfold reconcile
  refine failsWith_bind (failsWith_mapM fun s _ => ?_) fun claimed => ?_
  · exact failsWith_mapM fun p _ => p.failsWith_checked
  · refine failsWith_bind (failsWith_mapM fun s _ => s.failsWith_carried) fun carried => ?_
    exact failsWith_ok _

theorem Layout.failsWith_requirement (l : Layout) (node : NodeId) (trimMark : Address) :
    FailsWith Error.IsRefusal (l.requirement node trimMark) := by
  refine failsWith_mapM fun r _ => ?_
  unfold Layout.required
  split <;> exact TrackedSegment.failsWith_checked _

theorem Workload.failsWith_close (w : Workload) : FailsWith Error.IsRefusal w.close := by
  refine failsWith_mapM fun t _ => ?_
  unfold Target.close
  dsimp only
  split
  · exact failsWith_map _ (TrackedSegment.failsWith_checked _)
  · exact failsWith_map _ (TrackedSegment.failsWith_attempted _ _ _)

namespace Coordinator

theorem failsWith_draft (c : Coordinator) (layout : Layout) (trimMark : Address) :
    FailsWith Error.IsRefusal (c.draft layout trimMark) := by
  unfold draft
  refine failsWith_bind (layout.failsWith_requirement c.node trimMark) fun required => ?_
  exact failsWith_bind (failsWith_reconcile c.tracked required) fun merged => failsWith_ok _

/-! ## How a turn ends -/

/-- The source of the layout or of the trim mark answers that the operation was cancelled. -/
def Happening.SourceCancels : Happening → Prop
  | .reply .readingLayout (.error .cancelled) => True
  | .reply (.readingTrimMark _) (.error .cancelled) => True
  | _ => False

/-- A cycle says that it was cancelled only after a shutdown, or if one of its sources says so. -/
theorem cancelled_cases {c : Coordinator} {h : Happening}
    (houtcome : (h.turn c).outcome = some (.error .cancelled)) :
    c.stopped = true ∨ h.SourceCancels := by
  cases h with
  | begin =>
    simp only [Happening.turn, begin] at houtcome
    split at houtcome
    · cases houtcome
    · split at houtcome
      · next hstopped => exact Or.inl hstopped
      · cases houtcome
  | reply s answer =>
    obtain ⟨p, hentry, hfollows⟩ := follows_resume c s answer
    obtain ⟨q, hq, hends⟩ := hfollows.exists_ends
      (P := fun p => ∀ published, p = .over published (.error .cancelled) →
        c.stopped = true ∨ (Happening.reply s answer).SourceCancels)
      (by
        intro published hp
        subst hp
        cases hentry with
        | layoutUnread | trimMarkUnread => exact Or.inr trivial
        | undrafted h => exact absurd (c.failsWith_draft _ _ _ h) id)
      (by
        intro p q _ hstep published hq
        subst hq
        cases hstep with
        | refuse _ _ hclose => exact absurd (Workload.failsWith_close _ _ hclose) id
        | stop h => exact Or.inl h)
    obtain ⟨published, rfl, -⟩ := hends.eq_over_of_outcome houtcome
    exact hq published rfl
  | announce layout | shutdown => cases houtcome
  | switch k =>
    simp only [Happening.turn, switch] at houtcome
    split at houtcome
    · cases houtcome
    · split at houtcome <;> cases houtcome
  | hire =>
    rw [Happening.turn, outcome_hire] at houtcome
    cases houtcome
  | abandon =>
    simp only [Happening.turn, abandon] at houtcome
    split at houtcome
    · cases houtcome
    · split at houtcome <;> cases houtcome

/-- A cycle that begins is open; otherwise nothing changes, and the refusal says why. -/
theorem begin_cases (c : Coordinator) :
    (c.begin.outcome = none ∧ c.begin.coordinator.stage.isSome = true) ∨
      (c.begin.coordinator = c ∧ (c.begin.outcome = some (.error .cycleInProgress) ∨
        c.stopped = true ∧ c.begin.outcome = some (.error .cancelled))) := by
  unfold begin
  split
  · exact Or.inr ⟨rfl, Or.inl rfl⟩
  · split
    · next hstopped => exact Or.inr ⟨rfl, Or.inr ⟨hstopped, rfl⟩⟩
    · exact Or.inl ⟨rfl, rfl⟩

/-- A turn that does not end the cycle leaves it open. -/
theorem stage_isSome_turn {c : Coordinator} {h : Happening} (hopen : c.stage.isSome = true)
    (houtcome : (h.turn c).outcome = none) : (h.turn c).coordinator.stage.isSome = true := by
  have hfollows : ∀ {p}, Follows c p (h.turn c) → (h.turn c).coordinator.stage.isSome = true := by
    rintro p ⟨q, -, hends⟩
    match q, hends with
    | .waiting s, ⟨_, hstage, _⟩ => rw [hstage, Option.isSome_some]
    | .over _ outcome, ⟨hsome, _, _⟩ =>
      rw [hsome] at houtcome
      cases houtcome
  rcases h.isAside_or_reply with haside | ⟨s, answer, rfl⟩
  · rcases haside.shifts c with (⟨hstage, -⟩ | ⟨s, p, -, -, hp⟩) | ⟨-, hidle⟩
    · rwa [hstage]
    · exact hfollows hp
    · rw [hidle] at hopen
      cases hopen
  · obtain ⟨p, -, hp⟩ := follows_resume c s answer
    exact hfollows hp

end Coordinator

/-! ## One moment -/

namespace EventLoop

theorem phase_rest_ne_cycling (l : EventLoop) (stopped : Bool) :
    (l.rest stopped).phase ≠ .cycling := by
  unfold rest
  split <;> simp [stop]

theorem pending_rest (l : EventLoop) (stopped : Bool) : (l.rest stopped).pending = l.pending := by
  unfold rest
  split <;> rfl

theorem closed_rest (l : EventLoop) (stopped : Bool) : (l.rest stopped).closed = l.closed := by
  unfold rest
  split <;> rfl

theorem off_of_rest {l : EventLoop} {stopped : Bool} (h : (l.rest stopped).phase = .off) :
    l.closed = true ∨ stopped = true := by
  unfold rest at h
  split at h
  · next hrest => simpa using hrest
  · cases h

/-- What the end of a cycle makes of the loop. -/
theorem cycleEnded_cases (l : EventLoop) (stopped : Bool) (outcome : Outcome) :
    (outcome = .error .cancelled ∧ l.cycleEnded stopped outcome = (l.stop, none)) ∨
      (l.pending = true ∧ stopped = false ∧ l.cycleEnded stopped outcome = l.launch) ∨
      ((l.pending = false ∨ stopped = true) ∧
        l.cycleEnded stopped outcome = (l.rest stopped, none)) := by
  unfold cycleEnded
  split
  · exact Or.inl ⟨rfl, rfl⟩
  · rw [if_neg Bool.false_ne_true]
    split
    · next hpending =>
      rw [Bool.and_eq_true, Bool.not_eq_true'] at hpending
      exact Or.inr (Or.inl ⟨hpending.1, hpending.2, rfl⟩)
    · next hpending =>
      refine Or.inr (Or.inr ⟨?_, rfl⟩)
      cases hl : l.pending
      · exact Or.inl rfl
      · simpa [hl] using hpending

theorem notice_cases (l : EventLoop) (stopped : Bool) :
    (l.phase = .waiting ∧ stopped = true ∧ l.notice stopped = l.stop) ∨ l.notice stopped = l := by
  unfold notice
  split
  · next h =>
    rw [Bool.and_eq_true, decide_eq_true_eq] at h
    exact Or.inl ⟨h.1, h.2, rfl⟩
  · exact Or.inr rfl

end EventLoop

namespace Service

namespace Moment

/-- What a moment can mean for the loop. -/
inductive Course (m : Moment) : Prop
  /-- Nothing that the loop takes part in. -/
  | kept (hreceipt : m.isReceipt = false) (hending : m.ending = none)
      (hreaction : m.reaction = (m.before.loop, none))
  | closed (hreceipt : m.isReceipt = false) (hending : m.ending = none)
      (hreaction : m.reaction = (m.before.loop.close, none))
  /-- A waiting loop goes off after a shutdown. -/
  | dismissed (hending : m.ending = none) (hphase : m.before.loop.phase = .waiting)
      (hstopped : m.settled.stopped = true) (hreaction : m.reaction = (m.before.loop.stop, none))
  /-- A waiting loop has received an event. -/
  | woken (hreceipt : m.isReceipt = true) (hending : m.ending = none)
      (hphase : m.before.loop.phase = .waiting) (hreaction : m.reaction = m.before.loop.launch)
  /-- The loop has received an event during its cycle. -/
  | told {layout : Layout} (hhappening : m.happening = .receive layout)
      (hphase : m.before.loop.phase = .cycling)
      (hreaction : m.reaction = ({ m.before.loop with pending := true }, some (.adapt layout)))
  /-- The cycle of the loop says that it was cancelled. -/
  | cancelled (hreceipt : m.isReceipt = false) (hending : m.ending = some (.error .cancelled))
      (hreaction : m.reaction = (m.before.loop.stop, none))
  /-- The cycle of the loop is over, and an event is pending. -/
  | relaunched {outcome : Outcome} (hreceipt : m.isReceipt = false)
      (hending : m.ending = some outcome) (hpending : m.before.loop.pending = true)
      (hreaction : m.reaction = m.before.loop.launch)
  /-- The cycle of the loop is over, and the loop may rest. -/
  | rested {outcome : Outcome} (hreceipt : m.isReceipt = false) (hending : m.ending = some outcome)
      (hrest : m.before.loop.pending = false ∨ m.settled.stopped = true)
      (hreaction : m.reaction = (m.before.loop.rest m.settled.stopped, none))

theorem course {m : Moment} (possible : m.happening.Possible m.before) : m.Course := by
  obtain ⟨s, happening⟩ := m
  cases happening with
  | cycle => exact .kept rfl rfl rfl
  | close => exact .closed rfl rfl rfl
  | notice =>
    rcases s.loop.notice_cases s.coordinator.stopped with ⟨hphase, hstopped, h⟩ | h
    · refine .dismissed rfl hphase hstopped ?_
      simp only [reaction, settled, h]
    · refine .kept rfl rfl ?_
      simp only [reaction, settled, h]
  | receive layout =>
    have hon : s.loop.phase ≠ .off := by
      intro hoff
      simp [Happening.Possible, isListening, EventLoop.isListening, hoff] at possible
    cases hphase : s.loop.phase with
    | off => exact absurd hphase hon
    | cycling =>
      refine .told rfl hphase ?_
      simp only [reaction, EventLoop.receive, hphase]
    | waiting =>
      cases hstopped : s.coordinator.stopped with
      | true =>
        refine .dismissed rfl hphase hstopped ?_
        simp only [reaction, settled, EventLoop.receive, hphase, hstopped, if_true]
      | false =>
        refine .woken rfl rfl hphase ?_
        simp only [reaction, settled, EventLoop.receive, hphase, hstopped, Bool.false_eq_true,
          if_false]
  | step h =>
    cases hending : (⟨s, .step h⟩ : Moment).ending with
    | none =>
      refine .kept rfl hending ?_
      simp only [reaction, hending]
    | some outcome =>
      have hreaction : (⟨s, .step h⟩ : Moment).reaction =
          s.loop.cycleEnded (h.turn s.coordinator).coordinator.stopped outcome := by
        simp only [reaction, hending, settled]
      rcases s.loop.cycleEnded_cases (h.turn s.coordinator).coordinator.stopped outcome with
        ⟨rfl, heq⟩ | ⟨hpending, -, heq⟩ | ⟨hrest, heq⟩
      · exact .cancelled rfl hending (hreaction.trans heq)
      · exact .relaunched rfl hending hpending (hreaction.trans heq)
      · exact .rested rfl hending hrest (hreaction.trans heq)

end Moment

/-- What comes of a cycle that the loop asks for: it is open, or it was refused at once and the
loop rests without a pending event. -/
theorem obey_launch_cases (s : Service) (l : EventLoop) :
    (s.coordinator.begin.coordinator.stage.isSome = true ∧
      s.obey l.launch = ⟨s.coordinator.begin.coordinator, l.launch.1⟩) ∨
    ∃ loop, s.obey l.launch = ⟨s.coordinator.begin.coordinator, loop⟩ ∧ loop.phase ≠ .cycling ∧
      loop.pending = false ∧ loop.closed = l.closed ∧
      (loop.phase = .off → l.closed = true ∨ s.coordinator.stopped = true) := by
  have hrefused : ∀ outcome, s.coordinator.begin.outcome = some outcome →
      s.obey l.launch = ⟨s.coordinator.begin.coordinator,
        (l.launch.1.cycleEnded s.coordinator.begin.coordinator.stopped outcome).1⟩ := by
    intro outcome houtcome
    simp only [obey, EventLoop.launch, houtcome]
  rcases s.coordinator.begin_cases with ⟨hnone, hopen⟩ | ⟨hsame, houtcome⟩
  · refine Or.inl ⟨hopen, ?_⟩
    simp only [obey, EventLoop.launch, hnone]
  · refine Or.inr ?_
    rcases houtcome with houtcome | ⟨hstopped, houtcome⟩
    · refine ⟨_, hrefused _ houtcome, ?_⟩
      have hrest : (l.launch.1.cycleEnded s.coordinator.begin.coordinator.stopped
          (.error .cycleInProgress)).1 = l.launch.1.rest s.coordinator.stopped := by
        rw [hsame]
        rfl
      rw [hrest]
      exact ⟨EventLoop.phase_rest_ne_cycling _ _, EventLoop.pending_rest _ _,
        EventLoop.closed_rest _ _, EventLoop.off_of_rest⟩
    · refine ⟨_, hrefused _ houtcome, ?_⟩
      refine ⟨?_, rfl, rfl, fun _ => Or.inr hstopped⟩
      intro hphase
      cases hphase

theorem pending_obey_launch (s : Service) (l : EventLoop) :
    (s.obey l.launch).loop.pending = false := by
  rcases s.obey_launch_cases l with ⟨-, h⟩ | ⟨loop, h, -, hpending, -⟩
  · rw [h]
    rfl
  · rw [h]
    exact hpending

namespace Moment

variable {m : Moment}

/-- The coordinator ends up with what the loop asked of it. -/
theorem coordinator_after (m : Moment) :
    m.after.coordinator = match m.call with
      | none => m.settled
      | some .cycle => m.settled.begin.coordinator
      | some (.adapt layout) => (m.settled.adaptTo layout).1 := by
  rw [after_eq_obey, call]
  cases m.reaction with
  | mk l call =>
    match call with
    | none | some (.adapt _) => rfl
    | some .cycle =>
      simp only [obey]
      split <;> rfl

/-- A cycle of the loop that a moment does not end stays open. -/
theorem stage_isSome_settled (hphase : m.before.loop.phase = .cycling)
    (hopen : m.before.coordinator.stage.isSome = true) (hending : m.ending = none) :
    m.settled.stage.isSome = true := by
  obtain ⟨s, happening⟩ := m
  cases happening with
  | cycle =>
    rcases s.coordinator.begin_cases with ⟨-, hopen'⟩ | ⟨hsame, -⟩
    · exact hopen'
    · exact (congrArg (·.stage.isSome) hsame).trans hopen
  | step h =>
    have houtcome : (h.turn s.coordinator).outcome = none := (if_pos hphase).symm.trans hending
    exact Coordinator.stage_isSome_turn hopen houtcome
  | receive layout | close | notice => exact hopen

/-- While the loop is about a cycle, that cycle is open. -/
theorem stage_isSome_after (possible : m.happening.Possible m.before)
    (hbefore : m.before.loop.phase = .cycling → m.before.coordinator.stage.isSome = true)
    (hafter : m.after.loop.phase = .cycling) : m.after.coordinator.stage.isSome = true := by
  rw [after_eq_obey] at hafter ⊢
  cases course possible with
  | kept _ hending hreaction =>
    rw [hreaction] at hafter ⊢
    exact stage_isSome_settled hafter (hbefore hafter) hending
  | closed _ hending hreaction =>
    rw [hreaction] at hafter ⊢
    have hphase : m.before.loop.phase = .cycling := by
      simp only [obey, EventLoop.close] at hafter
      split at hafter
      · next hoff => cases hoff.symm.trans hafter
      · cases hafter
      · next hcycling => exact hcycling
    exact stage_isSome_settled hphase (hbefore hphase) hending
  | dismissed _ _ _ hreaction | cancelled _ _ hreaction =>
    rw [hreaction] at hafter
    cases hafter
  | woken _ _ _ hreaction | relaunched _ _ _ hreaction =>
    rw [hreaction] at hafter ⊢
    rcases obey_launch_cases ⟨m.settled, m.before.loop⟩ m.before.loop with
      ⟨hopen, h⟩ | ⟨loop, h, hne, -⟩
    · rw [h]
      exact hopen
    · rw [h] at hafter
      exact absurd hafter hne
  | @told layout hhappening hphase hreaction =>
    have hsettled : m.settled = m.before.coordinator := by rw [settled, hhappening]
    rw [hreaction, hsettled]
    exact Coordinator.stage_isSome_turn (h := .announce layout) (hbefore hphase) rfl
  | rested _ _ _ hreaction =>
    rw [hreaction] at hafter
    exact absurd hafter (EventLoop.phase_rest_ne_cycling _ _)

/-- A cycle is asked for at the cost of an event: of the one that just came, or of one that
was pending. -/
theorem calls_add_pending_le (possible : m.happening.Possible m.before) :
    (if m.call = some .cycle then 1 else 0) + m.after.loop.pending.toNat ≤
      m.before.loop.pending.toNat + m.isReceipt.toNat := by
  rw [after_eq_obey, call]
  cases course possible with
  | kept hreceipt _ hreaction =>
    rw [hreaction, hreceipt]
    simp [obey]
  | closed hreceipt _ hreaction =>
    have hpending : m.before.loop.close.pending = m.before.loop.pending := by
      unfold EventLoop.close
      split <;> rfl
    rw [hreaction, hreceipt]
    simp [obey, hpending]
  | dismissed _ _ _ hreaction | cancelled _ _ hreaction =>
    rw [hreaction]
    simp [obey, EventLoop.stop]
  | rested _ _ _ hreaction =>
    rw [hreaction]
    simp [obey, EventLoop.pending_rest]
  | told hhappening _ hreaction =>
    rw [hreaction, isReceipt, hhappening]
    simp [obey]
  | woken hreceipt _ _ hreaction =>
    rw [hreaction, hreceipt, pending_obey_launch]
    simp [EventLoop.launch]
  | relaunched _ _ hpending hreaction =>
    rw [hreaction, hpending, pending_obey_launch]
    simp [EventLoop.launch]

/-- What can turn the loop off at a moment. -/
theorem off_cases_of_after (possible : m.happening.Possible m.before)
    (hoff : m.after.loop.phase = .off) :
    m.before.loop.phase = .off ∨ m.after.loop.closed = true ∨ m.settled.stopped = true ∨
      m.ending = some (.error .cancelled) := by
  rw [after_eq_obey] at hoff ⊢
  cases course possible with
  | kept _ _ hreaction =>
    rw [hreaction] at hoff
    exact Or.inl hoff
  | closed _ _ hreaction =>
    rw [hreaction] at hoff ⊢
    simp only [obey, EventLoop.close] at hoff ⊢
    split at hoff
    · next h => exact Or.inl h
    · next h => exact Or.inr (Or.inl (by simp only [EventLoop.stop]))
    · next h => exact Or.inl hoff
  | dismissed _ _ hstopped => exact Or.inr (Or.inr (Or.inl hstopped))
  | cancelled _ hending => exact Or.inr (Or.inr (Or.inr hending))
  | woken _ _ _ hreaction | relaunched _ _ _ hreaction =>
    rw [hreaction] at hoff ⊢
    rcases obey_launch_cases ⟨m.settled, m.before.loop⟩ m.before.loop with
      ⟨-, h⟩ | ⟨loop, h, -, -, hclosed, hcause⟩
    · rw [h] at hoff
      cases hoff
    · rw [h] at hoff ⊢
      rcases hcause hoff with hc | hstopped
      · exact Or.inr (Or.inl (hclosed.trans hc))
      · exact Or.inr (Or.inr (Or.inl hstopped))
  | told _ hphase hreaction =>
    rw [hreaction] at hoff
    cases hphase.symm.trans hoff
  | rested _ _ _ hreaction =>
    rw [hreaction] at hoff ⊢
    rcases EventLoop.off_of_rest hoff with hc | hstopped
    · exact Or.inr (Or.inl ((EventLoop.closed_rest _ _).trans hc))
    · exact Or.inr (Or.inr (Or.inl hstopped))

/-- A channel does not open again. -/
theorem closed_after (possible : m.happening.Possible m.before)
    (hclosed : m.before.loop.closed = true) : m.after.loop.closed = true := by
  rw [after_eq_obey]
  cases course possible with
  | kept _ _ hreaction | dismissed _ _ _ hreaction | cancelled _ _ hreaction
  | told _ _ hreaction =>
    rw [hreaction]
    exact hclosed
  | closed _ _ hreaction =>
    rw [hreaction]
    simp only [obey, EventLoop.close]
    split
    · exact hclosed
    · rfl
    · rfl
  | woken _ _ _ hreaction | relaunched _ _ _ hreaction =>
    rw [hreaction]
    rcases obey_launch_cases ⟨m.settled, m.before.loop⟩ m.before.loop with
      ⟨-, h⟩ | ⟨loop, h, -, -, hclosed', -⟩
    · rw [h]
      exact hclosed
    · rw [h]
      exact hclosed'.trans hclosed
  | rested _ _ _ hreaction =>
    rw [hreaction]
    exact (EventLoop.closed_rest _ _).trans hclosed

/-- Shutdown stays signalled, whatever the happening and whatever the loop asks for. -/
theorem stopped_after (hstopped : m.settled.stopped = true) :
    m.after.coordinator.stopped = true := by
  rw [coordinator_after]
  split
  · exact hstopped
  · exact Coordinator.stopped_turn .begin hstopped
  · exact Coordinator.stopped_turn (.announce _) hstopped

theorem stopped_settled (hstopped : m.before.coordinator.stopped = true) :
    m.settled.stopped = true := by
  unfold settled
  split
  · exact Coordinator.stopped_turn .begin hstopped
  · exact Coordinator.stopped_turn _ hstopped
  · exact hstopped
  · exact hstopped
  · exact hstopped

end Moment

/-! ## Every event gets a cycle -/

variable {start s : Service} {m : Moment} {moments later earlier : List Moment}

theorem Run.head (run : Run start (m :: moments) s) :
    s = m.after ∧ m.happening.Possible m.before ∧ Run start moments m.before := by
  cases run with
  | cons run h possible => exact ⟨rfl, possible, run⟩

theorem Run.of_append (run : Run start (later ++ m :: earlier) s) :
    m.happening.Possible m.before ∧ Run start earlier m.before := by
  induction later generalizing s with
  | nil => exact run.head.2
  | cons u later ih => exact ih run.head.2.2

theorem Run.stage_isSome (hstart : start.loop = { phase := .waiting }) (run : Run start moments s)
    (hphase : s.loop.phase = .cycling) : s.coordinator.stage.isSome = true := by
  induction run with
  | nil =>
    rw [hstart] at hphase
    cases hphase
  | @cons moments s run h possible ih =>
    exact Moment.stage_isSome_after (m := ⟨s, h⟩) possible ih hphase

/-- The cycle of the loop has gone on since, and an event is pending. -/
structure AwaitsEnd (later : List Moment) (s : Service) : Prop where
  ending_eq_none : ∀ u ∈ later, u.ending = none
  cycling : s.loop.phase = .cycling
  pending : s.loop.pending = true
  stage_isSome : s.coordinator.stage.isSome = true

/-- The cycle of the loop has ended since. The loop began the next at once, unless that cycle
said that it was cancelled, or shutdown was signalled. -/
def FollowedUp (later : List Moment) : Prop :=
  ∃ newer u older outcome, later = newer ++ u :: older ∧ (∀ v ∈ older, v.ending = none) ∧
    u.ending = some outcome ∧
    (outcome = .error .cancelled ∨ u.settled.stopped = true ∨ u.call = some .cycle)

/-- An event that comes during a cycle of the loop is pending. -/
theorem AwaitsEnd.of_receipt (possible : m.happening.Possible m.before)
    (hreceipt : m.isReceipt = true) (hphase : m.before.loop.phase = .cycling)
    (hopen : m.before.coordinator.stage.isSome = true) : AwaitsEnd [] m.after := by
  have hloop : m.after.loop = { m.before.loop with pending := true } := by
    rw [Moment.after_eq_obey]
    cases Moment.course possible with
    | told _ _ hreaction =>
      rw [hreaction]
      rfl
    | dismissed _ hwaiting | woken _ _ hwaiting => cases hwaiting.symm.trans hphase
    | kept hno | closed hno | cancelled hno | relaunched hno | rested hno =>
      rw [hreceipt] at hno
      cases hno
  have hcycling : m.after.loop.phase = .cycling := by
    rw [hloop]
    exact hphase
  refine ⟨List.forall_mem_nil _, hcycling, by rw [hloop], ?_⟩
  exact Moment.stage_isSome_after possible (fun _ => hopen) hcycling

/-- A moment that does not end the cycle leaves the event pending. -/
theorem AwaitsEnd.cons (h : AwaitsEnd later m.before) (possible : m.happening.Possible m.before)
    (hending : m.ending = none) : AwaitsEnd (m :: later) m.after := by
  have hloop : m.after.loop.phase = .cycling ∧ m.after.loop.pending = true := by
    rw [Moment.after_eq_obey]
    cases Moment.course possible with
    | kept _ _ hreaction =>
      rw [hreaction]
      exact ⟨h.cycling, h.pending⟩
    | closed _ _ hreaction =>
      rw [hreaction]
      simp only [obey, EventLoop.close, h.cycling, h.pending, and_self]
    | told _ _ hreaction =>
      rw [hreaction]
      exact ⟨h.cycling, rfl⟩
    | dismissed _ hphase | woken _ _ hphase => cases hphase.symm.trans h.cycling
    | cancelled _ hsome | relaunched _ hsome | rested _ hsome =>
      rw [hending] at hsome
      cases hsome
  refine ⟨?_, hloop.1, hloop.2, ?_⟩
  · exact List.forall_mem_cons.mpr ⟨hending, h.ending_eq_none⟩
  · exact Moment.stage_isSome_after possible (fun _ => h.stage_isSome) hloop.1

/-- The end of the cycle settles the pending event. -/
theorem AwaitsEnd.followedUp (h : AwaitsEnd later m.before)
    (possible : m.happening.Possible m.before) {outcome : Outcome}
    (hending : m.ending = some outcome) : FollowedUp (m :: later) := by
  refine ⟨[], m, later, outcome, rfl, h.ending_eq_none, hending, ?_⟩
  cases Moment.course possible with
  | cancelled _ hsome =>
    rw [hending] at hsome
    exact Or.inl (Option.some.inj hsome)
  | relaunched _ _ _ hreaction => exact Or.inr (Or.inr (congrArg Prod.snd hreaction))
  | rested _ _ hrest =>
    rw [h.pending] at hrest
    exact Or.inr (Or.inl (hrest.resolve_left Bool.noConfusion))
  | told hhappening =>
    rw [Moment.ending, hhappening] at hending
    cases hending
  | kept _ hnone | closed _ hnone | dismissed hnone | woken _ hnone =>
    rw [hending] at hnone
    cases hnone

theorem FollowedUp.cons (h : FollowedUp later) : FollowedUp (m :: later) := by
  obtain ⟨newer, u, older, outcome, rfl, holder, hending, hcause⟩ := h
  exact ⟨m :: newer, u, older, outcome, rfl, holder, hending, hcause⟩

/-- An event that comes during a cycle of the loop waits for the end of that cycle, which settles
it. The induction is on what happened since. -/
theorem awaits_or_followedUp (hstart : start.loop = { phase := .waiting })
    (run : Run start (later ++ m :: earlier) s) {layout : Layout}
    (hm : m.happening = .receive layout) (hphase : m.before.loop.phase = .cycling) :
    AwaitsEnd later s ∨ FollowedUp later := by
  induction later generalizing s with
  | nil =>
    obtain ⟨rfl, possible, hbefore⟩ := run.head
    have hreceipt : m.isReceipt = true := by rw [Moment.isReceipt, hm]
    exact Or.inl (.of_receipt possible hreceipt hphase (hbefore.stage_isSome hstart hphase))
  | cons u later ih =>
    obtain ⟨rfl, possible, hbefore⟩ := run.head
    rcases ih hbefore with hawaits | hfollowed
    · cases hending : u.ending with
      | none => exact Or.inl (hawaits.cons possible hending)
      | some outcome => exact Or.inr (hawaits.followedUp possible hending)
    · exact Or.inr hfollowed.cons

/-- The loop never asks for more cycles than it received events; a pending event is a cycle still
to come. -/
theorem Run.calls_add_pending_le (hstart : start.loop = { phase := .waiting })
    (run : Run start moments s) :
    moments.countP (·.call = some .cycle) + s.loop.pending.toNat ≤
      moments.countP Moment.isReceipt := by
  induction run with
  | nil =>
    rw [hstart]
    exact Nat.le_refl 0
  | @cons moments s run h possible ih =>
    have hm := Moment.calls_add_pending_le (m := ⟨s, h⟩) possible
    have hreceipt : (if (⟨s, h⟩ : Moment).isReceipt = true then 1 else 0) =
        (⟨s, h⟩ : Moment).isReceipt.toNat := by
      cases (⟨s, h⟩ : Moment).isReceipt <;> rfl
    rw [List.countP_cons, List.countP_cons, hreceipt]
    simp only [decide_eq_true_eq]
    change _ + (⟨s, h⟩ : Moment).after.loop.pending.toNat ≤ _
    dsimp only at hm
    omega

/-- Every event gets a cycle, and no cycle is spurious. A waiting loop that receives an event
begins a cycle, unless shutdown was signalled. An event of a running cycle is first handed to that
cycle; once the cycle is over the loop begins the next, unless that cycle said that it was
cancelled or shutdown was signalled. And the loop begins no more cycles than it received events,
so that a failed one is not tried again without a new event. -/
theorem events_and_cycles (hstart : start.loop = { phase := .waiting })
    (run : Run start moments s) :
    (∀ later m earlier layout, moments = later ++ m :: earlier →
      m.happening = .receive layout →
        (m.before.loop.phase = .waiting ∧
          (m.settled.stopped = true ∨ m.call = some .cycle)) ∨
        (m.before.loop.phase = .cycling ∧
          m.after.coordinator = (m.before.coordinator.adaptTo layout).1 ∧
          (AwaitsEnd later s ∨ FollowedUp later))) ∧
    (∀ m ∈ moments, m.call = some .cycle →
      m.after.coordinator = m.settled.begin.coordinator) ∧
    moments.countP (·.call = some .cycle) ≤ moments.countP Moment.isReceipt := by
  refine ⟨?_, ?_, ?_⟩
  · rintro later m earlier layout rfl hm
    have hmoment := run.of_append.1
    have hsettled : m.settled = m.before.coordinator := by rw [Moment.settled, hm]
    have hreceipt : m.isReceipt = true := by rw [Moment.isReceipt, hm]
    cases Moment.course hmoment with
    | dismissed _ hphase hstopped => exact Or.inl ⟨hphase, Or.inl hstopped⟩
    | woken _ _ hphase hreaction =>
      exact Or.inl ⟨hphase, Or.inr (congrArg Prod.snd hreaction)⟩
    | @told layout' hhappening hphase hreaction =>
      rw [hm] at hhappening
      cases hhappening
      refine Or.inr ⟨hphase, ?_, awaits_or_followedUp hstart run hm hphase⟩
      rw [Moment.coordinator_after, Moment.call, hreaction, hsettled]
    | kept hno | closed hno | cancelled hno | relaunched hno | rested hno =>
      rw [hreceipt] at hno
      cases hno
  · intro m _ hcall
    rw [Moment.coordinator_after, hcall]
  · exact Nat.le_trans (Nat.le_add_right _ _) (run.calls_add_pending_le hstart)

section Example

/-- A service whose loop waits for its first event. -/
def listening : Service := ⟨{ node := "n", settings := {} }, { phase := .waiting }⟩

def firstEvent : Moment := ⟨listening, .receive ⟨1, [⟨0, 5, [⟨["a"]⟩]⟩]⟩⟩

/-- Another event while the cycle of the first one reads the layout. -/
def secondEvent : Moment := ⟨firstEvent.after, .receive ⟨2, [⟨0, 9, [⟨["a"]⟩]⟩]⟩⟩

def layoutUnread : Moment :=
  ⟨secondEvent.after, .step (.reply .readingLayout (.error (.internal "no layout")))⟩

theorem run_firstEvent : Run listening [firstEvent] firstEvent.after :=
  .cons .nil (.receive _) rfl

/-- The layout cannot be read in the cycle of the first event, and the second gets its own. -/
theorem events_and_cycles_of_second_event :
    Run listening [layoutUnread, secondEvent, firstEvent] layoutUnread.after ∧
      (AwaitsEnd [layoutUnread] layoutUnread.after ∨ FollowedUp [layoutUnread]) ∧
      [layoutUnread, secondEvent, firstEvent].countP (·.call = some .cycle) ≤ 2 := by
  have hsecond : Run listening [secondEvent, firstEvent] secondEvent.after :=
    .cons run_firstEvent (.receive _) rfl
  have hrun : Run listening [layoutUnread, secondEvent, firstEvent] layoutUnread.after :=
    .cons hsecond (.step _) rfl
  obtain ⟨hevents, -, hcalls⟩ := events_and_cycles rfl hrun
  refine ⟨hrun, ?_, hcalls⟩
  rcases hevents [layoutUnread] secondEvent [firstEvent] _ rfl rfl with ⟨hwaiting, -⟩ | hcycling
  · cases hwaiting
  · exact hcycling.2.2

end Example

/-! ## What ends the loop -/

/-- A source of the cycle that the loop drives answers that the operation was cancelled. -/
def Moment.SourceCancels (m : Moment) : Prop :=
  m.before.loop.phase = .cycling ∧ ∃ h, m.happening = .step h ∧ h.SourceCancels

/-- A cycle of the loop says that it was cancelled only after a shutdown, or if one of its sources
says so. -/
theorem Moment.cancelled_cases (hending : m.ending = some (.error .cancelled)) :
    m.before.coordinator.stopped = true ∨ m.SourceCancels := by
  obtain ⟨s, happening⟩ := m
  cases happening with
  | step h =>
    by_cases hphase : s.loop.phase = .cycling
    · have houtcome : (h.turn s.coordinator).outcome = some (.error .cancelled) :=
        (if_pos hphase).symm.trans hending
      exact (Coordinator.cancelled_cases houtcome).imp_right fun hcancels =>
        ⟨hphase, h, rfl, hcancels⟩
    · cases (if_neg hphase).symm.trans hending
  | cycle | receive layout | close | notice => cases hending

/-- The loop goes off only once its channel is closed or shutdown was signalled, or when a source
of its cycle answers that the operation was cancelled. -/
theorem off_cases (hstart : start.loop = { phase := .waiting }) (run : Run start moments s)
    (hoff : s.loop.phase = .off) :
    s.loop.closed = true ∨ s.coordinator.stopped = true ∨ ∃ m ∈ moments, m.SourceCancels := by
  induction run with
  | nil =>
    rw [hstart] at hoff
    cases hoff
  | @cons moments s run h possible ih =>
    have hstop : s.coordinator.stopped = true → (h.apply s).coordinator.stopped = true :=
      fun hstopped => Moment.stopped_after (m := ⟨s, h⟩) (Moment.stopped_settled hstopped)
    rcases Moment.off_cases_of_after (m := ⟨s, h⟩) possible hoff with
      hbefore | hclosed | hstopped | hending
    · rcases ih hbefore with hclosed | hstopped | ⟨u, hu, hcancels⟩
      · exact Or.inl (Moment.closed_after (m := ⟨s, h⟩) possible hclosed)
      · exact Or.inr (Or.inl (hstop hstopped))
      · exact Or.inr (Or.inr ⟨u, List.mem_cons_of_mem _ hu, hcancels⟩)
    · exact Or.inl hclosed
    · exact Or.inr (Or.inl (Moment.stopped_after hstopped))
    · rcases Moment.cancelled_cases hending with hstopped | hcancels
      · exact Or.inr (Or.inl (hstop hstopped))
      · exact Or.inr (Or.inr ⟨_, List.mem_cons_self, hcancels⟩)

/-- The layout cannot be read in the cycle of the first event, since its source was cancelled. -/
def sourceCancelled : Moment :=
  ⟨firstEvent.after, .step (.reply .readingLayout (.error .cancelled))⟩

theorem run_sourceCancelled :
    Run listening [sourceCancelled, firstEvent] sourceCancelled.after :=
  .cons run_firstEvent (.step _) rfl

/-- A loop can go off although its channel is open and nobody signalled shutdown. -/
theorem off_untold :
    ∃ moments s, Run listening moments s ∧ s.loop.phase = .off ∧ s.loop.closed = false ∧
      s.coordinator.stopped = false :=
  ⟨_, _, run_sourceCancelled, rfl, rfl, rfl⟩

theorem off_cases_of_cancelled_source :
    Run listening [sourceCancelled, firstEvent] sourceCancelled.after ∧
      sourceCancelled.after.loop.phase = .off ∧
      ∃ m ∈ [sourceCancelled, firstEvent], m.SourceCancels := by
  refine ⟨run_sourceCancelled, rfl, ?_⟩
  rcases off_cases rfl run_sourceCancelled rfl with hclosed | hstopped | hcancels
  · cases hclosed
  · cases hstopped
  · exact hcancels

end Service

end LogRepair
