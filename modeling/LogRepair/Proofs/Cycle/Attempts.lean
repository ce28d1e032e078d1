import LogRepair.Proofs.Cycle.Held
import LogRepair.Proofs.Cycle.Marks

/-!
# Attempts to list the copied segments

A cycle makes at most so many proposals, each from the layout that it read last. Only a layout
that lists the node, because it was committed or because it did so already, restores segments.

* `Coordinator.lastBase`: the layout from which the latest attempt was made.
* `Coordinator.listCopied_two_phase`: the tracked list after the attempts, whatever the answers.
-/

namespace LogRepair.Coordinator

open TrackedSegment Listing

/-! ## What was answered -/

/-- The layouts that were read anew after a refused proposal, latest first. -/
def refreshed (moments : List Moment) : List Layout :=
  moments.filterMap fun m =>
    match m.happening with
    | .reply (.refreshing _ _) (.ok base) => some base
    | _ => none

/-- The number of proposals that were answered. -/
def answered (moments : List Moment) : Nat :=
  moments.countP fun m =>
    match m.happening with
    | .reply (.proposing _ _ _ _ _) _ => true
    | _ => false

/-- The number of proposals that were made: the answered ones and the open one. -/
def proposalsMade (moments : List Moment) (c : Coordinator) : Nat :=
  answered moments + (if c.stage matches some (.proposing _ _ _ _ _) then 1 else 0)

/-- The moment brings the acceptance of a proposal. -/
def Moment.Accepts (m : Moment) (proposal : Layout) : Prop :=
  ∃ d base ready left, m.happening = .reply (.proposing d base ready proposal left) (.ok ())

/-- The proposal was accepted. -/
def Accepted (moments : List Moment) (proposal : Layout) : Prop :=
  ∃ m ∈ moments, m.Accepts proposal

theorem accepted_cons {m : Moment} {moments : List Moment} {proposal : Layout} :
    Accepted (m :: moments) proposal ↔ m.Accepts proposal ∨ Accepted moments proposal := by
  simp [Accepted]

/-- The layout from which the latest of at most `attempts` attempts was made: of the first one and
those read anew, in the order in which they were read, the last that an attempt was left for. -/
def lastBase (first : Layout) (attempts : Nat) (moments : List Moment) : Layout :=
  ((first :: (refreshed moments).reverse).take attempts).getLast?.getD first

theorem lastBase_of_lt {first : Layout} {attempts : Nat} {moments : List Moment}
    (h : (refreshed moments).length < attempts) :
    lastBase first attempts moments = (refreshed moments).head?.getD first := by
  rw [lastBase, List.take_of_length_le (by simp; omega), List.getLast?_cons,
    List.getLast?_reverse]
  rfl

theorem lastBase_of_refreshed {first base : Layout} {attempts : Nat} {moments : List Moment}
    {m : Moment} (h : attempts ≤ (refreshed moments).length + 1)
    (hm : refreshed (m :: moments) = base :: refreshed moments) :
    lastBase first attempts (m :: moments) = lastBase first attempts moments := by
  rw [lastBase, lastBase, hm, List.reverse_cons, ← List.cons_append,
    List.take_append_of_le_length (by simp; omega)]

theorem answered_proposing (b : Coordinator) (d : Draft) (base : Layout)
    (ready : List TrackedSegment) (proposal : Layout) (left : Nat) (answer : Except Error Unit)
    (moments : List Moment) :
    answered (⟨b, .reply (.proposing d base ready proposal left) answer⟩ :: moments) =
      answered moments + 1 := by
  simp [answered]

/-- Nothing is answered by a happening that is no reply. -/
theorem answers_of_isAside {m : Moment} (h : m.happening.IsAside) (moments : List Moment) :
    refreshed (m :: moments) = refreshed moments ∧ answered (m :: moments) = answered moments ∧
      ∀ proposal, Accepted (m :: moments) proposal ↔ Accepted moments proposal := by
  obtain ⟨before, happening⟩ := m
  cases happening with
  | reply s answer => exact absurd h id
  | _ => exact ⟨rfl, rfl, fun proposal => by simp [accepted_cons, Moment.Accepts]⟩

/-! ## The attempts of one cycle -/

section

variable (c : Coordinator) (d : Draft)

/-- The layout from which the latest attempt to list the segments of the draft was made. -/
def attemptBase (moments : List Moment) : Layout :=
  lastBase d.layout c.settings.maxProposeAttempts.toNat moments

/-- The segments that were ready at that attempt. -/
def attemptReady (moments : List Moment) : List TrackedSegment :=
  (c.attemptBase d moments).claimable d.tracked d.trimMark

/-- What that attempt asked the layout to be, in the epoch of the base. -/
def attemptCandidate (moments : List Moment) : Layout :=
  candidate c.node c.settings.mergeSegments (c.attemptReady d moments) (c.attemptBase d moments)

/-- The list is what the answers make of the tracked list of the draft. -/
structure Settled (moments : List Moment) (tracked : List TrackedSegment) : Prop where
  answered_le : answered moments ≤ c.settings.maxProposeAttempts.toNat
  valid_base : (c.attemptBase d moments).Valid
  accepted : ∀ proposal, Accepted moments proposal →
    proposal = (c.attemptCandidate d moments).successor ∧
      tracked = relist (c.attemptReady d moments) d.tracked
  reflected : c.attemptCandidate d moments = c.attemptBase d moments →
    tracked = relist (c.attemptReady d moments) d.tracked
  unchanged : (∀ proposal, ¬Accepted moments proposal) →
    c.attemptCandidate d moments ≠ c.attemptBase d moments → tracked = d.tracked

/-- The attempts go on: the latest base is valid, nothing was accepted so far, and so many
proposals were answered and layouts read anew. -/
structure Unsettled (moments : List Moment) (answers reads : Nat) : Prop where
  valid_base : (c.attemptBase d moments).Valid
  unaccepted : ∀ proposal, ¬Accepted moments proposal
  answered_eq : answered moments = answers
  refreshed_eq : (refreshed moments).length = reads

/-- What holds at each point from the first attempt on. -/
def Attempting (moments : List Moment) : Point → Prop
  | .unlisted d' => d' = d ∧ moments = []
  | .listing d' base left =>
    d'.tracked = d.tracked ∧ d'.trimMark = d.trimMark ∧ base.Valid ∧
      ∃ made, made + left = c.settings.maxProposeAttempts.toNat ∧
        c.Unsettled d moments made made ∧
        (left ≠ 0 → base = c.attemptBase d moments) ∧
        (left = 0 → c.attemptCandidate d moments ≠ c.attemptBase d moments)
  | .settled d' ready _ =>
    d'.tracked = d.tracked ∧ ready = c.attemptReady d moments ∧
      c.Settled d moments (relist ready d.tracked)
  | .through d' => c.Settled d moments d'.tracked
  | .over published _ => ∃ tracked, published = some tracked ∧ c.Settled d moments tracked
  | .waiting (.proposing d' base ready proposal left) =>
    d'.tracked = d.tracked ∧ d'.trimMark = d.trimMark ∧ base = c.attemptBase d moments ∧
      plan c.node c.settings.mergeSegments d.tracked base d.trimMark = .propose ready proposal ∧
      ∃ made, made + left + 1 = c.settings.maxProposeAttempts.toNat ∧
        c.Unsettled d moments made made
  | .waiting (.refreshing d' left) =>
    d'.tracked = d.tracked ∧ d'.trimMark = d.trimMark ∧
      c.attemptCandidate d moments ≠ c.attemptBase d moments ∧
      ∃ made, made + left + 1 = c.settings.maxProposeAttempts.toNat ∧
        c.Unsettled d moments (made + 1) made
  | _ => False

end

section

variable {c : Coordinator} {d : Draft} {moments : List Moment}

/-- If no segment was ready, none is restored. -/
theorem Settled.eq_of_ready_eq_nil {tracked : List TrackedSegment}
    (h : c.Settled d moments tracked) (hready : c.attemptReady d moments = []) :
    tracked = d.tracked := by
  have hnone : relist (c.attemptReady d moments) d.tracked = d.tracked := by
    rw [hready, relist_nil]
  by_cases ha : ∃ proposal, Accepted moments proposal
  · obtain ⟨proposal, ha⟩ := ha
    exact (h.accepted proposal ha).2.trans hnone
  · by_cases heq : c.attemptCandidate d moments = c.attemptBase d moments
    · exact (h.reflected heq).trans hnone
    · exact h.unchanged (fun proposal hp => ha ⟨proposal, hp⟩) heq

/-- With no segment ready there is nothing to mark. -/
theorem Unsettled.settled_of_ready_eq_nil {answers reads : Nat}
    (h : c.Unsettled d moments answers reads)
    (hle : answers ≤ c.settings.maxProposeAttempts.toNat)
    (hready : c.attemptReady d moments = []) : c.Settled d moments d.tracked := by
  refine ⟨h.answered_eq ▸ hle, h.valid_base, fun proposal ha => absurd ha (h.unaccepted proposal),
    fun _ => ?_, fun _ _ => rfl⟩
  rw [hready, relist_nil]

/-- Without an acceptance a base that had to be changed leaves everything as it is. -/
theorem Unsettled.settled_of_ne {answers reads : Nat} (h : c.Unsettled d moments answers reads)
    (hle : answers ≤ c.settings.maxProposeAttempts.toNat)
    (hne : c.attemptCandidate d moments ≠ c.attemptBase d moments) :
    c.Settled d moments d.tracked :=
  ⟨h.answered_eq ▸ hle, h.valid_base, fun proposal ha => absurd ha (h.unaccepted proposal),
    fun heq => absurd heq hne, fun _ _ => rfl⟩

theorem Unsettled.settled_of_eq {answers reads : Nat} (h : c.Unsettled d moments answers reads)
    (hle : answers ≤ c.settings.maxProposeAttempts.toNat)
    (heq : c.attemptCandidate d moments = c.attemptBase d moments) :
    c.Settled d moments (relist (c.attemptReady d moments) d.tracked) :=
  ⟨h.answered_eq ▸ hle, h.valid_base, fun proposal ha => absurd ha (h.unaccepted proposal),
    fun _ => rfl, fun _ hne => absurd heq hne⟩

/-- No segment is ready if none is copied and waits. -/
theorem claimable_eq_nil {tracked : List TrackedSegment}
    (h : countIn .transferred tracked = 0) (base : Layout) (trimMark : Address) :
    base.claimable tracked trimMark = [] := by
  rw [List.eq_nil_iff_forall_not_mem]
  intro s hs
  obtain ⟨hmem, hstate, -⟩ := mem_claimable.mp hs
  have hcount := List.countP_eq_zero.mp h s hmem
  simp [hstate] at hcount

theorem unsettled_start (hlayout : d.layout.Valid)
    (hmax : 1 ≤ c.settings.maxProposeAttempts.toNat) :
    c.Unsettled d [] 0 0 ∧ c.attemptBase d [] = d.layout := by
  have hbase : c.attemptBase d [] = d.layout := lastBase_of_lt hmax
  exact ⟨⟨hbase ▸ hlayout, fun proposal ⟨m, hm, _⟩ => absurd hm List.not_mem_nil, rfl, rfl⟩, hbase⟩

theorem Attempting.step (hvalid : ∀ s ∈ d.tracked, s.fault? = none) (hapart : Apart d.tracked)
    (hlayout : d.layout.Valid) (hmax : 1 ≤ c.settings.maxProposeAttempts.toNat)
    {b : Coordinator} (task : SameTask c b) {p q : Point} (hp : c.Attempting d moments p)
    (h : Step b p q) : c.Attempting d moments q := by
  obtain ⟨hnode, hsettings⟩ := task
  cases h with
  | skip | copy | take | retire | replace | miss | turn | crash | refuse | close | stop | goOn =>
    exact absurd hp id
  | rest h =>
    obtain ⟨rfl, rfl⟩ := hp
    have hstart := (unsettled_start (c := c) hlayout hmax).1
    exact hstart.settled_of_ready_eq_nil (Nat.zero_le _) (claimable_eq_nil h _ _)
  | list h =>
    obtain ⟨rfl, rfl⟩ := hp
    obtain ⟨hstart, hbase⟩ := unsettled_start (c := c) hlayout hmax
    refine ⟨rfl, rfl, hlayout, 0, ?_, hstart, fun _ => hbase.symm, fun h0 => ?_⟩
    · rw [hsettings, Nat.zero_add]
    · rw [hsettings] at h0
      omega
  | exhaust =>
    obtain ⟨htracked, -, -, made, hmade, hunsettled, -, hne⟩ := hp
    have hsettled := hunsettled.settled_of_ne (by omega) (hne rfl)
    rwa [← htracked] at hsettled
  | defer h =>
    obtain ⟨htracked, htrim, -, made, hmade, hunsettled, hbase, -⟩ := hp
    rw [htracked, htrim, hbase (by omega)] at h
    have hready : c.attemptReady d moments = [] := claimable_eq_nil_of_plan h
    have hsettled := hunsettled.settled_of_ready_eq_nil (by omega) hready
    rwa [← htracked] at hsettled
  | reflect h =>
    obtain ⟨htracked, htrim, -, made, hmade, hunsettled, hbase, -⟩ := hp
    rw [htracked, htrim, hbase (by omega), hnode, hsettings] at h
    obtain ⟨rfl, heq⟩ := eq_of_plan_eq_reflected h
    exact ⟨htracked, rfl, hunsettled.settled_of_eq (by omega) heq⟩
  | propose h =>
    obtain ⟨htracked, htrim, -, made, hmade, hunsettled, hbase, -⟩ := hp
    rw [htracked, htrim, hnode, hsettings] at h
    exact ⟨htracked, htrim, hbase (by omega), h, made, by omega, hunsettled⟩
  | skipMarks h =>
    obtain ⟨htracked, rfl, -⟩ := hp
    rw [htracked, attemptReady, markListed_eq hvalid hapart] at h
    cases h
  | mark h =>
    obtain ⟨htracked, rfl, hsettled⟩ := hp
    rw [htracked, attemptReady, markListed_eq hvalid hapart] at h
    cases h
    exact hsettled
  | conclude => exact ⟨_, rfl, hp⟩

/-- A layout read anew is the base of the next attempt if there is one, and else is not used. -/
theorem attemptBase_refreshed {base : Layout} {m : Moment} {made left : Nat}
    (hmade : made + left + 1 = c.settings.maxProposeAttempts.toNat)
    (hreads : (refreshed moments).length = made)
    (hm : refreshed (m :: moments) = base :: refreshed moments) :
    (left ≠ 0 → c.attemptBase d (m :: moments) = base) ∧
      (left = 0 → c.attemptBase d (m :: moments) = c.attemptBase d moments) := by
  constructor
  · intro hleft
    rw [attemptBase, lastBase_of_lt (by rw [hm, List.length_cons]; omega), hm]
    rfl
  · intro hleft
    exact lastBase_of_refreshed (by omega) hm

/-- Without an acceptance only the counts of answers and of layouts read anew change. -/
theorem Unsettled.cons {m : Moment} {answers answers' reads reads' : Nat}
    (h : c.Unsettled d moments answers reads) (hbase : (c.attemptBase d (m :: moments)).Valid)
    (hm : ∀ proposal, ¬m.Accepts proposal) (hanswers : answered (m :: moments) = answers')
    (hreads : (refreshed (m :: moments)).length = reads') :
    c.Unsettled d (m :: moments) answers' reads' :=
  ⟨hbase, fun proposal ha => (accepted_cons.mp ha).elim (hm proposal) (h.unaccepted proposal),
    hanswers, hreads⟩

theorem Attempting.entry {b : Coordinator} {s : Stage}
    {answer : s.query.Reply} {p : Point} (hlawful : (Happening.reply s answer).Lawful)
    (hp : c.Attempting d moments (.waiting s)) (h : Entry b s answer p) :
    c.Attempting d (⟨b, .reply s answer⟩ :: moments) p := by
  cases h with
  | accepted =>
    obtain ⟨htracked, -, rfl, hplan, made, hmade, hunsettled⟩ := hp
    obtain ⟨rfl, rfl, -⟩ := eq_of_plan_eq_propose hplan
    refine ⟨htracked, rfl, ?_, hunsettled.valid_base, fun proposal ha => ?_, fun _ => rfl,
      fun hnone => ?_⟩
    · rw [answered_proposing, hunsettled.answered_eq]
      omega
    · rcases accepted_cons.mp ha with ⟨_, _, _, _, heq⟩ | ha
      · cases heq
        exact ⟨rfl, rfl⟩
      · exact absurd ha (hunsettled.unaccepted proposal)
    · exact absurd (accepted_cons.mpr (Or.inl ⟨_, _, _, _, rfl⟩)) (hnone _)
  | stale =>
    obtain ⟨htracked, htrim, rfl, hplan, made, hmade, hunsettled⟩ := hp
    obtain ⟨rfl, -, hne⟩ := eq_of_plan_eq_propose hplan
    refine ⟨htracked, htrim, hne, made, hmade, hunsettled.cons hunsettled.valid_base ?_ ?_
      hunsettled.refreshed_eq⟩
    · rintro proposal ⟨_, _, _, _, heq⟩
      cases heq
    · rw [answered_proposing, hunsettled.answered_eq]
  | @refused d' base proposal ready left e =>
    obtain ⟨htracked, htrim, rfl, hplan, made, hmade, hunsettled⟩ := hp
    obtain ⟨rfl, -, hne⟩ := eq_of_plan_eq_propose hplan
    have hkept : c.Unsettled d (⟨b, .reply (.proposing d' (c.attemptBase d moments)
        (c.attemptReady d moments) proposal left) (.error e)⟩ :: moments) (made + 1) made := by
      refine hunsettled.cons hunsettled.valid_base ?_ ?_ hunsettled.refreshed_eq
      · rintro proposal ⟨_, _, _, _, heq⟩
        cases heq
      · rw [answered_proposing, hunsettled.answered_eq]
    have hsettled := hkept.settled_of_ne (by omega) hne
    rwa [← htracked] at hsettled
  | @refreshed d' base left =>
    obtain ⟨htracked, htrim, hne, made, hmade, hunsettled⟩ := hp
    obtain ⟨hlater, hlast⟩ := attemptBase_refreshed (d := d) hmade hunsettled.refreshed_eq
      (m := ⟨b, .reply (.refreshing d' left) (.ok base)⟩) rfl
    refine ⟨htracked, htrim, hlawful, made + 1, by omega, ?_, fun hleft => (hlater hleft).symm,
      fun hleft => ?_⟩
    · refine hunsettled.cons ?_ ?_ hunsettled.answered_eq
        (congrArg (· + 1) hunsettled.refreshed_eq)
      · by_cases hleft : left = 0
        · rw [hlast hleft]
          exact hunsettled.valid_base
        · rw [hlater hleft]
          exact hlawful
      · rintro proposal ⟨_, _, _, _, heq⟩
        cases heq
    · rwa [attemptCandidate, attemptReady, hlast hleft]
  | @unrefreshed d' left e =>
    obtain ⟨htracked, htrim, hne, made, hmade, hunsettled⟩ := hp
    have hkept : c.Unsettled d (⟨b, .reply (.refreshing d' left) (.error e)⟩ :: moments)
        (made + 1) made := by
      refine hunsettled.cons hunsettled.valid_base ?_ hunsettled.answered_eq
        hunsettled.refreshed_eq
      rintro proposal ⟨_, _, _, _, heq⟩
      cases heq
    have hsettled := hkept.settled_of_ne (by omega) hne
    rwa [← htracked] at hsettled
  | _ => exact absurd hp id

theorem Attempting.aside {m : Moment} (hm : m.happening.IsAside) {s : Stage}
    (hp : c.Attempting d moments (.waiting s)) : c.Attempting d (m :: moments) (.waiting s) := by
  obtain ⟨hrefreshed, hanswered, haccepted⟩ := answers_of_isAside hm moments
  have hbase : c.attemptBase d (m :: moments) = c.attemptBase d moments := by
    rw [attemptBase, attemptBase, lastBase, lastBase, hrefreshed]
  have hkept : ∀ {answers reads}, c.Unsettled d moments answers reads →
      c.Unsettled d (m :: moments) answers reads := fun h =>
    ⟨hbase ▸ h.valid_base, fun proposal ha => h.unaccepted proposal ((haccepted proposal).mp ha),
      hanswered ▸ h.answered_eq, hrefreshed ▸ h.refreshed_eq⟩
  cases s with
  | proposing d' base ready proposal left =>
    obtain ⟨htracked, htrim, heq, hplan, made, hmade, hunsettled⟩ := hp
    exact ⟨htracked, htrim, heq.trans hbase.symm, hplan, made, hmade, hkept hunsettled⟩
  | refreshing d' left =>
    obtain ⟨htracked, htrim, hne, made, hmade, hunsettled⟩ := hp
    refine ⟨htracked, htrim, ?_, made, hmade, hkept hunsettled⟩
    rwa [attemptCandidate, attemptReady, hbase]
  | _ => exact absurd hp id

/-- A stage that lists has no workers. -/
theorem Attempting.workload?_eq_none {s : Stage} (hp : c.Attempting d moments (.waiting s)) :
    s.workload? = none := by
  cases s with
  | proposing | refreshing => rfl
  | _ => exact absurd hp id

theorem Attempting.not_shift {s : Stage} {p : Point} (hp : c.Attempting d moments (.waiting s)) :
    ¬Shift s p := by
  intro h
  obtain ⟨w, hw⟩ := h.exists_workload
  rw [hp.workload?_eq_none] at hw
  cases hw

end

theorem sameTask_listCopied (c : Coordinator) (d : Draft) :
    SameTask c (c.listCopied d).coordinator := by
  unfold listCopied
  dsimp only
  split
  · exact (sameOrders_conclude c d).toSameTask
  · exact (sameOrders_attempt c _ _ _).toSameTask

section

variable {c : Coordinator} {d : Draft}

theorem invariant_attempting (hvalid : ∀ s ∈ d.tracked, s.fault? = none) (hapart : Apart d.tracked)
    (hlayout : d.layout.Valid) (hmax : 1 ≤ c.settings.maxProposeAttempts.toNat) :
    Invariant (c.listCopied d).coordinator
      (fun moments p => (∀ m ∈ moments, m.before.stage.isSome = true) → c.Attempting d moments p)
      (fun _ _ => True) where
  list_start := trivial
  stage_start s hs _ := by
    obtain ⟨p, hp, hends⟩ := (follows_listCopied c d).exists_ends (P := c.Attempting d [])
      ⟨rfl, rfl⟩ (Attempting.step hvalid hapart hlayout hmax (.refl c))
    rwa [hends.eq_waiting hs] at hp
  list_cons _ := trivial
  begun hidle _ hwithin := by
    have hsome := hwithin _ List.mem_cons_self
    rw [hidle] at hsome
    cases hsome
  aside hm hp hwithin := (hp fun m' hm' => hwithin m' (List.mem_cons_of_mem _ hm')).aside hm
  shift hp h hwithin := absurd h (hp hwithin).not_shift
  entry _ hlawful _ hp h hwithin :=
    (hp fun m' hm' => hwithin m' (List.mem_cons_of_mem _ hm')).entry hlawful h
  step task hp h hwithin :=
    (hp hwithin).step hvalid hapart hlayout hmax ((sameTask_listCopied c d).trans task) h
  publish _ := trivial

/-- The tracked list of a cycle whose attempts are over is what the answers make of it. -/
theorem settled_of_listCopied (hvalid : ∀ s ∈ d.tracked, s.fault? = none) (hapart : Apart d.tracked)
    (hlayout : d.layout.Valid) (hmax : 1 ≤ c.settings.maxProposeAttempts.toNat)
    {moments : List Moment} {c' : Coordinator}
    (hrun : Run (c.listCopied d).coordinator moments c') (hlawful : Lawful moments)
    (hwithin : ∀ m ∈ moments, m.before.stage.isSome = true) (hidle : c'.stage = none) :
    c.Settled d moments c'.tracked := by
  cases moments with
  | nil =>
    cases hrun
    obtain ⟨p, hp, hends⟩ := (follows_listCopied c d).exists_ends (P := c.Attempting d [])
      ⟨rfl, rfl⟩ (Attempting.step hvalid hapart hlayout hmax (.refl c))
    obtain ⟨published, outcome, rfl, -, hlist⟩ := hends.eq_over hidle
    obtain ⟨tracked, rfl, hsettled⟩ := hp
    rwa [hlist]
  | cons m moments =>
    have inv := invariant_attempting hvalid hapart hlayout hmax
    obtain ⟨published, outcome, hp, hlist⟩ :=
      inv.ended hrun hlawful (hwithin m List.mem_cons_self) hidle
    obtain ⟨tracked, rfl, hsettled⟩ := hp hwithin
    rwa [hlist]

theorem proposalsMade_le (hvalid : ∀ s ∈ d.tracked, s.fault? = none) (hapart : Apart d.tracked)
    (hlayout : d.layout.Valid) (hmax : 1 ≤ c.settings.maxProposeAttempts.toNat)
    {moments : List Moment} {c' : Coordinator}
    (hrun : Run (c.listCopied d).coordinator moments c') (hlawful : Lawful moments)
    (hwithin : ∀ m ∈ moments, m.before.stage.isSome = true) :
    proposalsMade moments c' ≤ c.settings.maxProposeAttempts.toNat := by
  cases hstage : c'.stage with
  | none =>
    have hsettled := settled_of_listCopied hvalid hapart hlayout hmax hrun hlawful hwithin hstage
    rw [proposalsMade, hstage]
    exact hsettled.answered_le
  | some s =>
    have hp := ((invariant_attempting hvalid hapart hlayout hmax).run hrun hlawful).2 s hstage
      hwithin
    rw [proposalsMade, hstage]
    cases s with
    | proposing d' base ready proposal left =>
      obtain ⟨-, -, -, -, made, hmade, hunsettled⟩ := hp
      rw [hunsettled.answered_eq, if_pos rfl]
      omega
    | refreshing d' left =>
      obtain ⟨-, -, -, made, hmade, hunsettled⟩ := hp
      rw [hunsettled.answered_eq, if_neg (by simp)]
      omega
    | _ => exact absurd hp id

/-- Whatever the answers, a cycle makes at most so many proposals. Once its attempts are over, an
accepted proposal, or a base that lists the node already, has restored exactly the segments that
were ready for the latest base, and requires all their addresses as restored; in every other case
the tracked list is what it was. -/
theorem listCopied_two_phase (hvalid : ∀ s ∈ d.tracked, s.fault? = none) (hapart : Apart d.tracked)
    (hlayout : d.layout.Valid) (hmax : 1 ≤ c.settings.maxProposeAttempts.toNat)
    {moments : List Moment} {c' : Coordinator}
    (hrun : Run (c.listCopied d).coordinator moments c') (hlawful : Lawful moments)
    (hwithin : ∀ m ∈ moments, m.before.stage.isSome = true) :
    let base := lastBase d.layout c.settings.maxProposeAttempts.toNat moments
    let ready := base.claimable d.tracked d.trimMark
    let next := candidate c.node c.settings.mergeSegments ready base
    proposalsMade moments c' ≤ c.settings.maxProposeAttempts.toNat ∧
      (c'.stage = none →
        (∀ proposal, Accepted moments proposal →
          proposal = next.successor ∧ c'.tracked = relist ready d.tracked ∧
            Restores proposal c.node d.trimMark ready) ∧
        (next = base →
          c'.tracked = relist ready d.tracked ∧ Restores base c.node d.trimMark ready) ∧
        ((∀ proposal, ¬Accepted moments proposal) → next ≠ base → c'.tracked = d.tracked) ∧
        (ready = [] → c'.tracked = d.tracked)) := by
  intro base ready next
  refine ⟨proposalsMade_le hvalid hapart hlayout hmax hrun hlawful hwithin, fun hidle => ?_⟩
  have hsettled := settled_of_listCopied hvalid hapart hlayout hmax hrun hlawful hwithin hidle
  have hrestores : Restores next c.node d.trimMark ready :=
    restores_candidate hsettled.valid_base (fun _ hs => isComplete_of_mem_claimable hs) d.trimMark
  refine ⟨fun proposal ha => ?_, fun heq => ⟨hsettled.reflected heq, heq ▸ hrestores⟩,
    hsettled.unchanged, hsettled.eq_of_ready_eq_nil⟩
  obtain ⟨rfl, htracked⟩ := hsettled.accepted proposal ha
  exact ⟨rfl, htracked, restores_successor hrestores⟩

end

/-! ## A refused proposal and the next one -/

/-- The layout that was committed instead: another server has the range that was copied. -/
def halfRelocated : Layout := ⟨5, [⟨0, 5, [⟨["b"]⟩]⟩, ⟨5, 9, [⟨["n", "a"]⟩]⟩]⟩

/-- What is proposed from that. -/
def relocatedHalves : Layout := ⟨6, [⟨0, 5, [⟨["b", "n"]⟩]⟩, ⟨5, 9, [⟨["n", "a"]⟩]⟩]⟩

/-- The coordinator that reads the layout anew. -/
def halfRefreshing : Coordinator :=
  { halfCopying with
    metrics := halfCopying.metrics.countProposal false
    stage := some (.refreshing halfCopied 2) }

/-- The coordinator that proposes once more. -/
def halfReproposing : Coordinator :=
  { halfRefreshing with
    stage := some (.proposing halfCopied halfRelocated [copiedHalf] relocatedHalves 1) }

/-- The first proposal is refused, the layout read anew, and the proposal from that accepted. -/
def refusedMoments : List Moment :=
  [⟨halfReproposing,
      .reply (.proposing halfCopied halfRelocated [copiedHalf] relocatedHalves 1) (.ok ())⟩,
    ⟨halfRefreshing, .reply (.refreshing halfCopied 2) (.ok halfRelocated)⟩,
    ⟨halfProposing halfCopying.metrics,
      .reply (.proposing halfCopied halfHeld [copiedHalf] joinedHalves 2)
        (.error (.staleEpoch 5 5))⟩]

/-- The latest layout claims the copied range as well. -/
theorem claimable_halfRelocated :
    halfRelocated.claimable halfCopied.tracked (-1) = [copiedHalf] := by
  rw [Layout.claimable, copiedSpans_halfCopied]
  decide +kernel

theorem listCopied_halfCopied :
    (halfCopying.listCopied halfCopied).coordinator = halfProposing halfCopying.metrics := by
  have hawaiting : countIn .transferred halfCopied.tracked = 1 := by decide +kernel
  have hsome : ¬countIn .transferred halfCopied.tracked = 0 := by omega
  rw [listCopied, if_neg hsome, hawaiting]
  exact attempt_halfCopied halfCopying.metrics

theorem resume_halfRefreshing :
    (halfRefreshing.resume (.refreshing halfCopied 2) (.ok halfRelocated)).coordinator =
      halfReproposing := by
  have hplan : plan halfRefreshing.node halfRefreshing.settings.mergeSegments halfCopied.tracked
      halfRelocated halfCopied.trimMark = .propose [copiedHalf] relocatedHalves :=
    plan_halfCopied claimable_halfRelocated (by decide +kernel) (by decide +kernel)
  rw [resume, attempt, hplan]
  rfl

theorem run_refusedMoments :
    ∃ c, Run (halfCopying.listCopied halfCopied).coordinator refusedMoments c ∧ c.stage = none ∧
      c.tracked = [⟨⟨0, 4⟩, .restored 5⟩, heldHalf] := by
  rw [listCopied_halfCopied]
  have hrefused : Run (halfProposing halfCopying.metrics) _ halfRefreshing :=
    .cons .nil (.reply (.proposing halfCopied halfHeld [copiedHalf] joinedHalves 2)
      (.error (.staleEpoch 5 5))) rfl
  have hrefreshed : Run (halfProposing halfCopying.metrics) refusedMoments.tail
      halfReproposing := by
    rw [← resume_halfRefreshing]
    exact hrefused.cons (.reply (.refreshing halfCopied 2) (.ok halfRelocated)) rfl
  have haccepted := hrefreshed.cons
    (.reply (.proposing halfCopied halfRelocated [copiedHalf] relocatedHalves 1) (.ok ())) rfl
  exact ⟨_, haccepted, rfl, rfl⟩

theorem lawful_refusedMoments : Lawful refusedMoments := by
  have hvalid : halfRelocated.Valid := by decide +kernel
  simp only [Lawful, refusedMoments, List.forall_mem_cons]
  exact ⟨trivial, hvalid, trivial, fun m hm => absurd hm List.not_mem_nil⟩

theorem isSome_stage_refusedMoments : ∀ m ∈ refusedMoments, m.before.stage.isSome = true := by
  simp only [refusedMoments, List.forall_mem_cons]
  exact ⟨rfl, rfl, rfl, fun m hm => absurd hm List.not_mem_nil⟩

/-- Another node commits a layout first. The proposal made from it is accepted and restores the
copied segment. -/
theorem listCopied_two_phase_after_refusal :
    ∃ c, Run (halfCopying.listCopied halfCopied).coordinator refusedMoments c ∧ c.stage = none ∧
      refreshed refusedMoments = [halfRelocated] ∧ Accepted refusedMoments relocatedHalves ∧
      proposalsMade refusedMoments c = 2 ∧
      c.tracked = [⟨⟨0, 4⟩, .restored 5⟩, heldHalf] ∧
      Restores relocatedHalves "n" (-1) [copiedHalf] := by
  obtain ⟨c, hrun, hidle, htracked⟩ := run_refusedMoments
  have hvalid : ∀ s ∈ halfCopied.tracked, s.fault? = none := by decide +kernel
  have hapart : Apart halfCopied.tracked := by
    refine .cons (fun t ht => ?_) (.cons (fun t ht => absurd ht List.not_mem_nil) .nil)
    rw [List.mem_singleton.mp ht]
    decide +kernel
  have haccepted : Accepted refusedMoments relocatedHalves :=
    ⟨_, List.mem_cons_self, halfCopied, halfRelocated, [copiedHalf], 1, rfl⟩
  obtain ⟨-, hend⟩ := listCopied_two_phase hvalid hapart (by decide +kernel) (by decide) hrun
    lawful_refusedMoments isSome_stage_refusedMoments
  obtain ⟨-, -, hrestores⟩ := (hend hidle).1 relocatedHalves haccepted
  have hready : (lastBase halfCopied.layout halfCopying.settings.maxProposeAttempts.toNat
      refusedMoments).claimable halfCopied.tracked halfCopied.trimMark = [copiedHalf] :=
    claimable_halfRelocated
  rw [hready] at hrestores
  refine ⟨c, hrun, hidle, rfl, haccepted, ?_, htracked, hrestores⟩
  rw [proposalsMade, hidle]
  rfl

end LogRepair.Coordinator
