import LogRepair.Cycle.Run
import Mathlib.Logic.Relation

/-!
# The points of a cycle

Between two replies a cycle passes several points without asking anything. What may follow a
point is said once, in `Coordinator.Step`, and what a reply leads to in `Coordinator.Entry`; a
statement about runs is then proved point by point and never opens the coordinator.

* `Coordinator.Shift`: what may happen to a cycle that waits, but for a reply.
* `Coordinator.follows_resume`: every turn that a reply causes goes from an entry point, step by
  step, to a point where the cycle waits or is over.
* `Coordinator.Shifts`: the same of what happens besides replies.
-/

namespace LogRepair

/-! ## Targets cut short from outside -/

namespace Workload

/-- The workload with the targets that `f` selects cut short. -/
def recancel (f : Target → Bool) (w : Workload) : Workload :=
  { w with targets := w.targets.map fun t => { t with cancelled := t.cancelled || f t } }

theorem cancelAll_eq (w : Workload) : w.cancelAll = w.recancel fun _ => true := by
  simp [cancelAll, recancel]

theorem cancelUnneeded_eq (w : Workload) (needed : List TrackedSegment) :
    (w.cancelUnneeded needed).1 = w.recancel (isUnneeded needed) := by
  simp only [cancelUnneeded, recancel, Workload.mk.injEq, and_true]
  refine List.map_congr_left fun t _ => ?_
  by_cases ht : isUnneeded needed t = true
  · simp [ht]
  · simp [ht]

theorem others_take {w w' : Workload} {chunk : Option (Nat × Span)} (h : w.take = (w', chunk)) :
    w'.others = w.others := by
  unfold take at h
  split at h <;> cases h <;> rfl

theorem crashed_take {w w' : Workload} {chunk : Option (Nat × Span)} (h : w.take = (w', chunk)) :
    w'.crashed = w.crashed := by
  unfold take at h
  split at h <;> cases h <;> rfl

end Workload

theorem Stage.eq_of_errand? {s : Stage} {d : Draft} {w : Workload} {errand : Errand}
    (h : s.errand? = some (d, w, errand)) : s = errand.stage d w := by
  cases s with
  | checking | copying =>
    cases h
    rfl
  | _ => cases h

theorem Errand.workload?_stage (errand : Errand) (d : Draft) (w : Workload) :
    (errand.stage d w).workload? = some w := by
  cases errand <;> rfl

namespace Coordinator

/-! ## Points and steps -/

/-- A point of a cycle. -/
inductive Point
  /-- What the cycle works on is drawn up. -/
  | drafted (d : Draft)
  /-- The worker at its turn asks for a chunk. -/
  | working (d : Draft) (w : Workload)
  /-- The worker at its turn has died. -/
  | lost (d : Draft) (w : Workload)
  /-- The worker at its turn is gone, and the turn passes to another. -/
  | passed (d : Draft) (w : Workload)
  /-- The copying is over. -/
  | copied (d : Draft)
  /-- The copied segments are to be listed in the layout. -/
  | unlisted (d : Draft)
  /-- The same, in a layout made from `base`, with so many attempts left. -/
  | listing (d : Draft) (base : Layout) (left : Nat)
  /-- The layout lists the ready segments; `committed` is its epoch if the cycle committed it. -/
  | settled (d : Draft) (ready : List TrackedSegment) (committed : Option Epoch)
  /-- The cycle ran to its end. -/
  | through (d : Draft)
  | waiting (s : Stage)
  /-- The cycle is over, and has perhaps published a list. -/
  | over (published : Option (List TrackedSegment)) (outcome : Outcome)

/-- What may follow a point within a turn. -/
inductive Step (c : Coordinator) : Point → Point → Prop
  | skip {d : Draft} (h : d.tracked.filter (·.isDue) = []) : Step c (.drafted d) (.copied d)
  | copy {d : Draft} (h : d.tracked.filter (·.isDue) ≠ []) :
      Step c (.drafted d) (.working d
        (.ofTargets ((d.tracked.filter (·.isDue)).map (c.targetOf d.layout))
          c.settings.maxConcurrentBatches.toNat))
  | take {d : Draft} {w w' : Workload} {i : Nat} {span : Span}
      (h : w.take = (w', some (i, span))) :
      Step c (.working d w) (.waiting (.checking d w' i span))
  | retire {d : Draft} {w w' : Workload} (h : w.take = (w', none)) :
      Step c (.working d w) (.passed d w'.retire)
  | replace {d : Draft} {w : Workload} : Step c (.lost d w) (.working d w.hire)
  | miss {d : Draft} {w : Workload} : Step c (.lost d w) (.passed d w)
  | turn {d : Draft} {w : Workload} {worker : Nat} {errand : Errand} {others : List (Nat × Errand)}
      (h : w.others = (worker, errand) :: others) :
      Step c (.passed d w) (.waiting (errand.stage d { w with worker, others }))
  | crash {d : Draft} {w : Workload} (h : w.others = []) (hcrashed : w.crashed = true) :
      Step c (.passed d w) (.over none (.error .workerCrashed))
  | refuse {d : Draft} {w : Workload} {e : Error} (h : w.others = [])
      (hcrashed : w.crashed = false) (hclose : w.close = .error e) :
      Step c (.passed d w) (.over none (.error e))
  | close {d : Draft} {w : Workload} {fates : List (TrackedSegment × Bool)}
      (h : w.others = []) (hcrashed : w.crashed = false) (hclose : w.close = .ok fates) :
      Step c (.passed d w) (.copied
        { d with
          tracked := replaceCandidates d.tracked (fates.map (·.1))
          report := tallyFates d.report fates })
  | stop {d : Draft} (h : c.stopped = true) :
      Step c (.copied d) (.over (some d.tracked) (.error .cancelled))
  | goOn {d : Draft} (h : c.stopped = false) : Step c (.copied d) (.unlisted d)
  | rest {d : Draft} (h : countIn .transferred d.tracked = 0) : Step c (.unlisted d) (.through d)
  | list {d : Draft} (h : countIn .transferred d.tracked ≠ 0) :
      Step c (.unlisted d) (.listing { d with awaiting := countIn .transferred d.tracked } d.layout
        c.settings.maxProposeAttempts.toNat)
  | exhaust {d : Draft} {base : Layout} : Step c (.listing d base 0) (.through d)
  | defer {d : Draft} {base : Layout} {left : Nat}
      (h : Listing.plan c.node c.settings.mergeSegments d.tracked base d.trimMark = .incomplete) :
      Step c (.listing d base (left + 1)) (.through d)
  | reflect {d : Draft} {base : Layout} {left : Nat} {ready : List TrackedSegment}
      (h : Listing.plan c.node c.settings.mergeSegments d.tracked base d.trimMark =
        .reflected ready) :
      Step c (.listing d base (left + 1)) (.settled d ready none)
  | propose {d : Draft} {base proposal : Layout} {left : Nat} {ready : List TrackedSegment}
      (h : Listing.plan c.node c.settings.mergeSegments d.tracked base d.trimMark =
        .propose ready proposal) :
      Step c (.listing d base (left + 1)) (.waiting (.proposing d base ready proposal left))
  | skipMarks {d : Draft} {ready : List TrackedSegment} {committed : Option Epoch} {e : Error}
      (h : Listing.markListed ready d.tracked = .error e) :
      Step c (.settled d ready committed) (.through d)
  | mark {d : Draft} {ready tracked : List TrackedSegment} {committed : Option Epoch}
      (h : Listing.markListed ready d.tracked = .ok tracked) :
      Step c (.settled d ready committed) (.through
        { d with tracked, report := { d.report with committedEpoch := committed } })
  | conclude {d : Draft} :
      Step c (.through d) (.over (some d.tracked)
        (.ok { d.report with restored := d.awaiting - countIn .transferred d.tracked }))

/-- The points to which a reply leads. -/
inductive Entry (c : Coordinator) : (s : Stage) → s.query.Reply → Point → Prop
  | layoutUnread {e : Error} : Entry c .readingLayout (.error e) (.over none (.error e))
  | layoutRead {layout : Layout} :
      Entry c .readingLayout (.ok layout) (.waiting (.readingTrimMark layout))
  | trimMarkUnread {layout : Layout} {e : Error} :
      Entry c (.readingTrimMark layout) (.error e) (.over none (.error e))
  | undrafted {layout : Layout} {trimMark : Address} {e : Error}
      (h : c.draft layout trimMark = .error e) :
      Entry c (.readingTrimMark layout) (.ok trimMark) (.over none (.error e))
  | drafted {layout : Layout} {trimMark : Address} {d : Draft}
      (h : c.draft layout trimMark = .ok d) :
      Entry c (.readingTrimMark layout) (.ok trimMark) (.drafted d)
  | unreadable {d : Draft} {w : Workload} {i : Nat} {span : Span} {e : Error} :
      Entry c (.checking d w i span) (.error e)
        (.working d (w.note i (.unreadable (w.sources i) e)))
  | inverted {d : Draft} {w : Workload} {i : Nat} {span : Span} {present : List Address}
      (hspan : span.last < span.first) :
      Entry c (.checking d w i span) (.ok present) (.lost d { w with crashed := true })
  | held {d : Draft} {w : Workload} {i : Nat} {span : Span} {present : List Address}
      (hmissing : (Batch.missing span present).isEmpty = true) :
      Entry c (.checking d w i span) (.ok present)
        (.working d (w.note i (.held (.ofNat (span.toList.countP present.contains)))))
  | missing {d : Draft} {w : Workload} {i : Nat} {span : Span} {present : List Address}
      (hmissing : (Batch.missing span present).isEmpty = false) :
      Entry c (.checking d w i span) (.ok present)
        (.waiting (.copying d w i (.ofNat (span.toList.countP present.contains))
          ((Batch.missing span present).withSources (w.sources i))))
  | written {d : Draft} {w : Workload} {i : Nat} {present : UInt64} {batch : Batch}
      {addresses : List Address} :
      Entry c (.copying d w i present batch) (.written addresses)
        (.working d (w.note i (.processed present (.ofWritten batch addresses))))
  | uncopied {d : Draft} {w : Workload} {i : Nat} {present : UInt64} {batch : Batch} {e : Error} :
      Entry c (.copying d w i present batch) (.failed e)
        (.working d (w.note i (.processed present (.ofError batch e))))
  | crashed {d : Draft} {w : Workload} {i : Nat} {present : UInt64} {batch : Batch} :
      Entry c (.copying d w i present batch) .crashed (.lost d { w with crashed := true })
  | accepted {d : Draft} {base proposal : Layout} {ready : List TrackedSegment} {left : Nat} :
      Entry c (.proposing d base ready proposal left) (.ok ())
        (.settled d ready (some proposal.epoch))
  | stale {d : Draft} {base proposal : Layout} {ready : List TrackedSegment} {left : Nat}
      {proposed current : Epoch} :
      Entry c (.proposing d base ready proposal left) (.error (.staleEpoch proposed current))
        (.waiting (.refreshing d left))
  | refused {d : Draft} {base proposal : Layout} {ready : List TrackedSegment} {left : Nat}
      {e : Error} : Entry c (.proposing d base ready proposal left) (.error e) (.through d)
  | refreshed {d : Draft} {base : Layout} {left : Nat} :
      Entry c (.refreshing d left) (.ok base) (.listing d base left)
  | unrefreshed {d : Draft} {left : Nat} {e : Error} :
      Entry c (.refreshing d left) (.error e) (.through d)

/-- The points to which a cycle that waits can come without a reply. -/
inductive Shift : Stage → Point → Prop
  | recancel {s : Stage} {w : Workload} (f : Target → Bool) (h : s.workload? = some w) :
      Shift s (.waiting (s.withWorkload (w.recancel f)))
  | switch {d : Draft} {w : Workload} {errand errand' : Errand} {k worker : Nat}
      (h : w.others[k]? = some (worker, errand')) :
      Shift (errand.stage d w) (.waiting (errand'.stage d
        { w with worker, others := w.others.set k (w.worker, errand) }))
  | hire {d : Draft} {w : Workload} {errand : Errand} (h : w.spareWorkers ≠ 0) :
      Shift (errand.stage d w) (.working d (w.park errand).hire)
  | abandon {s : Stage} {w : Workload} (h : s.workload? = some w) (hcrashed : w.crashed = true) :
      Shift s (.over none (.error .workerCrashed))

theorem Shift.exists_workload {s : Stage} {p : Point} (h : Shift s p) :
    ∃ w, s.workload? = some w := by
  cases h with
  | recancel f h => exact ⟨_, h⟩
  | @switch d w errand => exact ⟨w, errand.workload?_stage d w⟩
  | @hire d w errand => exact ⟨w, errand.workload?_stage d w⟩
  | abandon h => exact ⟨_, h⟩

/-! ## Every turn goes from point to point -/

/-- What a turn looks like that ends at the point; no turn ends where the cycle goes on at once. -/
def Point.Ends (tracked : List TrackedSegment) : Point → Turn → Prop
  | .waiting s, t =>
    t.outcome = none ∧ t.coordinator.stage = some s ∧ t.coordinator.tracked = tracked
  | .over published outcome, t =>
    t.outcome = some outcome ∧ t.coordinator.stage = none ∧
      t.coordinator.tracked = published.getD tracked
  | _, _ => False

theorem Point.Ends.eq_waiting {tracked : List TrackedSegment} {p : Point} {t : Turn}
    (h : p.Ends tracked t) {s : Stage} (hs : t.coordinator.stage = some s) : p = .waiting s := by
  match p, h with
  | .waiting s', ⟨_, hstage, _⟩ =>
    rw [hstage] at hs
    cases hs
    rfl
  | .over _ _, ⟨_, hstage, _⟩ =>
    rw [hstage] at hs
    cases hs

theorem Point.Ends.eq_over {tracked : List TrackedSegment} {p : Point} {t : Turn}
    (h : p.Ends tracked t) (hidle : t.coordinator.stage = none) :
    ∃ published outcome, p = .over published outcome ∧ t.outcome = some outcome ∧
      t.coordinator.tracked = published.getD tracked := by
  match p, h with
  | .waiting s, ⟨_, hstage, _⟩ =>
    rw [hstage] at hidle
    cases hidle
  | .over published outcome, ⟨houtcome, _, hlist⟩ =>
    exact ⟨published, outcome, rfl, houtcome, hlist⟩

theorem Point.Ends.eq_over_of_outcome {tracked : List TrackedSegment} {p : Point} {t : Turn}
    (h : p.Ends tracked t) {outcome : Outcome} (houtcome : t.outcome = some outcome) :
    ∃ published, p = .over published outcome ∧
      t.coordinator.tracked = published.getD tracked := by
  match p, h with
  | .waiting s, ⟨hnone, _, _⟩ =>
    rw [hnone] at houtcome
    cases houtcome
  | .over published outcome', ⟨hsome, _, hlist⟩ =>
    rw [hsome] at houtcome
    cases houtcome
    exact ⟨published, rfl, hlist⟩

/-- The turn goes on from the point to its end. -/
def Follows (c : Coordinator) (p : Point) (t : Turn) : Prop :=
  ∃ q, Relation.ReflTransGen (Step c) p q ∧ q.Ends c.tracked t

/-- What every step keeps holds where the turn ends. -/
theorem Follows.exists_ends {c : Coordinator} {p : Point} {t : Turn} (h : Follows c p t)
    {P : Point → Prop} (hp : P p) (hstep : ∀ {p q}, P p → Step c p q → P q) :
    ∃ q, P q ∧ q.Ends c.tracked t := by
  obtain ⟨q, hsteps, hends⟩ := h
  have hq : P q := by
    clear hends
    induction hsteps with
    | refl => exact hp
    | tail _ h ih => exact hstep ih h
  exact ⟨q, hq, hends⟩

/-! ## What the steps record -/

/-- The coordinator after a step: what is published and what is counted on the way. -/
def recorded (c : Coordinator) : Point → Point → Coordinator
  | .drafted _, .working _ w =>
    { c with metrics := c.metrics.set .segmentsInFlight (.ofNat w.targets.length) }
  | .passed _ _, .copied _ | .passed _ _, .over _ _ =>
    { c with metrics := c.metrics.set .segmentsInFlight 0 }
  | .copied _, .over (some tracked) _ => c.publish tracked
  | .settled d ready _, .through _ =>
    match Listing.markListed ready d.tracked with
    | .error _ => c
    | .ok _ =>
      let count : UInt64 := .ofNat (d.tracked.countP (Listing.isReady ready))
      { c with metrics := c.metrics.add .segmentsRestored count }
  | .through _, .over (some tracked) _ =>
    let c := c.publish tracked
    { c with metrics := c.metrics.add .cycles 1 }
  | _, _ => c

theorem sameOrders_recorded (c : Coordinator) (p q : Point) : SameOrders c (c.recorded p q) := by
  unfold recorded
  split
  case h_5 => split <;> exact ⟨⟨rfl, rfl⟩, rfl⟩
  all_goals exact ⟨⟨rfl, rfl⟩, rfl⟩

/-- A step reads no more of the coordinator than its orders. -/
theorem Step.of_orders {c c' : Coordinator} {p q : Point} (horders : SameOrders c c')
    (h : Step c' p q) : Step c p q := by
  have htargets : c'.targetOf = c.targetOf := by
    funext layout s
    rw [targetOf, targetOf, horders.node_eq, horders.settings_eq, horders.stopped_eq]
  cases h with
  | skip h => exact .skip h
  | copy h =>
    rw [htargets, horders.settings_eq]
    exact .copy h
  | take h => exact .take h
  | retire h => exact .retire h
  | replace => exact .replace
  | miss => exact .miss
  | turn h => exact .turn h
  | crash h hcrashed => exact .crash h hcrashed
  | refuse h hcrashed hclose => exact .refuse h hcrashed hclose
  | close h hcrashed hclose => exact .close h hcrashed hclose
  | stop h => exact .stop (horders.stopped_eq ▸ h)
  | goOn h => exact .goOn (horders.stopped_eq ▸ h)
  | rest h => exact .rest h
  | list h =>
    rw [horders.settings_eq]
    exact .list h
  | exhaust => exact .exhaust
  | defer h => exact .defer (horders.node_eq ▸ horders.settings_eq ▸ h)
  | reflect h => exact .reflect (horders.node_eq ▸ horders.settings_eq ▸ h)
  | propose h => exact .propose (horders.node_eq ▸ horders.settings_eq ▸ h)
  | skipMarks h => exact .skipMarks h
  | mark h => exact .mark h
  | conclude => exact .conclude

/-- One step of a cycle, with the coordinator before and after it. -/
def Walk (a b : Coordinator × Point) : Prop := Step a.1 a.2 b.2 ∧ b.1 = a.1.recorded a.2 b.2

/-- The turn that ends at the point; none ends where the cycle goes on at once. -/
def Point.turn? (c : Coordinator) : Point → Option Turn
  | .waiting s => some (c.wait s)
  | .over _ outcome => some (c.finish outcome)
  | _ => none

/-- A turn ends where the cycle waits or is over. -/
theorem Point.of_turn? {c : Coordinator} {p : Point} {t : Turn} (h : p.turn? c = some t) :
    (∃ s, p = .waiting s ∧ t = c.wait s) ∨
      ∃ published outcome, p = .over published outcome ∧ t = c.finish outcome := by
  match p, h with
  | .waiting s, h => exact Or.inl ⟨s, rfl, (Option.some.inj h).symm⟩
  | .over published outcome, h =>
    exact Or.inr ⟨published, outcome, rfl, (Option.some.inj h).symm⟩

theorem Point.eq_over_of_turn? {c : Coordinator} {p : Point} {t : Turn} (h : p.turn? c = some t)
    {outcome : Outcome} (houtcome : t.outcome = some outcome) :
    ∃ published, p = .over published outcome := by
  rcases Point.of_turn? h with ⟨s, -, rfl⟩ | ⟨published, outcome', rfl, rfl⟩
  · cases houtcome
  · cases houtcome
    exact ⟨published, rfl⟩

/-- From the coordinator at the point the steps lead to the end of the turn. -/
def Leads (c : Coordinator) (p : Point) (t : Turn) : Prop :=
  ∃ c' q, Relation.ReflTransGen Walk (c, p) (c', q) ∧ q.turn? c' = some t

theorem Step.leads {c : Coordinator} {p q : Point} {t : Turn} (h : Step c p q)
    (ht : Leads (c.recorded p q) q t) : Leads c p t := by
  obtain ⟨c', last, hwalks, hturn⟩ := ht
  exact ⟨c', last, .head ⟨h, rfl⟩ hwalks, hturn⟩

/-- What every step keeps holds wherever the steps lead. -/
theorem holds_of_walks {a b : Coordinator × Point} (h : Relation.ReflTransGen Walk a b)
    {P : Coordinator → Point → Prop} (hp : P a.1 a.2)
    (hstep : ∀ {c p q}, SameOrders a.1 c → P c p → Step c p q → P (c.recorded p q) q) :
    SameOrders a.1 b.1 ∧ P b.1 b.2 := by
  induction h with
  | refl => exact ⟨.refl _, hp⟩
  | @tail b b' _ hwalk ih =>
    obtain ⟨horders, hb⟩ := ih
    obtain ⟨hbstep, hrecorded⟩ := hwalk
    rw [hrecorded]
    exact ⟨horders.trans (sameOrders_recorded _ _ _), hstep horders hb hbstep⟩

/-- What every step keeps holds where the turn ends. -/
theorem Leads.exists_end {c : Coordinator} {p : Point} {t : Turn} (h : Leads c p t)
    {P : Coordinator → Point → Prop} (hp : P c p)
    (hstep : ∀ {c' p q}, SameOrders c c' → P c' p → Step c' p q → P (c'.recorded p q) q) :
    ∃ c' q, SameOrders c c' ∧ P c' q ∧ q.turn? c' = some t := by
  obtain ⟨c', q, hwalks, hturn⟩ := h
  obtain ⟨horders, hq⟩ := holds_of_walks hwalks hp hstep
  exact ⟨c', q, horders, hq, hturn⟩

/-- The published list at the point, if it was this one before. -/
def Point.shown (tracked : List TrackedSegment) : Point → List TrackedSegment
  | .over published _ => published.getD tracked
  | _ => tracked

theorem tracked_recorded {c : Coordinator} {p q : Point} (h : Step c p q) :
    (c.recorded p q).tracked = q.shown c.tracked := by
  cases h with
  | skipMarks h | mark h =>
    rw [recorded, h]
    rfl
  | _ => rfl

theorem Step.shown_eq {c : Coordinator} {p q : Point} (h : Step c p q)
    (tracked : List TrackedSegment) : p.shown tracked = tracked := by
  cases h <;> rfl

/-- The steps that lead to the end of a turn, without what they record. -/
theorem Leads.follows {c c' : Coordinator} {p : Point} {t : Turn} (h : Leads c' p t)
    (horders : SameOrders c c') (hshown : c'.tracked = p.shown c.tracked) : Follows c p t := by
  obtain ⟨b, q, hall, ⟨hsteps, hshown'⟩, hturn⟩ := h.exists_end
    (P := fun b q => Relation.ReflTransGen (Step c) p q ∧ b.tracked = q.shown c.tracked)
    ⟨.refl, hshown⟩ fun {b q r} hb hq hstep => by
      obtain ⟨hsteps, hshown'⟩ := hq
      rw [hstep.shown_eq] at hshown'
      refine ⟨hsteps.tail (hstep.of_orders (horders.trans hb)), ?_⟩
      rw [tracked_recorded hstep, hshown']
  refine ⟨q, hsteps, ?_⟩
  rcases Point.of_turn? hturn with ⟨s, rfl, rfl⟩ | ⟨published, outcome, rfl, rfl⟩
  · exact ⟨rfl, rfl, hshown'⟩
  · exact ⟨rfl, rfl, hshown'⟩

theorem leads_wait (c : Coordinator) (s : Stage) : Leads c (.waiting s) (c.wait s) :=
  ⟨c, _, .refl, rfl⟩

theorem leads_finish (c : Coordinator) (published : Option (List TrackedSegment))
    (outcome : Outcome) : Leads c (.over published outcome) (c.finish outcome) :=
  ⟨c, _, .refl, rfl⟩

theorem leads_conclude (c : Coordinator) (d : Draft) : Leads c (.through d) (c.conclude d) :=
  Step.conclude.leads (leads_finish _ _ _)

theorem leads_settle (c : Coordinator) (d : Draft) (ready : List TrackedSegment)
    (committed : Option Epoch) :
    Leads c (.settled d ready committed) (c.settle d ready committed) := by
  unfold settle
  split
  · next h =>
    refine (Step.skipMarks h).leads ?_
    rw [recorded, h]
    exact leads_conclude c d
  · next h =>
    refine (Step.mark h).leads ?_
    rw [recorded, h]
    exact leads_conclude _ _

theorem leads_attempt (c : Coordinator) (d : Draft) (base : Layout) (left : Nat) :
    Leads c (.listing d base left) (c.attempt d base left) := by
  cases left with
  | zero => exact Step.exhaust.leads (leads_conclude c d)
  | succ left =>
    rw [attempt]
    split
    · next h => exact (Step.defer h).leads (leads_conclude c d)
    · next h => exact (Step.reflect h).leads (leads_settle c d _ none)
    · next h => exact (Step.propose h).leads (leads_wait c _)

theorem leads_listCopied (c : Coordinator) (d : Draft) :
    Leads c (.unlisted d) (c.listCopied d) := by
  unfold listCopied
  dsimp only
  split
  · next h => exact (Step.rest h).leads (leads_conclude c d)
  · next h => exact (Step.list h).leads (leads_attempt c _ _ _)

theorem leads_afterCopying (c : Coordinator) (d : Draft) :
    Leads c (.copied d) (c.afterCopying d) := by
  unfold afterCopying
  split
  · next h => exact (Step.stop h).leads (leads_finish _ _ _)
  · next h => exact (Step.goOn (Bool.eq_false_iff.mpr h)).leads (leads_listCopied c d)

theorem leads_passTurn (c : Coordinator) (d : Draft) (w : Workload) :
    Leads c (.passed d w) (c.passTurn d w) := by
  unfold passTurn
  split
  · next h => exact (Step.turn h).leads (leads_wait c _)
  · next h =>
    unfold closeWorkload
    dsimp only
    split
    · next hcrashed => exact (Step.crash h hcrashed).leads (leads_finish _ _ _)
    · next hcrashed =>
      rw [Bool.not_eq_true] at hcrashed
      split
      · next hclose => exact (Step.refuse h hcrashed hclose).leads (leads_finish _ _ _)
      · next hclose => exact (Step.close h hcrashed hclose).leads (leads_afterCopying _ _)

theorem leads_nextChunk (c : Coordinator) (d : Draft) (w : Workload) :
    Leads c (.working d w) (c.nextChunk d w) := by
  unfold nextChunk
  split
  · next h => exact (Step.take h).leads (leads_wait c _)
  · next h => exact (Step.retire h).leads (leads_passTurn c d _)

theorem leads_loseWorker (c : Coordinator) (d : Draft) (w : Workload) :
    Leads c (.lost d { w with crashed := true }) (c.loseWorker d w) := by
  unfold loseWorker
  dsimp only
  split
  · exact Step.replace.leads (leads_nextChunk c d _)
  · exact Step.miss.leads (leads_passTurn c d _)

theorem leads_copy (c : Coordinator) (d : Draft) : Leads c (.drafted d) (c.copy d) := by
  unfold copy
  split
  · next h => exact (Step.skip h).leads (leads_afterCopying c d)
  · next hne =>
    have hne : d.tracked.filter (·.isDue) ≠ [] := hne
    exact (Step.copy hne).leads (leads_nextChunk _ d _)

theorem follows_wait (c : Coordinator) (s : Stage) : Follows c (.waiting s) (c.wait s) :=
  (leads_wait c s).follows (.refl c) rfl

theorem follows_listCopied (c : Coordinator) (d : Draft) :
    Follows c (.unlisted d) (c.listCopied d) :=
  (leads_listCopied c d).follows (.refl c) rfl

theorem follows_nextChunk (c : Coordinator) (d : Draft) (w : Workload) :
    Follows c (.working d w) (c.nextChunk d w) :=
  (leads_nextChunk c d w).follows (.refl c) rfl

/-! ## What a reply leads to -/

end Coordinator

namespace Stage

/-- The chunk that the reply ends, if it ends one: its target and what came of it. -/
def ending? : (s : Stage) → s.query.Reply → Option (Nat × ChunkOutcome)
  | .checking _ w i _, .error e => some (i, .unreadable (w.sources i) e)
  | .checking _ _ i span, .ok present =>
    if span.last < span.first && !present.isEmpty then none
    else if (Batch.missing span present).isEmpty then
      some (i, .held (.ofNat (span.toList.countP present.contains)))
    else none
  | .copying _ _ i present batch, .written addresses =>
    some (i, .processed present (.ofWritten batch addresses))
  | .copying _ _ i present batch, .failed e => some (i, .processed present (.ofError batch e))
  | _, _ => none

end Stage

namespace Coordinator

/-- The coordinator with what it takes down of a reply before the cycle goes on. -/
def noted (c : Coordinator) : (s : Stage) → s.query.Reply → Coordinator
  | .readingTrimMark _, .ok trimMark => { c with trimMark }
  | .proposing _ _ _ _ _, .ok () => { c with metrics := c.metrics.countProposal true }
  | .proposing _ _ _ _ _, .error (.staleEpoch _ _) =>
    { c with metrics := c.metrics.countProposal false }
  | s, answer =>
    match s.ending? answer with
    | some (_, outcome) => { c with metrics := outcome.count c.metrics }
    | none => c

/-- The worker at its turn has just died. -/
def Point.isLost : Point → Bool
  | .lost _ _ => true
  | _ => false

theorem leads_resumeChecking (c : Coordinator) (d : Draft) (w : Workload) (i : Nat) (span : Span)
    (present : List Address) :
    ∃ p, Entry c (.checking d w i span) (.ok present) p ∧
      p.isLost = Stage.losesWorker (.checking d w i span) (.ok present) ∧
      Leads (c.noted (.checking d w i span) (.ok present)) p
        (c.resumeChecking d w i span (.ok present)) := by
  simp only [resumeChecking, Stage.losesWorker, noted, Stage.ending?]
  by_cases hlost : (decide (span.last < span.first) && !present.isEmpty) = true
  · rw [if_pos hlost, if_pos hlost, hlost]
    rw [Bool.and_eq_true, decide_eq_true_eq] at hlost
    exact ⟨_, .inverted hlost.1, rfl, leads_loseWorker c d w⟩
  · rw [if_neg hlost, if_neg hlost, Bool.eq_false_iff.mpr hlost]
    by_cases hmissing : (Batch.missing span present).isEmpty = true
    · rw [if_pos hmissing, if_pos hmissing]
      exact ⟨_, .held hmissing, rfl, leads_nextChunk _ d _⟩
    · rw [if_neg hmissing, if_neg hmissing]
      exact ⟨_, .missing (Bool.eq_false_iff.mpr hmissing), rfl, leads_wait c _⟩

/-- Whatever the reply, the turn begins at an entry point of it and goes on step by step. -/
theorem leads_resume (c : Coordinator) (s : Stage) (answer : s.query.Reply) :
    ∃ p, Entry c s answer p ∧ p.isLost = s.losesWorker answer ∧
      Leads (c.noted s answer) p (c.resume s answer) := by
  cases s with
  | readingLayout =>
    cases answer with
    | error e => exact ⟨_, .layoutUnread, rfl, leads_finish c _ _⟩
    | ok layout => exact ⟨_, .layoutRead, rfl, leads_wait c _⟩
  | readingTrimMark layout =>
    cases answer with
    | error e => exact ⟨_, .trimMarkUnread, rfl, leads_finish c _ _⟩
    | ok trimMark =>
      simp only [resume]
      split
      · next h => exact ⟨_, .undrafted h, rfl, leads_finish _ _ _⟩
      · next h => exact ⟨_, .drafted h, rfl, leads_copy _ _⟩
  | checking d w i span =>
    cases answer with
    | error e => exact ⟨_, .unreadable, rfl, leads_nextChunk _ d _⟩
    | ok present => exact leads_resumeChecking c d w i span present
  | copying d w i present batch =>
    cases answer with
    | written addresses => exact ⟨_, .written, rfl, leads_nextChunk _ d _⟩
    | failed e => exact ⟨_, .uncopied, rfl, leads_nextChunk _ d _⟩
    | crashed => exact ⟨_, .crashed, rfl, leads_loseWorker c d w⟩
  | proposing d base ready proposal left =>
    cases answer with
    | ok u => exact ⟨_, .accepted, rfl, leads_settle _ d _ _⟩
    | error e =>
      cases e with
      | staleEpoch proposed current => exact ⟨_, .stale, rfl, leads_wait _ _⟩
      | _ => exact ⟨_, .refused, rfl, leads_conclude c d⟩
  | refreshing d left =>
    cases answer with
    | error e => exact ⟨_, .unrefreshed, rfl, leads_conclude c d⟩
    | ok base => exact ⟨_, .refreshed, rfl, leads_attempt c d base left⟩

theorem sameOrders_noted (c : Coordinator) (s : Stage) (answer : s.query.Reply) :
    SameOrders c (c.noted s answer) := by
  unfold noted
  split
  case h_4 => split <;> exact ⟨⟨rfl, rfl⟩, rfl⟩
  all_goals exact ⟨⟨rfl, rfl⟩, rfl⟩

theorem tracked_noted (c : Coordinator) (s : Stage) (answer : s.query.Reply) :
    (c.noted s answer).tracked = c.tracked := by
  unfold noted
  split
  case h_4 => split <;> rfl
  all_goals rfl

/-- No reply publishes a list at once. -/
theorem Entry.shown_eq {c : Coordinator} {s : Stage} {answer : s.query.Reply} {p : Point}
    (h : Entry c s answer p) (tracked : List TrackedSegment) : p.shown tracked = tracked := by
  cases h <;> rfl

theorem follows_resume (c : Coordinator) (s : Stage) (reply : s.query.Reply) :
    ∃ p, Entry c s reply p ∧ Follows c p (c.resume s reply) := by
  obtain ⟨p, hentry, -, hleads⟩ := c.leads_resume s reply
  refine ⟨p, hentry, hleads.follows (sameOrders_noted c s reply) ?_⟩
  rw [tracked_noted, hentry.shown_eq]

/-! ## What happens besides replies -/

/-- The turn leaves the cycle where it waits, or it begins with a shift. -/
def Shifts (c : Coordinator) (t : Turn) : Prop :=
  (t.coordinator.stage = c.stage ∧ t.coordinator.tracked = c.tracked) ∨
    ∃ s p, c.stage = some s ∧ Shift s p ∧ Follows c p t

theorem shifts_recancel {c : Coordinator} {s : Stage} {w : Workload} (hs : c.stage = some s)
    (hw : s.workload? = some w) (f : Target → Bool) (stopped : Bool) :
    Shifts c ⟨{ c with stopped, stage := some (s.withWorkload (w.recancel f)) }, none⟩ :=
  Or.inr ⟨s, _, hs, .recancel f hw, _, .refl, rfl, rfl, rfl⟩

theorem adaptTo_cases (c : Coordinator) (layout : Layout) :
    (c.adaptTo layout).1 = c ∨
      ∃ s w f, c.stage = some s ∧ s.workload? = some w ∧
        (c.adaptTo layout).1 = { c with stage := some (s.withWorkload (w.recancel f)) } := by
  unfold adaptTo
  split
  · exact Or.inl rfl
  split
  · exact Or.inl rfl
  · next stage hstage =>
    split
    · exact Or.inl rfl
    · next work hwork =>
      dsimp only
      rw [Workload.cancelUnneeded_eq]
      exact Or.inr ⟨stage, work, _, hstage, hwork, rfl⟩

theorem shutdown_cases (c : Coordinator) :
    c.shutdown = { c with stopped := true } ∨
      ∃ s w f, c.stage = some s ∧ s.workload? = some w ∧
        c.shutdown =
          { c with stopped := true, stage := some (s.withWorkload (w.recancel f)) } := by
  cases hstage : c.stage with
  | none =>
    refine Or.inl ?_
    rw [shutdown, hstage]
    rfl
  | some stage =>
    cases hwork : stage.workload? with
    | none => exact Or.inl (by simp only [shutdown, hstage, hwork, Option.map_some])
    | some work =>
      refine Or.inr ⟨stage, work, fun _ => true, rfl, hwork, ?_⟩
      simp only [shutdown, hstage, hwork, Option.map_some, Workload.cancelAll_eq]

theorem shifts_announce (c : Coordinator) (layout : Layout) :
    Shifts c ⟨(c.adaptTo layout).1, none⟩ := by
  rcases c.adaptTo_cases layout with heq | ⟨s, w, f, hs, hw, heq⟩
  · rw [heq]
    exact Or.inl ⟨rfl, rfl⟩
  · rw [heq]
    exact shifts_recancel hs hw f c.stopped

theorem shifts_shutdown (c : Coordinator) : Shifts c ⟨c.shutdown, none⟩ := by
  rcases c.shutdown_cases with heq | ⟨s, w, f, hs, hw, heq⟩
  · rw [heq]
    exact Or.inl ⟨rfl, rfl⟩
  · rw [heq]
    exact shifts_recancel hs hw f true

theorem switch_cases (c : Coordinator) (k : Nat) :
    c.switch k = ⟨c, none⟩ ∨
      ∃ (d : Draft) (w : Workload) (errand : Errand) (worker : Nat) (errand' : Errand),
        c.stage = some (errand.stage d w) ∧ w.others[k]? = some (worker, errand') ∧
          c.switch k = c.wait (errand'.stage d
            { w with worker, others := w.others.set k (w.worker, errand) }) := by
  unfold switch
  split
  · exact Or.inl rfl
  · next d w errand herrand =>
    obtain ⟨s, hs, hstage⟩ := Option.bind_eq_some_iff.mp herrand
    obtain rfl := Stage.eq_of_errand? hstage
    split
    · exact Or.inl rfl
    · next worker errand' hk => exact Or.inr ⟨d, w, errand, worker, errand', hs, hk, rfl⟩

theorem hire_cases (c : Coordinator) :
    c.hire = ⟨c, none⟩ ∨
      ∃ (d : Draft) (w : Workload) (errand : Errand), c.stage = some (errand.stage d w) ∧
        w.spareWorkers ≠ 0 ∧ c.hire = c.nextChunk d (w.park errand).hire := by
  unfold hire
  split
  · exact Or.inl rfl
  · next d w errand herrand =>
    obtain ⟨s, hs, hstage⟩ := Option.bind_eq_some_iff.mp herrand
    obtain rfl := Stage.eq_of_errand? hstage
    split
    · exact Or.inl rfl
    · next hspare => exact Or.inr ⟨d, w, errand, hs, hspare, rfl⟩

theorem abandon_cases (c : Coordinator) :
    c.abandon = ⟨c, none⟩ ∨
      ∃ s w, c.stage = some s ∧ s.workload? = some w ∧ w.crashed = true ∧
        c.abandon =
          ({ c with metrics := c.metrics.set .segmentsInFlight 0 } : Coordinator).finish
            (.error .workerCrashed) := by
  unfold abandon
  split
  · exact Or.inl rfl
  · next w hwork =>
    obtain ⟨s, hs, hstage⟩ := Option.bind_eq_some_iff.mp hwork
    split
    · next hcrashed => exact Or.inr ⟨s, w, hs, hstage, hcrashed, rfl⟩
    · exact Or.inl rfl

theorem shifts_switch (c : Coordinator) (k : Nat) : Shifts c (c.switch k) := by
  rcases c.switch_cases k with heq | ⟨d, w, errand, worker, errand', hs, hk, heq⟩
  · rw [heq]
    exact Or.inl ⟨rfl, rfl⟩
  · rw [heq]
    exact Or.inr ⟨_, _, hs, .switch hk, follows_wait c _⟩

theorem shifts_hire (c : Coordinator) : Shifts c c.hire := by
  rcases c.hire_cases with heq | ⟨d, w, errand, hs, hspare, heq⟩
  · rw [heq]
    exact Or.inl ⟨rfl, rfl⟩
  · rw [heq]
    exact Or.inr ⟨_, _, hs, .hire hspare, follows_nextChunk c d _⟩

theorem shifts_abandon (c : Coordinator) : Shifts c c.abandon := by
  rcases c.abandon_cases with heq | ⟨s, w, hs, hw, hcrashed, heq⟩
  · rw [heq]
    exact Or.inl ⟨rfl, rfl⟩
  · rw [heq]
    exact Or.inr ⟨s, _, hs, .abandon hw hcrashed,
      (leads_finish { c with metrics := c.metrics.set .segmentsInFlight 0 } none _).follows
        ⟨⟨rfl, rfl⟩, rfl⟩ rfl⟩

/-- A worker that begins ends no cycle, for others wait besides. -/
theorem outcome_hire (c : Coordinator) : c.hire.outcome = none := by
  rcases c.hire_cases with heq | ⟨d, w, errand, -, -, heq⟩
  · rw [heq]
  · rw [heq]
    unfold nextChunk
    split
    · rfl
    · next w' htake =>
      have hothers : w'.retire.others = w.others ++ [(w.worker, errand)] :=
        Workload.others_take htake
      unfold passTurn
      split
      · rfl
      · next hnone =>
        rw [hothers] at hnone
        simp at hnone

end Coordinator

end LogRepair
