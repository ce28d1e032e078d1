import LogRepair.Proofs.Cycle.Exact
import LogRepair.Proofs.Cycle.Faultless
import LogRepair.Proofs.Cycle.Held
import Mathlib.Data.Finset.Basic
import Mathlib.Data.Finset.Card

/-!
# What is counted along a run

* `Coordinator.Booked`: as long as no worker dies, what the replies came to is counted, but for the
  held addresses of chunks that workers wait to have copied.
* `Coordinator.Reports`: what a turn counts when its cycle ends with a report.
* `Coordinator.books_balance`: between the cycles of a run in which no worker dies, every counter is
  the number of what it counts, and both gauges show what is published.
-/

namespace LogRepair

/-! ## What a batch counts -/

/-- Of distinct addresses, those that another list has too. -/
theorem card_inter_toFinset {asked : List Address} (h : asked.Nodup) (returned : List Address) :
    (asked.toFinset ∩ returned.toFinset).card = (asked.filter returned.contains).length := by
  have hfilter : asked.toFinset ∩ returned.toFinset =
      (asked.filter returned.contains).toFinset := by
    ext x
    simp
  rw [hfilter, List.toFinset_card_of_nodup (h.filter _)]

namespace BatchResult

theorem isSuccess_ofWritten (batch : Batch) (returned : List Address) :
    (ofWritten batch returned).isSuccess = batch.addresses.all returned.contains := by
  have hall : (batch.addresses.filter returned.contains).length = batch.size ↔
      batch.addresses.all returned.contains = true := by
    rw [Batch.size, List.length_filter_eq_length_iff, List.all_eq_true]
  unfold ofWritten
  dsimp only
  split
  · next hfull => exact (hall.mp hfull).symm
  · next hshort => exact (Bool.eq_false_iff.mpr (mt hall.mpr hshort)).symm

end BatchResult

/-! ## What workers wait for -/

namespace Errand

/-- The addresses of its chunk that are found to be held, and are counted once the chunk ends. -/
def found : Errand → UInt64
  | checking _ _ => 0
  | copying _ present _ => present

/-- The errand asks for no address twice. -/
def Distinct : Errand → Prop
  | checking _ _ => True
  | copying _ _ batch => batch.addresses.Nodup

end Errand

namespace Coordinator

/-- The errands of the workers that wait at the point. -/
def Point.errands : Point → List Errand
  | .working _ w | .lost _ w | .passed _ w => w.others.map (·.2)
  | .waiting (.checking _ w i span) => .checking i span :: w.others.map (·.2)
  | .waiting (.copying _ w i present batch) => .copying i present batch :: w.others.map (·.2)
  | _ => []

theorem errands_stage (errand : Errand) (d : Draft) (w : Workload) :
    Point.errands (.waiting (errand.stage d w)) = errand :: w.others.map (·.2) := by
  cases errand <;> rfl

/-- A step only lets a worker ask about a chunk. -/
theorem Step.errands_eq {c : Coordinator} {p q : Point} (h : Step c p q) :
    q.errands = p.errands ∨ ∃ i span, q.errands = .checking i span :: p.errands := by
  cases h with
  | @take d w w' i span h =>
    refine Or.inr ⟨i, span, ?_⟩
    simp only [Point.errands, Workload.others_take h]
  | @retire d w w' h =>
    refine Or.inl ?_
    have hothers : w'.others = w.others := Workload.others_take h
    simp only [Point.errands, Workload.retire, hothers]
  | turn h =>
    refine Or.inl ?_
    rw [errands_stage, Point.errands, h]
    rfl
  | crash h | refuse h | close h =>
    refine Or.inl ?_
    simp only [Point.errands, h, List.map_nil]
  | _ => exact Or.inl rfl

/-- Unless the workers are left behind, a shift only changes whose turn it is. -/
theorem Shift.errands_perm {s : Stage} {p : Point} (h : Shift s p) :
    p.errands.Perm (Point.errands (.waiting s)) ∨
      p = .over none (.error .workerCrashed) ∧ ∃ w, s.workload? = some w ∧ w.crashed = true := by
  cases h with
  | recancel f hs =>
    cases s with
    | checking | copying =>
      cases hs
      exact Or.inl (.refl _)
    | _ => cases hs
  | @switch d w errand errand' k worker hk =>
    refine Or.inl ?_
    have hperm := (@Workload.perm_others_switch w errand errand' k worker hk).map (·.2)
    simp only [Workload.park, List.map_append, List.map_cons, List.map_nil] at hperm
    rw [errands_stage, errands_stage]
    exact (List.perm_append_singleton _ _).symm.trans
      (hperm.trans (List.perm_append_singleton _ _))
  | @hire d w errand h =>
    refine Or.inl ?_
    rw [errands_stage]
    simp only [Point.errands, Workload.park, Workload.hire, List.map_append, List.map_cons,
      List.map_nil]
    exact List.perm_append_singleton _ _
  | abandon hs hcrashed => exact Or.inr ⟨rfl, _, hs, hcrashed⟩

/-! ## What a reply counts -/

namespace Moment

/-- The moment is a reply that a batch was copied, and lists all of its addresses. -/
def copiesAll (m : Moment) : Bool :=
  match m.happening with
  | .reply (.copying _ _ _ _ batch) (.written returned) => batch.addresses.all returned.contains
  | _ => false

/-- The moment is a reply with which a chunk fails: what is held of it could not be read, or it
could not be copied, or not all of it. -/
def failsChunk (m : Moment) : Bool :=
  match m.happening with
  | .reply (.checking _ _ _ _) (.error _) => true
  | .reply (.copying _ _ _ _ _) (.failed _) => true
  | .reply (.copying _ _ _ _ batch) (.written returned) => !batch.addresses.all returned.contains
  | _ => false

/-- The number of the addresses asked for that the reply lists as written. -/
def written (m : Moment) : Nat :=
  match m.happening with
  | .reply (.copying _ _ _ _ batch) (.written returned) =>
    (batch.addresses.toFinset ∩ returned.toFinset).card
  | _ => 0

/-- The number of the addresses asked about that the reply lists as held. -/
def held (m : Moment) : Nat :=
  match m.happening with
  | .reply (.checking _ _ _ span) (.ok present) =>
    (span.toList.toFinset ∩ present.toFinset).card
  | _ => 0

/-- The moment is a reply that a proposal was accepted. -/
def accepts (m : Moment) : Bool :=
  match m.happening with
  | .reply (.proposing _ _ _ _ _) (.ok _) => true
  | _ => false

/-- The moment is a reply that a proposal was made in a stale epoch. -/
def findsStale (m : Moment) : Bool :=
  match m.happening with
  | .reply (.proposing _ _ _ _ _) (.error (.staleEpoch _ _)) => true
  | _ => false

/-- The report with which the moment ends a cycle. -/
def report? (m : Moment) : Option Report :=
  match m.outcome with
  | some (.ok report) => some report
  | _ => none

end Moment

/-- The counters that replies move, but for the held addresses, before and after a moment. -/
structure Gains (m m' : Metrics) (moment : Moment) : Prop where
  batchesSucceeded : m'.batchesSucceeded =
    m.batchesSucceeded + if moment.copiesAll then 1 else 0
  batchesFailed : m'.batchesFailed = m.batchesFailed + if moment.failsChunk then 1 else 0
  addressesTransferred : m'.addressesTransferred =
    m.addressesTransferred + .ofNat moment.written
  proposalsCommitted : m'.proposalsCommitted =
    m.proposalsCommitted + if moment.accepts then 1 else 0
  proposalsRejected : m'.proposalsRejected =
    m.proposalsRejected + if moment.findsStale then 1 else 0

/-- What does not move the counters gains nothing. -/
theorem gains_refl {m : Metrics} {moment : Moment} (hall : moment.copiesAll = false)
    (hfails : moment.failsChunk = false) (hwritten : moment.written = 0)
    (haccepts : moment.accepts = false) (hstale : moment.findsStale = false) :
    Gains m m moment := by
  constructor <;> simp [hall, hfails, hwritten, haccepts, hstale]

/-- A chunk that was processed counts as one batch. -/
theorem gains_processed {m : Metrics} {moment : Moment} {present : UInt64} {result : BatchResult}
    (hall : moment.copiesAll = result.isSuccess) (hfails : moment.failsChunk = !result.isSuccess)
    (hwritten : .ofNat moment.written = result.transferred) (haccepts : moment.accepts = false)
    (hstale : moment.findsStale = false) :
    Gains m ((ChunkOutcome.processed present result).count m) moment := by
  cases hsuccess : result.isSuccess <;> constructor <;>
    simp [ChunkOutcome.count, Metrics.countBatch, Metrics.add, hsuccess, hall, hfails, hwritten,
      haccepts, hstale]

theorem gains_noted (c : Coordinator) {s : Stage} (answer : s.query.Reply)
    (hdistinct : ∀ errand ∈ Point.errands (.waiting s), errand.Distinct) :
    Gains c.metrics (c.noted s answer).metrics ⟨c, .reply s answer⟩ := by
  cases s with
  | readingLayout | readingTrimMark | refreshing =>
    cases answer <;> exact gains_refl rfl rfl rfl rfl rfl
  | proposing d base ready proposal left =>
    cases answer with
    | ok u =>
      exact ⟨(add_zero _).symm, (add_zero _).symm, (add_zero _).symm, rfl, (add_zero _).symm⟩
    | error e =>
      cases e with
      | staleEpoch =>
        exact ⟨(add_zero _).symm, (add_zero _).symm, (add_zero _).symm, (add_zero _).symm, rfl⟩
      | _ => exact gains_refl rfl rfl rfl rfl rfl
  | checking d w i span =>
    cases answer with
    | error e => exact gains_processed rfl rfl rfl rfl rfl
    | ok present =>
      have hmetrics : ∃ held : UInt64,
          (c.noted (.checking d w i span) (.ok present)).metrics =
            c.metrics.add .addressesSkipped held := by
        simp only [noted, Stage.ending?]
        split
        · next outcome h =>
          split at h
          · cases h
          · split at h <;> cases h
            exact ⟨_, rfl⟩
        · exact ⟨0, by simp [Metrics.add]⟩
      obtain ⟨held, hmetrics⟩ := hmetrics
      rw [hmetrics]
      exact ⟨(add_zero _).symm, (add_zero _).symm, (add_zero _).symm, (add_zero _).symm,
        (add_zero _).symm⟩
  | copying d w i present batch =>
    cases answer with
    | written returned =>
      have hnodup : batch.addresses.Nodup := hdistinct (.copying i present batch) List.mem_cons_self
      have hsuccess := BatchResult.isSuccess_ofWritten batch returned
      have hcount := congrArg UInt64.ofNat (card_inter_toFinset hnodup returned)
      exact gains_processed hsuccess.symm (congrArg (!·) hsuccess.symm)
        (hcount.trans (BatchResult.transferred_ofWritten batch returned).symm) rfl rfl
    | failed e => exact gains_processed rfl rfl rfl rfl rfl
    | crashed => exact gains_refl rfl rfl rfl rfl rfl

/-! ## What is counted so far -/

/-- The counters are as many as the moments say. Held addresses are counted once their chunk ends,
so those that workers have yet to hand in, `found`, are still missing. -/
structure Booked (moments : List Moment) (m : Metrics) (found : UInt64) : Prop where
  batchesSucceeded : m.batchesSucceeded = .ofNat (moments.countP Moment.copiesAll)
  batchesFailed : m.batchesFailed = .ofNat (moments.countP Moment.failsChunk)
  addressesTransferred : m.addressesTransferred = .ofNat (moments.map Moment.written).sum
  addressesSkipped : m.addressesSkipped + found = .ofNat (moments.map Moment.held).sum
  proposalsCommitted : m.proposalsCommitted = .ofNat (moments.countP Moment.accepts)
  proposalsRejected : m.proposalsRejected = .ofNat (moments.countP Moment.findsStale)

theorem ofNat_countP_cons (f : Moment → Bool) (moment : Moment) (moments : List Moment) :
    UInt64.ofNat ((moment :: moments).countP f) =
      .ofNat (moments.countP f) + if f moment then 1 else 0 := by
  rw [List.countP_cons, UInt64.ofNat_add]
  split <;> rfl

theorem ofNat_sum_cons (f : Moment → Nat) (moment : Moment) (moments : List Moment) :
    UInt64.ofNat ((moment :: moments).map f).sum =
      .ofNat (moments.map f).sum + .ofNat (f moment) := by
  rw [List.map_cons, List.sum_cons, Nat.add_comm, UInt64.ofNat_add]

theorem Booked.cons {moments : List Moment} {m m' : Metrics} {found found' : UInt64}
    {moment : Moment} (h : Booked moments m found) (hgains : Gains m m' moment)
    (hskipped : m'.addressesSkipped + found' =
      m.addressesSkipped + found + .ofNat moment.held) :
    Booked (moment :: moments) m' found' where
  batchesSucceeded := by
    rw [ofNat_countP_cons, hgains.batchesSucceeded, h.batchesSucceeded]
  batchesFailed := by
    rw [ofNat_countP_cons, hgains.batchesFailed, h.batchesFailed]
  addressesTransferred := by
    rw [ofNat_sum_cons, hgains.addressesTransferred, h.addressesTransferred]
  addressesSkipped := by
    rw [ofNat_sum_cons, hskipped, h.addressesSkipped]
  proposalsCommitted := by
    rw [ofNat_countP_cons, hgains.proposalsCommitted, h.proposalsCommitted]
  proposalsRejected := by
    rw [ofNat_countP_cons, hgains.proposalsRejected, h.proposalsRejected]

/-- Workers are copying at the point. -/
def Point.Copying : Point → Prop
  | .working _ _ | .lost _ _ | .passed _ _ => True
  | .waiting (.checking _ _ _ _) | .waiting (.copying _ _ _ _ _) => True
  | _ => False

/-- What is counted at the point. -/
structure Sums (moments : List Moment) (c : Coordinator) (p : Point) : Prop where
  distinct : ∀ errand ∈ p.errands, errand.Distinct
  booked : (∀ m ∈ moments, ¬m.LosesWorker) →
    Booked moments c.metrics (p.errands.map Errand.found).sum
  segmentsFailed : c.metrics.segmentsFailed = .ofNat (countIn .failed c.tracked)
  segmentsInFlight : p.Copying ∨ c.metrics.segmentsInFlight = 0

section

variable {moments : List Moment} {c : Coordinator}

theorem Booked.recorded {found : UInt64} (h : Booked moments c.metrics found) (p q : Point) :
    Booked moments (c.recorded p q).metrics found := by
  unfold Coordinator.recorded
  split
  case h_5 =>
    split
    · exact h
    · exact ⟨h.1, h.2, h.3, h.4, h.5, h.6⟩
  all_goals exact ⟨h.1, h.2, h.3, h.4, h.5, h.6⟩

theorem segmentsFailed_recorded (h : c.metrics.segmentsFailed = .ofNat (countIn .failed c.tracked))
    (p q : Point) :
    (c.recorded p q).metrics.segmentsFailed =
      .ofNat (countIn .failed (c.recorded p q).tracked) := by
  unfold recorded
  split
  case h_5 => split <;> exact h
  case h_4 | h_6 => rfl
  all_goals exact h

theorem segmentsInFlight_recorded {p q : Point} (h : Step c p q)
    (hp : p.Copying ∨ c.metrics.segmentsInFlight = 0) :
    q.Copying ∨ (c.recorded p q).metrics.segmentsInFlight = 0 := by
  cases h with
  | copy | take | retire | replace | miss => exact Or.inl trivial
  | @turn d w worker errand => cases errand <;> exact Or.inl trivial
  | crash | refuse | close => exact Or.inr rfl
  | skip | stop | goOn | rest | list | exhaust | defer | reflect | propose | conclude =>
    exact Or.inr (hp.resolve_left id)
  | skipMarks h | mark h =>
    refine Or.inr ?_
    rw [recorded, h]
    exact hp.resolve_left id

theorem Sums.step {p q : Point} (hp : Sums moments c p) (h : Step c p q) :
    Sums moments (c.recorded p q) q := by
  refine ⟨?_, fun halive => ?_, segmentsFailed_recorded hp.segmentsFailed p q,
    segmentsInFlight_recorded h hp.segmentsInFlight⟩
  · rcases h.errands_eq with heq | ⟨i, span, heq⟩
    · rw [heq]
      exact hp.distinct
    · rw [heq]
      exact List.forall_mem_cons.mpr ⟨trivial, hp.distinct⟩
  · have hfound : (q.errands.map Errand.found).sum = (p.errands.map Errand.found).sum := by
      rcases h.errands_eq with heq | ⟨i, span, heq⟩
      · rw [heq]
      · rw [heq, List.map_cons, List.sum_cons]
        exact zero_add _
    rw [hfound]
    exact (hp.booked halive).recorded p q

theorem gauge_count (m : Metrics) (o : ChunkOutcome) (g : Gauge) :
    (o.count m).gauge g = m.gauge g := by
  cases o with
  | processed present result =>
    simp only [ChunkOutcome.count, Metrics.countBatch]
    cases result.isSuccess <;> cases g <;> rfl
  | held | dropped => cases g <;> rfl

theorem gauge_noted (c : Coordinator) (s : Stage) (answer : s.query.Reply) (g : Gauge) :
    (c.noted s answer).metrics.gauge g = c.metrics.gauge g := by
  unfold noted
  split
  case h_4 =>
    split
    · exact gauge_count _ _ g
    · rfl
  all_goals cases g <;> rfl

theorem addressesSkipped_processed (m : Metrics) (present : UInt64) (result : BatchResult) :
    ((ChunkOutcome.processed present result).count m).addressesSkipped =
      m.addressesSkipped + present := by
  simp only [ChunkOutcome.count, Metrics.countBatch]
  cases result.isSuccess <;> rfl

/-- A reply moves the held addresses from the question to what its worker has found, and on to what
is counted. -/
theorem addressesSkipped_entry {s : Stage} {answer : s.query.Reply} {p : Point}
    (h : Entry c s answer p) (hkept : s.losesWorker answer = false) (hlost : p.isLost = false) :
    (c.noted s answer).metrics.addressesSkipped + (p.errands.map Errand.found).sum =
      c.metrics.addressesSkipped + ((Point.waiting s).errands.map Errand.found).sum +
        .ofNat (Moment.held ⟨c, .reply s answer⟩) := by
  have hcounted : ∀ (span : Span) (present : List Address),
      UInt64.ofNat (span.toList.toFinset ∩ present.toFinset).card =
        .ofNat (span.toList.countP present.contains) := by
    intro span present
    rw [card_inter_toFinset span.nodup_toList, List.countP_eq_length_filter]
  cases h with
  | layoutUnread | layoutRead | trimMarkUnread | undrafted | drafted | accepted | refreshed
  | unrefreshed => exact (add_zero _).symm
  | stale => exact (add_zero _).symm
  | @refused _ _ _ _ _ e => cases e <;> exact (add_zero _).symm
  | @unreadable d w i span e =>
    change c.metrics.addressesSkipped + 0 + _ = c.metrics.addressesSkipped + (0 + _) + 0
    rw [add_zero, add_zero, zero_add]
    rfl
  | inverted | crashed => cases hlost
  | @held d w i span present hmissing =>
    have hneg := Bool.eq_false_iff.mp hkept
    simp only [Stage.losesWorker] at hneg
    simp only [noted, Stage.ending?, if_neg hneg, if_pos hmissing, Moment.held, hcounted]
    simp only [Point.errands, Workload.note, ChunkOutcome.count, Metrics.add, List.map_cons,
      List.sum_cons, Errand.found, zero_add]
    exact add_right_comm _ _ _
  | @missing d w i span present hmissing =>
    have hneg := Bool.eq_false_iff.mp hkept
    simp only [Stage.losesWorker] at hneg
    simp only [noted, Stage.ending?, if_neg hneg, hmissing, Bool.false_eq_true, if_false,
      Moment.held, hcounted]
    simp only [Point.errands, List.map_cons, List.sum_cons, Errand.found, zero_add]
    rw [add_assoc, add_comm (List.sum _)]
  | @written d w i present batch returned =>
    have hskipped : (c.noted (.copying d w i present batch)
        (.written returned)).metrics.addressesSkipped = c.metrics.addressesSkipped + present :=
      addressesSkipped_processed _ _ _
    rw [hskipped]
    change _ = c.metrics.addressesSkipped + (present + _) + 0
    rw [add_zero, add_assoc]
    rfl
  | @uncopied d w i present batch e =>
    change c.metrics.addressesSkipped + present + _ = c.metrics.addressesSkipped + (present + _) + 0
    rw [add_zero, add_assoc]
    rfl

theorem distinct_entry {s : Stage} {answer : s.query.Reply} {p : Point}
    (h : Entry c s answer p) (hs : ∀ errand ∈ Point.errands (.waiting s), errand.Distinct) :
    ∀ errand ∈ p.errands, errand.Distinct := by
  cases h with
  | unreadable | inverted | held | written | uncopied | crashed =>
    exact (List.forall_mem_cons.mp hs).2
  | @missing d w i span present hmissing =>
    have hnodup : ((Batch.missing span present).withSources (w.sources i)).addresses.Nodup :=
      span.nodup_toList.filter _
    exact List.forall_mem_cons.mpr ⟨hnodup, (List.forall_mem_cons.mp hs).2⟩
  | _ => exact fun _ herrand => absurd herrand List.not_mem_nil

theorem Sums.entry {s : Stage} {answer : s.query.Reply} {p : Point}
    (hp : Sums moments c (.waiting s)) (h : Entry c s answer p)
    (hlost : p.isLost = s.losesWorker answer) :
    Sums (⟨c, .reply s answer⟩ :: moments) (c.noted s answer) p := by
  refine ⟨distinct_entry h hp.distinct, fun halive => ?_, ?_, ?_⟩
  · obtain ⟨hnow, hbefore⟩ := List.forall_mem_cons.mp halive
    have hkept : s.losesWorker answer = false := Bool.eq_false_iff.mpr hnow
    exact (hp.booked hbefore).cons (gains_noted c answer hp.distinct)
      (addressesSkipped_entry h hkept (hlost.trans hkept))
  · rw [tracked_noted]
    exact (gauge_noted c s answer .segmentsFailed).trans hp.segmentsFailed
  · have hgauge : (c.noted s answer).metrics.segmentsInFlight = c.metrics.segmentsInFlight :=
      gauge_noted c s answer .segmentsInFlight
    rw [hgauge]
    cases h with
    | unreadable | inverted | held | missing | written | uncopied | crashed => exact Or.inl trivial
    | _ => exact Or.inr (hp.segmentsInFlight.resolve_left id)

theorem Sums.aside {h : Happening} (haside : h.IsAside) {p : Point} (hp : Sums moments c p) :
    Sums (⟨c, h⟩ :: moments) (h.heeded c) p := by
  have hmetrics : (h.heeded c).metrics = c.metrics ∧ (h.heeded c).tracked = c.tracked := by
    cases h <;> exact ⟨rfl, rfl⟩
  obtain ⟨hmetrics, htracked⟩ := hmetrics
  have hgains : Gains c.metrics c.metrics ⟨c, h⟩ := by
    cases h with
    | reply => exact haside.elim
    | _ => exact gains_refl rfl rfl rfl rfl rfl
  have hheld : Moment.held ⟨c, h⟩ = 0 := by
    cases h with
    | reply => exact haside.elim
    | _ => rfl
  refine ⟨hp.distinct, fun halive => ?_, ?_, ?_⟩
  · rw [hmetrics]
    refine (hp.booked (List.forall_mem_cons.mp halive).2).cons hgains ?_
    rw [hheld]
    exact (add_zero _).symm
  · rw [hmetrics, htracked]
    exact hp.segmentsFailed
  · rw [hmetrics]
    exact hp.segmentsInFlight

theorem Sums.shift {s : Stage} {p : Point} (hexplained : Explained moments c (.waiting s))
    (hp : Sums moments c (.waiting s)) (h : Shift s p) : Sums moments (c.shifted p) p := by
  have hfailed : (c.shifted p).metrics.segmentsFailed =
      .ofNat (countIn .failed (c.shifted p).tracked) := by
    cases p <;> exact hp.segmentsFailed
  have hinFlight : p.Copying ∨ (c.shifted p).metrics.segmentsInFlight = 0 := by
    cases h with
    | @recancel s w f hs =>
      cases s with
      | checking | copying => exact Or.inl trivial
      | _ => cases hs
    | @switch d w errand errand' => cases errand' <;> exact Or.inl trivial
    | hire => exact Or.inl trivial
    | abandon => exact Or.inr rfl
  rcases h.errands_perm with hperm | ⟨rfl, w, hw, hcrashed⟩
  · have hbooked : ∀ found, Booked moments c.metrics found →
        Booked moments (c.shifted p).metrics found := by
      intro found hfound
      cases p <;> exact ⟨hfound.1, hfound.2, hfound.3, hfound.4, hfound.5, hfound.6⟩
    refine ⟨fun errand herrand => ?_, fun halive => ?_, hfailed, hinFlight⟩
    · exact hp.distinct errand (hperm.mem_iff.mp herrand)
    · rw [(hperm.map _).sum_eq]
      exact hbooked _ (hp.booked halive)
  · refine ⟨fun _ herrand => absurd herrand List.not_mem_nil, fun halive => ?_, hfailed, hinFlight⟩
    have hlost : WorkerLost moments := by
      cases s with
      | checking | copying =>
        cases hw
        exact hexplained.mp hcrashed
      | _ => cases hw
    obtain ⟨m, hm, hdied⟩ := hlost
    exact absurd hdied (halive m (sinceBegin_subset moments hm))

end

/-- Between cycles all is counted as before a question is asked. -/
theorem upkeep_sums (node : NodeId) (settings : Settings) :
    Upkeep { node, settings } Represented (fun _ => Tidy)
      (fun moments c p => Explained moments c p ∧ Sums moments c p)
      fun moments c => Sums moments c (.waiting .readingLayout) := by
  have base := upkeep_explained node settings
  exact {
    at_start := ⟨fun _ herrand => absurd herrand List.not_mem_nil,
      fun _ => ⟨rfl, rfl, rfl, rfl, rfl, rfl⟩, rfl, Or.inr rfl⟩
    rest := fun haside hp => hp.aside haside
    begun := fun hidle hgoing hp =>
      ⟨base.begun hidle hgoing trivial, hp.aside (h := .begin) trivial⟩
    waiting := fun hp => ⟨base.waiting hp.1, hp.2.1, hp.2.2, hp.2.3, hp.2.4⟩
    aside := fun haside hs hp => ⟨base.aside haside hs hp.1, hp.2.aside haside⟩
    shift := fun hbase hp h => ⟨base.shift hbase hp.1 h, hp.2.shift hp.1 h⟩
    entry := fun task hlawful hlist hbase hnext hs hp h hlost =>
      ⟨base.entry task hlawful hlist hbase hnext hs hp.1 h hlost, hp.2.entry h hlost⟩
    step := fun task hbase hnext hp h => ⟨base.step task hbase hnext hp.1 h, hp.2.step h⟩
    idle_of_over := fun _ hp => ⟨fun _ herrand => absurd herrand List.not_mem_nil, hp.2.2, hp.2.3,
      Or.inr (hp.2.4.resolve_left id)⟩ }

/-! ## What a report counts -/

/-- The counters that only the end of a cycle moves, in a turn that began at `b`: so many cycles are
done, so many segments restored, and a layout is committed exactly if one was accepted. -/
structure Owes (b c : Coordinator) (done : UInt64) (restored : Nat) (committed accepted : Bool) :
    Prop where
  cycles : c.metrics.cycles = b.metrics.cycles + done
  segmentsRestored : c.metrics.segmentsRestored = b.metrics.segmentsRestored + .ofNat restored
  committed_eq : committed = accepted

/-- What a turn that began at `b` has counted at the point. -/
def Reports (b : Coordinator) (accepted : Bool) (c : Coordinator) : Point → Prop
  | .settled _ _ committed => Owes b c 0 0 committed.isSome accepted
  | .through d =>
    Owes b c 0 (d.awaiting - countIn .transferred d.tracked) d.report.committedEpoch.isSome accepted
  | .over _ (.ok report) => Owes b c 1 report.restored report.committedEpoch.isSome accepted
  | _ => Owes b c 0 0 false accepted

section

variable {b c : Coordinator} {accepted : Bool}

theorem reports_of_unreckoned {d : Draft} (hd : d.Unreckoned)
    (h : Owes b c 0 0 false accepted) : Reports b accepted c (.through d) := by
  rw [Reports, hd.awaiting_eq, hd.committedEpoch_eq, Nat.zero_sub]
  exact h

theorem reports_of_waits {d : Draft} (hd : d.Waits)
    (h : Owes b c 0 0 false accepted) : Reports b accepted c (.through d) := by
  rw [Reports, hd.awaiting_eq, hd.committedEpoch_eq, Nat.sub_self]
  exact h

theorem Reports.step {moments : List Moment} {p q : Point} (hrep : Represented moments p)
    (hreckoned : Reckoned p) (hp : Reports b accepted c p) (h : Step c p q) :
    Reports b accepted (c.recorded p q) q := by
  cases h with
  | skip | take | retire | replace | miss | turn | goOn | list | reflect | propose => exact hp
  | copy | crash | refuse | close | stop => exact ⟨hp.1, hp.2, hp.3⟩
  | rest => exact reports_of_unreckoned hreckoned hp
  | exhaust | defer => exact reports_of_waits hreckoned hp
  | @skipMarks d ready committed e h =>
    rw [Listing.markListed_eq_map (Faithful.tracks hrep).valid] at h
    cases h
  | @mark d ready tracked committed h =>
    have hcount := Listing.countIn_add_countP (Faithful.tracks hrep).valid h
    have hawaiting := hreckoned.awaiting_eq
    have hrestored : d.tracked.countP (Listing.isReady ready) =
        d.awaiting - countIn .transferred tracked := by omega
    rw [recorded, h]
    refine ⟨hp.cycles, ?_, hp.committed_eq⟩
    have hbefore : c.metrics.segmentsRestored = b.metrics.segmentsRestored :=
      hp.segmentsRestored.trans (add_zero _)
    simp only [Metrics.add, hbefore, hrestored]
  | conclude =>
    refine ⟨?_, hp.segmentsRestored, hp.committed_eq⟩
    have hbefore : c.metrics.cycles = b.metrics.cycles := hp.cycles.trans (add_zero _)
    exact congrArg (· + 1) hbefore

theorem owes_count (m : Metrics) (o : ChunkOutcome) :
    (o.count m).cycles = m.cycles ∧ (o.count m).segmentsRestored = m.segmentsRestored := by
  cases o with
  | processed present result =>
    simp only [ChunkOutcome.count, Metrics.countBatch]
    cases result.isSuccess <;> exact ⟨rfl, rfl⟩
  | held | dropped => exact ⟨rfl, rfl⟩

/-- What a reply counts at once has nothing to do with the end of the cycle. -/
theorem owes_noted (c : Coordinator) (s : Stage) (answer : s.query.Reply) :
    Owes c (c.noted s answer) 0 0 false false := by
  have hcounted : (c.noted s answer).metrics.cycles = c.metrics.cycles ∧
      (c.noted s answer).metrics.segmentsRestored = c.metrics.segmentsRestored := by
    unfold noted
    split
    case h_4 =>
      split
      · exact owes_count _ _
      · exact ⟨rfl, rfl⟩
    all_goals exact ⟨rfl, rfl⟩
  exact ⟨hcounted.1.trans (add_zero _).symm, hcounted.2.trans (add_zero _).symm, rfl⟩

theorem reports_entry {s : Stage} {answer : s.query.Reply} {p : Point}
    (hreckoned : Reckoned (.waiting s)) (h : Entry c s answer p) :
    Reports c (Moment.accepts ⟨c, .reply s answer⟩) (c.noted s answer) p := by
  have hsame := owes_noted c s answer
  cases h with
  | accepted => exact ⟨hsame.cycles, hsame.segmentsRestored, rfl⟩
  | refused | unrefreshed => exact reports_of_waits hreckoned hsame
  | _ => exact hsame

theorem owes_heeded {c : Coordinator} {h : Happening} (haside : h.IsAside) :
    Owes c (h.heeded c) 0 0 false (Moment.accepts ⟨c, h⟩) := by
  cases h with
  | reply => exact haside.elim
  | _ => exact ⟨(add_zero _).symm, (add_zero _).symm, rfl⟩

theorem reports_shift {c : Coordinator} {h : Happening} (haside : h.IsAside) {s : Stage}
    {p : Point} (hshift : Shift s p) :
    Reports c (Moment.accepts ⟨c, h⟩) ((h.heeded c).shifted p) p := by
  have hsame := owes_heeded (c := c) haside
  cases hshift with
  | abandon => exact ⟨hsame.1, hsame.2, hsame.3⟩
  | _ => exact hsame

theorem reports_opens {m : Moment} {c : Coordinator} {p : Point}
    (hreckoned : ∀ s, m.before.stage = some s → Reckoned (.waiting s)) (h : m.Opens c p) :
    Reports m.before m.accepts c p := by
  cases h with
  | begun => exact owes_heeded (h := .begin) trivial
  | shift haside hs hshift => exact reports_shift haside hshift
  | entry hs hentry => exact reports_entry (hreckoned _ hs) hentry

/-- What a turn that ends at the point has counted. -/
theorem Reports.of_turn? {m : Moment} {p : Point} (h : Reports m.before m.accepts c p)
    (hturn : p.turn? c = some m.turn) :
    Owes m.before m.after (if m.report?.isSome then 1 else 0) (m.report?.elim 0 (·.restored))
      (m.report?.any (·.committedEpoch.isSome)) m.accepts := by
  rw [Moment.after, Moment.report?, Moment.outcome]
  rcases Point.of_turn? hturn with ⟨s, rfl, heq⟩ | ⟨published, outcome, rfl, heq⟩
  · rw [heq]
    exact ⟨h.1, h.2, h.3⟩
  · rw [heq]
    cases outcome with
    | ok report => exact ⟨h.1, h.2, h.3⟩
    | error e => exact ⟨h.1, h.2, h.3⟩

/-- At every moment the counters of finished cycles and of restored segments move by what a report
says, and a layout is reported to be committed exactly if a proposal was accepted. -/
theorem owes_turn {node : NodeId} {settings : Settings} {moments : List Moment} {m : Moment}
    {c : Coordinator} (hrun : Run { node, settings } (m :: moments) c)
    (hlawful : Lawful (m :: moments)) :
    Owes m.before m.after (if m.report?.isSome then 1 else 0) (m.report?.elim 0 (·.restored))
      (m.report?.any (·.committedEpoch.isSome)) m.accepts := by
  obtain ⟨hbefore, possible⟩ := hrun.before
  have inv := invariant_reckoned node settings
  have hheld := inv.run hbefore fun m' hm' => hlawful m' (List.mem_cons_of_mem _ hm')
  rcases m.turn_cases possible with hstill | ⟨b, q, hopens, hleads⟩
  · have hnone : m.report? = none := by
      rcases hstill.outcome with hnone | ⟨-, ⟨-, hkind⟩ | ⟨-, -, hkind⟩⟩
      · rw [Moment.report?, hnone]
      · rw [Moment.report?, hkind]
      · rw [Moment.report?, hkind]
    rw [hstill.after_eq, hnone]
    exact owes_heeded hstill.isAside
  · have task := hbefore.sameTask.trans hopens.sameTask
    have hbase := inv.opens hbefore.sameTask (hlawful m List.mem_cons_self) hheld hopens
    have hstart := reports_opens (fun s hs => (hheld.2 s hs).2) hopens
    obtain ⟨c', p, -, ⟨-, hp⟩, hturn⟩ := hleads.exists_end
      (P := fun c p => (Represented (m :: moments) p ∧ Reckoned p) ∧
        Reports m.before m.accepts c p) ⟨hbase, hstart⟩ fun horders hp hstep =>
          ⟨inv.step (task.trans horders.toSameTask) hp.1 hstep, hp.2.step hp.1.1 hp.1.2 hstep⟩
    exact hp.of_turn? hturn

end

/-! ## Along a run -/

/-- What the reports of a run say is what the end of its cycles has counted. -/
theorem reports_balance {node : NodeId} {settings : Settings} {moments : List Moment}
    {c : Coordinator} (hrun : Run { node, settings } moments c) (hlawful : Lawful moments) :
    c.metrics.cycles = .ofNat (moments.filterMap Moment.report?).length ∧
      c.metrics.segmentsRestored =
        .ofNat ((moments.filterMap Moment.report?).map (·.restored)).sum ∧
      moments.countP Moment.accepts =
        (moments.filterMap Moment.report?).countP (·.committedEpoch.isSome) := by
  induction hrun with
  | nil => exact ⟨rfl, rfl, rfl⟩
  | @cons moments c hrun happening possible ih =>
    obtain ⟨hcycles, hrestored, hcommitted⟩ :=
      ih fun m hm => hlawful m (List.mem_cons_of_mem _ hm)
    have howes := owes_turn (hrun.cons happening possible) hlawful
    have hcycles' := howes.cycles
    have hrestored' := howes.segmentsRestored
    have hcommitted' := howes.committed_eq
    rw [hcycles] at hcycles'
    rw [hrestored] at hrestored'
    rw [List.countP_cons, hcommitted, ← hcommitted', List.filterMap_cons]
    cases hreport : Moment.report? ⟨c, happening⟩ with
    | none =>
      rw [hreport] at hcycles' hrestored'
      exact ⟨hcycles'.trans (add_zero _), hrestored'.trans (add_zero _), rfl⟩
    | some report =>
      rw [hreport] at hcycles' hrestored'
      refine ⟨?_, ?_, ?_⟩
      · rw [List.length_cons, UInt64.ofNat_add]
        exact hcycles'
      · rw [List.map_cons, List.sum_cons, Nat.add_comm, UInt64.ofNat_add]
        exact hrestored'
      · rw [List.countP_cons]
        rfl

/-- Between the cycles of a run in which no worker dies, the counters are, in words: the number of
cycles that ended with a report; of batches that were written in full; of chunks that failed; of
distinct addresses that were asked for and written; of addresses asked about and held; of accepted
proposals, which is that of reports with a committed layout; of proposals in a stale epoch; and of
the segments that the reports say were restored. The gauges show the failed segments of the
published list, and that no segment is being copied. -/
theorem books_balance {node : NodeId} {settings : Settings} {moments : List Moment}
    {c : Coordinator} (hrun : Run { node, settings } moments c) (hlawful : Lawful moments)
    (halive : ∀ m ∈ moments, ¬m.LosesWorker) (hidle : c.stage = none) :
    let reports := moments.filterMap Moment.report?
    c.metrics.cycles = .ofNat reports.length ∧
      c.metrics.batchesSucceeded = .ofNat (moments.countP Moment.copiesAll) ∧
      c.metrics.batchesFailed = .ofNat (moments.countP Moment.failsChunk) ∧
      c.metrics.addressesTransferred = .ofNat (moments.map Moment.written).sum ∧
      c.metrics.addressesSkipped = .ofNat (moments.map Moment.held).sum ∧
      c.metrics.proposalsCommitted = .ofNat (moments.countP Moment.accepts) ∧
      moments.countP Moment.accepts = reports.countP (·.committedEpoch.isSome) ∧
      c.metrics.proposalsRejected = .ofNat (moments.countP Moment.findsStale) ∧
      c.metrics.segmentsRestored = .ofNat (reports.map (·.restored)).sum ∧
      c.metrics.segmentsFailed = .ofNat c.failures.length ∧
      c.metrics.segmentsInFlight = 0 := by
  obtain ⟨hcycles, hrestored, hcommitted⟩ := reports_balance hrun hlawful
  have hsums := ((upkeep_sums node settings).run (invariant_represented node settings) rfl hrun
    hlawful).between hidle
  have hbooked := hsums.booked halive
  have hfailures : c.failures.length = countIn .failed c.tracked :=
    List.countP_eq_length_filter.symm
  rw [hfailures]
  exact ⟨hcycles, hbooked.batchesSucceeded, hbooked.batchesFailed, hbooked.addressesTransferred,
    (add_zero _).symm.trans hbooked.addressesSkipped, hbooked.proposalsCommitted, hcommitted,
    hbooked.proposalsRejected, hrestored, hsums.segmentsFailed,
    hsums.segmentsInFlight.resolve_left id⟩

/-- Two of five addresses are held, the others are copied, and the proposal is accepted. -/
theorem books_balance_of_copied_half :
    ∃ m c, Run { node := "n", settings := {} } (m :: copyMoments) c ∧ c.stage = none ∧
      c.metrics.batchesSucceeded = 1 ∧ c.metrics.batchesFailed = 0 ∧
      c.metrics.addressesTransferred = 3 ∧ c.metrics.addressesSkipped = 2 ∧
      c.metrics.proposalsCommitted = 1 ∧ c.metrics.proposalsRejected = 0 ∧
      c.metrics.segmentsFailed = 0 ∧ c.metrics.segmentsInFlight = 0 := by
  obtain ⟨metrics, hproposing⟩ := run_copyMoments
  let answer : Happening :=
    .reply (.proposing halfCopied halfHeld [copiedHalf] joinedHalves 2) (.ok ())
  have haccepted := hproposing.cons answer rfl
  have hlawful : Lawful (⟨halfProposing metrics, answer⟩ :: copyMoments) :=
    List.forall_mem_cons.mpr ⟨trivial, lawful_copyMoments⟩
  have halive : ∀ m ∈ (⟨halfProposing metrics, answer⟩ :: copyMoments), ¬m.LosesWorker := by
    simp only [copyMoments, halfMoments, List.forall_mem_cons]
    exact ⟨Bool.false_ne_true, Bool.false_ne_true, Bool.false_ne_true, Bool.false_ne_true,
      Bool.false_ne_true, id, fun _ hm => absurd hm List.not_mem_nil⟩
  obtain ⟨-, hsucceeded, hfailed, htransferred, hskipped, hcommitted, -, hrejected, -,
    hgauge, hinFlight⟩ := books_balance haccepted hlawful halive rfl
  exact ⟨_, _, haccepted, rfl, hsucceeded, hfailed, htransferred, hskipped, hcommitted, hrejected,
    hgauge, hinFlight⟩

end Coordinator

end LogRepair
