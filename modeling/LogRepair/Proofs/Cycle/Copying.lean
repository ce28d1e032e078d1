import LogRepair.Proofs.Cycle.Visits

/-!
# Copying one chunk after another

* `Coordinator.Stands`: where a copying stands after the questions that were answered.
* `Coordinator.CopyRun.stands`: the answers alone tell where a copying stands.
* `Coordinator.CopiedBy.renewed`: what the visits make of a segment stands in its place.
* `Coordinator.CopyRun.exists_end`: whatever is answered, a copying comes to its end.
* `Coordinator.copying_is_exact`: what is asked, in which order, and what becomes of the targets.
-/

namespace LogRepair

open TrackedSegment

/-! ## Where a copying stands -/

namespace Coordinator

/-- Visits of the plan are over, and the chunk at one more place was taken. -/
structure Underway (plan : Plan) (visits : List Visit) (w : Workload) (p : Place) (span : Span) :
    Prop where
  alone : w.others = []
  has : ∀ v ∈ visits, plan.Has v
  locates : plan.Locates p span (w.sources p.target)
  lt_chunkCount : p.round < plan.chunkCount p.target
  advanced : w.Advanced plan w.worker (visits.map (·.place) ++ [p]) visits

/-- Where the copying of a draft stands after these exchanges. -/
inductive Stands (c : Coordinator) (d : Draft) (log : List Exchange) (turn : Turn) : Prop
  | checking {visits : List Visit} {w : Workload} {p : Place} {span : Span}
      (underway : Underway (c.copyPlan d) visits w p span)
      (orders : SameOrders c turn.coordinator)
      (stage : turn.coordinator.stage = some (.checking d w p.target span))
      (log_eq : log = visits.flatMap Visit.exchanges)
  | copying {visits : List Visit} {w : Workload} {p : Place} {span : Span} {v : Visit}
      {present : List Address}
      (underway : Underway (c.copyPlan d) visits w p span)
      (visit_eq : v = w.visit p span (.held present))
      (missing : v.request.isEmpty = false)
      (orders : SameOrders c turn.coordinator)
      (stage : turn.coordinator.stage =
        some (.copying d w p.target (.ofNat v.heldCount) v.request))
      (log_eq : log = visits.flatMap Visit.exchanges ++ [⟨.present span, .ok present⟩])
  | closed {visits : List Visit} (copied : CopiedBy c d visits turn)
      (log_eq : log = visits.flatMap Visit.exchanges)

section

variable {c c' : Coordinator} {d : Draft} {visits : List Visit} {w : Workload} {p : Place}
  {span : Span}

/-- After a visit comes the next one, or the end. -/
theorem stands_nextChunk (hplan : (c.copyPlan d).Sound) (horders : SameOrders c c')
    (halone : w.others = []) (hhas : ∀ v ∈ visits, (c.copyPlan d).Has v)
    (hadvanced : w.Advanced (c.copyPlan d) w.worker (visits.map (·.place)) visits) :
    Stands c d (visits.flatMap Visit.exchanges) (c'.nextChunk d w) := by
  cases hqueue : w.queue with
  | nil =>
    obtain ⟨segments, hclose, hlength, hsegments⟩ := hadvanced.close_eq hplan hqueue hhas
    have hturn := hadvanced.inTurn
    rw [hqueue] at hturn
    have hretire : w.retire = w := by
      rw [Workload.retire, hadvanced.map_retire]
    have hclosed : c'.nextChunk d w =
        ({ c' with metrics := c'.metrics.set .segmentsInFlight 0 } : Coordinator).afterCopying
          { d with
            tracked := replaceCandidates d.tracked segments
            report := tallyFates d.report (segments.map (·, false)) } := by
      rw [nextChunk, Workload.take_nil hqueue]
      simp [hretire, passTurn, halone, closeWorkload, hadvanced.crashed_eq, hclose,
        Function.comp_def]
    refine .closed ⟨⟨hturn.sorted, hturn.mem_iff_of_nil, hhas⟩, _, segments, _, ?_, hclosed,
      hlength, hsegments⟩ rfl
    exact horders.trans ⟨⟨rfl, rfl⟩, rfl⟩
  | cons i rest =>
    obtain ⟨w', span, htake, hlocates, hround, hadvanced', hothers, hworker⟩ :=
      hadvanced.take_cons hplan hqueue
    have hwait : c'.nextChunk d w = c'.wait (.checking d w' i span) := by
      rw [nextChunk, htake]
    rw [hwait]
    rw [← hworker] at hadvanced'
    exact .checking ⟨hothers.trans halone, hhas, hlocates, hround, hadvanced'⟩
      (horders.trans ⟨⟨rfl, rfl⟩, rfl⟩) rfl rfl

/-- A visit ends. -/
theorem stands_noteChunk (hplan : (c.copyPlan d).Sound) (horders : SameOrders c c')
    (h : Underway (c.copyPlan d) visits w p span) (answers : Answers)
    (hconsistent : (w.visit p span answers).Consistent) :
    Stands c d (visits.flatMap Visit.exchanges ++ (w.visit p span answers).exchanges)
      (c'.noteChunk d w p.target (w.visit p span answers).outcome) := by
  have hnoted := h.advanced.note (w.visit p span answers)
  have hplaces : (visits ++ [w.visit p span answers]).map (·.place) =
      visits.map (·.place) ++ [p] := by
    rw [List.map_append]
    rfl
  rw [← hplaces] at hnoted
  have hvisits : ∀ v ∈ visits ++ [w.visit p span answers], (c.copyPlan d).Has v := by
    intro v hv
    rcases List.mem_append.mp hv with hv | hv
    · exact h.has v hv
    · rw [List.mem_singleton.mp hv]
      exact ⟨hconsistent, h.locates⟩
  have hcounted : SameOrders c
      { c' with metrics := (w.visit p span answers).outcome.count c'.metrics } :=
    horders.trans ⟨⟨rfl, rfl⟩, rfl⟩
  have halone : (w.note p.target (w.visit p span answers).outcome).others = [] := h.alone
  have hnext := stands_nextChunk hplan hcounted halone hvisits hnoted
  rw [List.flatMap_append, List.flatMap_singleton] at hnext
  exact hnext

/-- What is held of the chunk is answered, or could not be read. -/
theorem stands_resumeChecking (hplan : (c.copyPlan d).Sound) (horders : SameOrders c c')
    (h : Underway (c.copyPlan d) visits w p span) (reply : Except Error (List Address)) :
    Stands c d (visits.flatMap Visit.exchanges ++ [⟨.present span, reply⟩])
      (c'.resumeChecking d w p.target span reply) := by
  cases reply with
  | error e => exact stands_noteChunk hplan horders h (.unreadable e) trivial
  | ok present =>
    have hupright : ¬span.last < span.first := by
      obtain ⟨s, hs, rfl, -⟩ := h.locates
      have hvalid := hplan.valid s (List.mem_of_getElem? hs)
      have hround := h.lt_chunkCount
      rw [Plan.chunkCount_eq hs] at hround
      have hbounds := Span.chunk_bounds hvalid.first_nonneg hvalid.first_le_last
        hplan.batchSize_pos hround
      grind
    rw [resumeChecking]
    simp only [hupright, decide_false, Bool.false_and, Bool.false_eq_true, if_false]
    split
    · next hempty => exact stands_noteChunk hplan horders h (.held present) hempty
    · next hrest =>
      exact .copying h rfl (Bool.eq_false_iff.mpr hrest)
        (horders.trans ⟨⟨rfl, rfl⟩, rfl⟩) rfl rfl

/-- What came of copying the rest of the chunk is answered. -/
theorem stands_resumeCopying (hplan : (c.copyPlan d).Sound) (horders : SameOrders c c')
    (h : Underway (c.copyPlan d) visits w p span) {present : List Address}
    (hrest : (w.visit p span (.held present)).request.isEmpty = false) {reply : TransferReply}
    (halive : reply ≠ .crashed) :
    Stands c d
      (visits.flatMap Visit.exchanges ++ [⟨.present span, .ok present⟩] ++
        [⟨.transfer (w.visit p span (.held present)).request, reply⟩])
      (c'.resumeCopying d w p.target (.ofNat (w.visit p span (.held present)).heldCount)
        (w.visit p span (.held present)).request reply) := by
  rw [List.append_assoc]
  cases reply with
  | written returned =>
    exact stands_noteChunk hplan horders h (.written present returned) hrest
  | failed e => exact stands_noteChunk hplan horders h (.failed present e) hrest
  | crashed => exact absurd rfl halive

/-- What comes after the copying copies nothing. -/
theorem workload?_afterCopying (c : Coordinator) (d : Draft) :
    (c.afterCopying d).coordinator.workload? = none := by
  have hattempt : ∀ (d : Draft) (base : Layout) (left : Nat),
      (c.attempt d base left).coordinator.workload? = none := by
    intro d base left
    cases left with
    | zero => rfl
    | succ left =>
      rw [attempt]
      split
      · rfl
      · rw [settle]
        split <;> rfl
      · rfl
  rw [afterCopying]
  split
  · rfl
  · rw [listCopied]
    split
    · rfl
    · exact hattempt _ _ _

/-- The cycle goes on with the list in which every segment that needed a copy has given its place to
what the visits to it make of it. -/
theorem CopiedBy.renewed {turn : Turn} (h : CopiedBy c d visits turn) :
    ∃ (c' : Coordinator) (tracked : List TrackedSegment) (report : Report),
      SameOrders c c' ∧ turn = c'.afterCopying { d with tracked, report } ∧
      Renewed (fun i s u => s.CopiedBy (Plan.visitsTo visits i) u) d.tracked tracked := by
  obtain ⟨c', segments, report, horders, hturn, hlength, hsegments⟩ := h.ended
  exact ⟨c', _, report, horders, hturn, renewed_replaceCandidates hlength hsegments⟩

theorem CopiedBy.workload?_eq_none {turn : Turn} (h : CopiedBy c d visits turn) :
    turn.coordinator.workload? = none := by
  obtain ⟨c', segments, report, -, rfl, -⟩ := h.ended
  exact workload?_afterCopying c' _

theorem Stands.exists_visits {log : List Exchange} {turn : Turn} (h : Stands c d log turn)
    (hended : turn.coordinator.workload? = none) :
    ∃ visits, CopiedBy c d visits turn ∧ log = visits.flatMap Visit.exchanges := by
  cases h with
  | checking _ _ hstage => simp [workload?, hstage, Stage.workload?] at hended
  | copying _ _ _ _ hstage => simp [workload?, hstage, Stage.workload?] at hended
  | closed hcopied hlog => exact ⟨_, hcopied, hlog⟩

/-- As long as the copying goes on, only the coordinator matters. -/
theorem Stands.of_coordinator {log : List Exchange} {turn turn' : Turn} (h : Stands c d log turn)
    (hcopying : turn.coordinator.workload?.isSome = true)
    (hsame : turn'.coordinator = turn.coordinator) : Stands c d log turn' := by
  cases h with
  | checking hunderway horders hstage hlog =>
    exact .checking hunderway (hsame ▸ horders) (hsame ▸ hstage) hlog
  | copying hunderway hvisit hmissing horders hstage hlog =>
    exact .copying hunderway hvisit hmissing (hsame ▸ horders) (hsame ▸ hstage) hlog
  | closed hcopied =>
    rw [hcopied.workload?_eq_none] at hcopying
    cases hcopying

/-- The worker at its turn is alone, and no worker has died. -/
theorem Stands.of_workload? {log : List Exchange} {turn : Turn} (h : Stands c d log turn)
    (hw : turn.coordinator.workload? = some w) : w.others = [] ∧ w.crashed = false := by
  cases h with
  | checking hunderway _ hstage | copying hunderway _ _ _ hstage =>
    rw [workload?, hstage] at hw
    cases hw
    exact ⟨hunderway.alone, hunderway.advanced.crashed_eq⟩
  | closed hcopied =>
    rw [hcopied.workload?_eq_none] at hw
    cases hw

/-- The workload of the targets of the plan, before anything is handed out. -/
theorem advanced_ofTargets (hplan : (c.copyPlan d).Sound) (hgoing : c.stopped = false)
    (workers : Nat) :
    (Workload.ofTargets ((c.copyPlan d).segments.map (c.targetOf d.layout)) workers).Advanced
      (c.copyPlan d) (workers - 1) [] [] := by
  have hcount : ∀ {i s}, (c.copyPlan d).segments[i]? = some s →
      0 < (c.copyPlan d).chunkCount i := by
    intro i s hs
    have hvalid := hplan.valid s (List.mem_of_getElem? hs)
    have hle := Int64.le_iff_toInt_le.mp hvalid.first_le_last
    rw [Plan.chunkCount_eq hs, Span.lt_chunkCount_iff hvalid.first_nonneg hvalid.first_le_last
      hplan.batchSize_pos]
    simpa using hle
  refine ⟨rfl, List.length_map _, fun i t ht => ?_, Workload.inTurn_nil fun i => ?_⟩
  · rw [Workload.ofTargets, List.getElem?_map] at ht
    obtain ⟨s, hs, rfl⟩ := Option.map_eq_some_iff.mp ht
    refine ⟨hs, rfl, hgoing, ?_, Or.inl ⟨rfl, rfl⟩⟩
    have hpos := hcount hs
    rw [Plan.chunkCount_eq hs] at hpos
    exact Cursor.stands_ofSpan hplan.batchSize_pos hpos
  · rw [List.length_map]
    constructor
    · intro hi
      exact hcount (List.getElem?_eq_getElem hi)
    · intro hi
      obtain ⟨s, hs⟩ := Plan.exists_of_lt_chunkCount hi
      exact (List.getElem?_eq_some_iff.mp hs).1

theorem stands_copy (hplan : (c.copyPlan d).Sound) (hgoing : c.stopped = false) :
    Stands c d [] (c.copy d) := by
  cases hsegments : (c.copyPlan d).segments with
  | nil =>
    have hcopy : c.copy d = c.afterCopying d := by
      rw [copy, show d.tracked.filter (·.isDue) = [] from hsegments]
    rw [hcopy]
    have hnone : ∀ i, (c.copyPlan d).chunkCount i = 0 := fun i => by
      rw [Plan.chunkCount, hsegments]
      rfl
    have hcopied : CopiedBy c d [] (c.afterCopying d) := by
      refine ⟨⟨.nil, fun p => ?_, fun v hv => absurd hv List.not_mem_nil⟩, c, [], d.report,
        .refl c, ?_, ?_, fun i s u hs => ?_⟩
      · rw [hnone]
        exact iff_of_false List.not_mem_nil (Nat.not_lt_zero _)
      · rw [replaceCandidates_nil]
      · rw [hsegments]
      · rw [hsegments, List.getElem?_nil] at hs
        cases hs
    exact .closed hcopied rfl
  | cons s rest =>
    have hadvanced := advanced_ofTargets hplan hgoing c.settings.maxConcurrentBatches.toNat
    have hcopy : ∃ metrics, c.copy d = ({ c with metrics } : Coordinator).nextChunk d
        (.ofTargets ((c.copyPlan d).segments.map (c.targetOf d.layout))
          c.settings.maxConcurrentBatches.toNat) := by
      rw [copy, show d.tracked.filter (·.isDue) = s :: rest from hsegments, hsegments]
      exact ⟨_, rfl⟩
    obtain ⟨metrics, hcopy⟩ := hcopy
    rw [hcopy]
    have hstart : SameOrders c { c with metrics } := ⟨⟨rfl, rfl⟩, rfl⟩
    have hnone : ∀ v ∈ ([] : List Visit), (c.copyPlan d).Has v := fun v hv =>
      absurd hv List.not_mem_nil
    exact stands_nextChunk hplan hstart rfl hnone hadvanced

/-- If no worker may wait besides another, one that begins finds nothing to take and ends. -/
theorem nextChunk_hire (hplan : (c.copyPlan d).Sound) (h : Underway (c.copyPlan d) visits w p span)
    (errand : Errand)
    (halone : ∀ w' ∈ (c'.nextChunk d (w.park errand).hire).coordinator.workload?, w'.others = []) :
    c'.nextChunk d (w.park errand).hire =
      c'.wait (errand.stage d { w with spareWorkers := w.spareWorkers - 1 }) := by
  have hadvanced : Workload.Advanced (c.copyPlan d) w.worker (visits.map (·.place) ++ [p]) visits
      (w.park errand).hire := h.advanced.of_targets rfl rfl rfl
  have hothers : (w.park errand).hire.others = [(w.worker, errand)] := by
    simp [Workload.hire, Workload.park, h.alone]
  cases hqueue : (w.park errand).hire.queue with
  | nil =>
    have hretire : (w.park errand).hire.retire = (w.park errand).hire := by
      rw [Workload.retire, hadvanced.map_retire]
    rw [nextChunk, Workload.take_nil hqueue]
    simp only [hretire, passTurn, hothers]
    rw [← h.alone]
    rfl
  | cons i rest =>
    obtain ⟨w', span', htake, -, -, -, hothers', -⟩ := hadvanced.take_cons hplan hqueue
    have hwaits : w'.others = [] := by
      refine halone w' ?_
      rw [nextChunk, htake]
      rfl
    rw [hothers', hothers] at hwaits
    cases hwaits

theorem Underway.withSpare {plan : Plan} (h : Underway plan visits w p span) (spare : Nat) :
    Underway plan visits { w with spareWorkers := spare } p span :=
  ⟨h.alone, h.has, h.locates, h.lt_chunkCount, h.advanced.of_targets rfl rfl rfl⟩

theorem stands_hire (hplan : (c.copyPlan d).Sound) {log : List Exchange} {turn : Turn}
    (h : Stands c d log turn) (hcopying : turn.coordinator.workload?.isSome = true)
    (halone : ∀ w ∈ turn.coordinator.hire.coordinator.workload?, w.others = []) :
    Stands c d log turn.coordinator.hire := by
  rcases turn.coordinator.hire_cases with heq | ⟨d', w', errand, hstage', -, heq⟩
  · rw [heq]
    exact h.of_coordinator hcopying rfl
  rw [heq] at halone ⊢
  cases h with
  | checking hunderway horders hstage hlog =>
    have hsame := Option.some.inj (hstage.symm.trans hstage')
    cases errand <;> cases hsame
    rw [nextChunk_hire hplan hunderway _ halone]
    exact .checking (hunderway.withSpare _) (horders.trans ⟨⟨rfl, rfl⟩, rfl⟩) rfl hlog
  | copying hunderway hvisit hmissing horders hstage hlog =>
    have hsame := Option.some.inj (hstage.symm.trans hstage')
    cases errand <;> cases hsame
    rw [nextChunk_hire hplan hunderway _ halone]
    exact .copying (hunderway.withSpare (w'.spareWorkers - 1)) hvisit hmissing
      (horders.trans ⟨⟨rfl, rfl⟩, rfl⟩) rfl hlog
  | closed hcopied =>
    rw [hcopied.workload?_eq_none] at hcopying
    cases hcopying

theorem exchanges_cons (m : Moment) (moments : List Moment) :
    exchanges (m :: moments) = exchanges moments ++ m.exchange?.toList := by
  rw [exchanges, List.reverse_cons, List.filterMap_append]
  cases h : m.exchange? <;> simp [exchanges, h]

/-- A reply is one more exchange, and either the next question or the end comes of it. -/
theorem Stands.reply (hplan : (c.copyPlan d).Sound) {log : List Exchange} {turn : Turn}
    (h : Stands c d log turn) {s : Stage} (hs : turn.coordinator.stage = some s)
    (hcopying : turn.coordinator.workload?.isSome = true) {answer : s.query.Reply}
    (hundisturbed : (Happening.reply s answer).Undisturbed turn.coordinator) :
    Stands c d (log ++ [⟨s.query, answer⟩]) (turn.coordinator.resume s answer) := by
  cases h with
  | checking hunderway horders hstage hlog =>
    obtain rfl := Option.some.inj (hstage.symm.trans hs)
    rw [hlog]
    exact stands_resumeChecking hplan horders hunderway answer
  | copying hunderway hvisit hmissing horders hstage hlog =>
    subst hvisit
    obtain rfl := Option.some.inj (hstage.symm.trans hs)
    rw [hlog]
    exact stands_resumeCopying hplan horders hunderway hmissing hundisturbed
  | closed hcopied =>
    rw [hcopied.workload?_eq_none] at hcopying
    cases hcopying

/-- The exchanges tell where a copying stands. -/
theorem CopyRun.stands (hplan : (c.copyPlan d).Sound) (hgoing : c.stopped = false)
    {moments : List Moment} {turn : Turn} (hrun : CopyRun c d moments turn) :
    Stands c d (exchanges moments) turn := by
  induction hrun with
  | begun => exact stands_copy hplan hgoing
  | @cons moments turn hrun hcopying h possible undisturbed halone ih =>
    -- What is no reply adds no exchange.
    have hsilent : ∀ turn', Stands c d (exchanges moments) turn' →
        Moment.exchange? ⟨turn.coordinator, h⟩ = none →
          Stands c d (exchanges (⟨turn.coordinator, h⟩ :: moments)) turn' := by
      intro turn' hstands hnone
      rw [exchanges_cons, hnone]
      simpa using hstands
    cases h with
    | reply s answer =>
      rw [exchanges_cons]
      exact ih.reply hplan possible hcopying undisturbed
    | begin =>
      refine hsilent _ (ih.of_coordinator hcopying ?_) rfl
      have hrunning : turn.coordinator.stage.isSome = true := by
        unfold workload? at hcopying
        cases hstage : turn.coordinator.stage with
        | none => simp [hstage] at hcopying
        | some s => rfl
      rw [Happening.turn, begin, if_pos hrunning]
    | announce layout => exact hsilent _ (ih.of_coordinator hcopying undisturbed) rfl
    | shutdown => exact undisturbed.elim
    | switch k =>
      refine hsilent _ (ih.of_coordinator hcopying ?_) rfl
      rw [Happening.turn]
      rcases turn.coordinator.switch_cases k with heq | ⟨d', w, errand, _, _, hstage, hk, -⟩
      · rw [heq]
      · have hw : turn.coordinator.workload? = some w := by
          rw [workload?, hstage]
          cases errand <;> rfl
        rw [(ih.of_workload? hw).1] at hk
        cases hk
    | hire => exact hsilent _ (stands_hire hplan ih hcopying halone) rfl
    | abandon =>
      refine hsilent _ (ih.of_coordinator hcopying ?_) rfl
      rw [Happening.turn]
      rcases turn.coordinator.abandon_cases with heq | ⟨s, w, hstage, hw, hcrashed, -⟩
      · rw [heq]
      · have hw' : turn.coordinator.workload? = some w := by
          rw [workload?, hstage]
          exact hw
        rw [(ih.of_workload? hw').2] at hcrashed
        cases hcrashed

/-- Whatever is answered, the copying goes on. -/
theorem CopyRun.reply (hplan : (c.copyPlan d).Sound) (hgoing : c.stopped = false)
    {moments : List Moment} {turn : Turn} (hrun : CopyRun c d moments turn) {s : Stage}
    (hstage : turn.coordinator.stage = some s)
    (hcopying : turn.coordinator.workload?.isSome = true) {answer : s.query.Reply}
    (hundisturbed : (Happening.reply s answer).Undisturbed turn.coordinator) :
    CopyRun c d (⟨turn.coordinator, .reply s answer⟩ :: moments)
      (turn.coordinator.resume s answer) := by
  have hstands := (hrun.stands hplan hgoing).reply hplan hstage hcopying hundisturbed
  exact hrun.cons hcopying _ hstage hundisturbed fun w hw => (hstands.of_workload? hw).1

theorem length_exchanges_le (visits : List Visit) :
    (visits.flatMap Visit.exchanges).length ≤ 2 * visits.length := by
  induction visits with
  | nil => exact Nat.le_refl _
  | cons v visits ih =>
    have hv : v.exchanges.length ≤ 2 := by
      unfold Visit.exchanges
      split <;> simp
    rw [List.flatMap_cons, List.length_append, List.length_cons]
    omega

/-- As long as a chunk is being copied, not all places of the plan were visited. -/
theorem Underway.length_lt {plan : Plan} (h : Underway plan visits w p span) :
    visits.length < plan.size := by
  have hturn := h.advanced.inTurn
  have hle := plan.length_le_size hturn.sorted fun q hq =>
    Nat.lt_of_lt_of_le ((hturn.mem_handed_iff q).mp hq) (hturn.le_count _)
  rwa [List.length_append, List.length_map] at hle

/-- No more is asked than twice for each chunk. -/
theorem Stands.length_le {log : List Exchange} {turn : Turn} (h : Stands c d log turn) :
    log.length ≤ 2 * (c.copyPlan d).size := by
  cases h with
  | @checking visits _ _ _ hunderway _ _ hlog =>
    have hlt := hunderway.length_lt
    have hbound := length_exchanges_le visits
    rw [hlog]
    omega
  | @copying visits _ _ _ _ _ hunderway _ _ _ _ hlog =>
    have hlt := hunderway.length_lt
    have hbound := length_exchanges_le visits
    rw [hlog, List.length_append, List.length_singleton]
    omega
  | @closed visits hcopied hlog =>
    have hle := (c.copyPlan d).length_le_size hcopied.followed.sorted fun p =>
      (hcopied.followed.mem_iff p).mp
    have hbound := length_exchanges_le visits
    rw [List.length_map] at hle
    rw [hlog]
    omega

/-- The moments and the turn after at most so many further replies of a collaborator that answers
each question of a copying in its own way. -/
def answering (answer : (q : Query) → q.Reply) :
    Nat → List Moment → Turn → List Moment × Turn
  | 0, moments, turn => (moments, turn)
  | n + 1, moments, turn =>
    match turn.coordinator.stage with
    | none => (moments, turn)
    | some s =>
      if s.workload?.isSome then
        answering answer n (⟨turn.coordinator, .reply s (answer s.query)⟩ :: moments)
          (turn.coordinator.resume s (answer s.query))
      else (moments, turn)

section

variable {answer : (q : Query) → q.Reply} {moments : List Moment} {turn : Turn}

theorem answering_succ (n : Nat) {s : Stage} (hstage : turn.coordinator.stage = some s)
    (hs : s.workload?.isSome = true) :
    answering answer (n + 1) moments turn =
      answering answer n (⟨turn.coordinator, .reply s (answer s.query)⟩ :: moments)
        (turn.coordinator.resume s (answer s.query)) := by
  rw [answering, hstage]
  exact if_pos hs

/-- A collaborator that kills no worker disturbs nothing. -/
theorem CopyRun.reply_answer (hplan : (c.copyPlan d).Sound) (hgoing : c.stopped = false)
    (halive : ∀ batch, answer (.transfer batch) ≠ TransferReply.crashed)
    (hrun : CopyRun c d moments turn) {s : Stage} (hstage : turn.coordinator.stage = some s)
    (hs : s.workload?.isSome = true) :
    CopyRun c d (⟨turn.coordinator, .reply s (answer s.query)⟩ :: moments)
      (turn.coordinator.resume s (answer s.query)) := by
  have hcopying : turn.coordinator.workload?.isSome = true := by
    rw [workload?, hstage]
    exact hs
  refine hrun.reply hplan hgoing hstage hcopying ?_
  cases s with
  | copying _ _ _ _ batch => exact halive batch
  | _ => trivial

theorem CopyRun.run_answering (hplan : (c.copyPlan d).Sound) (hgoing : c.stopped = false)
    (halive : ∀ batch, answer (.transfer batch) ≠ TransferReply.crashed)
    (hrun : CopyRun c d moments turn) (n : Nat) :
    CopyRun c d (answering answer n moments turn).1 (answering answer n moments turn).2 := by
  induction n generalizing moments turn with
  | zero => exact hrun
  | succ n ih =>
    cases hstage : turn.coordinator.stage with
    | none =>
      rw [answering, hstage]
      exact hrun
    | some s =>
      by_cases hs : s.workload?.isSome = true
      · rw [answering_succ n hstage hs]
        exact ih (hrun.reply_answer hplan hgoing halive hstage hs)
      · rw [answering, hstage]
        dsimp only
        rw [if_neg hs]
        exact hrun

/-- A collaborator that kills no worker brings every copying to its end. -/
theorem CopyRun.exists_end (hplan : (c.copyPlan d).Sound) (hgoing : c.stopped = false)
    (halive : ∀ batch, answer (.transfer batch) ≠ TransferReply.crashed)
    (hrun : CopyRun c d moments turn) :
    ∃ n, (answering answer n moments turn).2.coordinator.workload? = none := by
  induction hleft : 2 * (c.copyPlan d).size - (exchanges moments).length using Nat.strongRecOn
    generalizing moments turn with
  | ind left ih =>
    cases hcopying : turn.coordinator.workload? with
    | none => exact ⟨0, hcopying⟩
    | some w =>
      obtain ⟨s, hstage, hw⟩ := Option.bind_eq_some_iff.mp hcopying
      have hs : s.workload?.isSome = true := Option.isSome_iff_exists.mpr ⟨w, hw⟩
      have hnext := hrun.reply_answer hplan hgoing halive hstage hs
      have hle := (hnext.stands hplan hgoing).length_le
      have hlonger : (exchanges (⟨turn.coordinator, .reply s (answer s.query)⟩ :: moments)).length =
          (exchanges moments).length + 1 := by
        rw [exchanges_cons, List.length_append]
        rfl
      obtain ⟨n, hend⟩ := ih _ (by omega) hnext rfl
      refine ⟨n + 1, ?_⟩
      rw [answering_succ n hstage hs]
      exact hend

end

end

/-- A copying that takes one chunk after another, and in which nothing is cut short and no worker
dies, asks about every chunk of every target once, round by round, and has just those addresses
copied that are not held. It goes on whatever is answered, but not for ever. At its end each target
is transferred if all of it is held, and has failed otherwise. -/
theorem copying_is_exact {c : Coordinator} {d : Draft} (hgoing : c.stopped = false)
    (hpos : 1 ≤ c.settings.batchSize.toNat) (hsmall : c.settings.batchSize.toNat < 2 ^ 63)
    (hvalid : ∀ s ∈ d.tracked, s.isDue = true → s.Valid) {moments : List Moment} {turn : Turn}
    (hrun : CopyRun c d moments turn) :
    (exchanges moments).length ≤ 2 * (c.copyPlan d).size ∧
    (∀ (s : Stage) (answer : s.query.Reply), turn.coordinator.stage = some s →
      turn.coordinator.workload?.isSome = true →
      (Happening.reply s answer).Undisturbed turn.coordinator →
        CopyRun c d (⟨turn.coordinator, .reply s answer⟩ :: moments)
          (turn.coordinator.resume s answer)) ∧
    (turn.coordinator.workload? = none → ∃ visits,
      exchanges moments = visits.flatMap Visit.exchanges ∧
        (∀ v ∈ visits, (c.copyPlan d).Asks v) ∧ CopiedBy c d visits turn) := by
  have hplan : (c.copyPlan d).Sound := by
    refine ⟨fun s hs => ?_, fun s hs => (List.mem_filter.mp hs).2, hpos, hsmall⟩
    obtain ⟨hs, hdue⟩ := List.mem_filter.mp hs
    exact hvalid s hs hdue
  have hstands := hrun.stands hplan hgoing
  refine ⟨hstands.length_le, fun s answer hstage hcopying hundisturbed =>
    hrun.reply hplan hgoing hstage hcopying hundisturbed, fun hended => ?_⟩
  obtain ⟨visits, hcopied, hlog⟩ := hstands.exists_visits hended
  refine ⟨visits, hlog, fun v hv => ?_, hcopied⟩
  have hplace : v.place ∈ visits.map (·.place) := List.mem_map_of_mem hv
  exact (hcopied.followed.has v hv).asks hplan ((hcopied.followed.mem_iff _).mp hplace)

/-- A node of which two segments are missing, one of them in part. -/
def missingTwo : Draft :=
  draftOf ⟨4, [⟨0, 12, [⟨["a"]⟩]⟩]⟩ (-1)
    [⟨⟨0, 4⟩, .failed 1 ⟨"operation cancelled"⟩⟩, ⟨⟨5, 9⟩, .restored 5⟩,
      ⟨⟨10, 11⟩, .notTransferred 0⟩]

theorem valid_missingTwo : ∀ s ∈ missingTwo.tracked, s.isDue = true → s.Valid := by
  simp only [missingTwo, draftOf, List.forall_mem_cons]
  exact ⟨fun _ => ⟨by decide, by decide⟩, fun _ => ⟨by decide, by decide⟩,
    fun _ => ⟨by decide, by decide⟩, fun s hs => absurd hs List.not_mem_nil⟩

/-- Copies in batches of three. -/
def copiesByThree : Coordinator := { node := "n", settings := { batchSize := 3 } }

/-- Reports addresses twice, or that nobody asked about, leaves others out, and fails at the end of
the first segment. -/
def careless : (q : Query) → q.Reply
  | .present span => if span.first = 3 then .error .cancelled else .ok [1, 1, 9, 10]
  | .transfer _ => TransferReply.written [0, 7, 7, 11]
  | .layout | .trimMark | .propose _ => .error .cancelled

/-- The coordinator that asks the last question: four were answered. -/
def carelessChecking : Coordinator :=
  (answering careless 4 [] (copiesByThree.copy missingTwo)).2.coordinator

/-- Its workload. -/
def carelessWork : Workload :=
  ⟨[⟨⟨⟨0, 4⟩, .failed 1 ⟨"operation cancelled"⟩⟩, ["a"], ⟨some 5, 4, 3⟩, false,
      [(3, ⟨1, 1, some ⟨"wrote 1 of 2 addresses in batch starting at 0"⟩, false⟩)]⟩,
    ⟨⟨⟨10, 11⟩, .notTransferred 0⟩, ["a"], ⟨some 12, 11, 3⟩, false, [(3, ⟨1, 1, none, false⟩)]⟩],
    [], 3, 3, [], false⟩

/-- The draft after the copying. The cause of the failure is that of the first chunk. -/
def carelessDraft : Draft :=
  { missingTwo with
    tracked := [⟨⟨0, 4⟩, .failed 2 ⟨"wrote 1 of 2 addresses in batch starting at 0"⟩⟩,
      ⟨⟨5, 9⟩, .restored 5⟩, ⟨⟨10, 11⟩, .transferred 2⟩]
    report := { missingTwo.report with transferred := 1, failed := 1 } }

theorem resume_carelessWork (c : Coordinator) : ∃ metrics,
    c.resume (.checking missingTwo carelessWork 0 ⟨3, 4⟩) (.error .cancelled) =
      ({ c with metrics } : Coordinator).afterCopying carelessDraft :=
  ⟨_, rfl⟩

/-- Not all of the region is copied, so that nothing is proposed and the list is published as it
is. -/
theorem tracked_afterCopying_careless {c : Coordinator} (h : SameOrders copiesByThree c) :
    (c.afterCopying carelessDraft).coordinator.tracked = carelessDraft.tracked := by
  have hcopied : Layout.copiedSpans carelessDraft.tracked = [⟨5, 9⟩, ⟨10, 11⟩] :=
    List.mergeSort_of_pairwise (by decide +kernel)
  have hnone :
      carelessDraft.layout.claimable carelessDraft.tracked carelessDraft.trimMark = [] := by
    rw [Layout.claimable, hcopied]
    decide +kernel
  have hplan : Listing.plan c.node c.settings.mergeSegments carelessDraft.tracked
      carelessDraft.layout carelessDraft.trimMark = .incomplete := by
    rw [Listing.plan, hnone]
    rfl
  have hgoing : ¬c.stopped = true := by
    rw [h.stopped_eq]
    exact Bool.false_ne_true
  rw [afterCopying, if_neg hgoing, listCopied]
  split
  · rfl
  · cases c.settings.maxProposeAttempts.toNat with
    | zero => rfl
    | succ left =>
      rw [attempt, hplan]
      rfl

/-- Three chunks are visited. The second segment is copied in whole, of the first no chunk is, and
the segment between them stays in its place. -/
theorem copying_is_exact_carelessly : ∃ moments turn visits c,
    CopyRun copiesByThree missingTwo moments turn ∧ turn.coordinator.workload? = none ∧
      exchanges moments = visits.flatMap Visit.exchanges ∧
      (∀ v ∈ visits, (copiesByThree.copyPlan missingTwo).Asks v) ∧
      CopiedBy copiesByThree missingTwo visits turn ∧
      turn = afterCopying c carelessDraft ∧ turn.coordinator.tracked = carelessDraft.tracked := by
  have hplan : (copiesByThree.copyPlan missingTwo).Sound :=
    ⟨fun s hs => valid_missingTwo s (List.mem_filter.mp hs).1 (List.mem_filter.mp hs).2, by decide,
      by decide, by decide⟩
  have halive : ∀ batch, careless (.transfer batch) ≠ TransferReply.crashed := nofun
  have hfour := CopyRun.run_answering hplan rfl halive
    (.begun (c := copiesByThree) (d := missingTwo)) 4
  have hstage : carelessChecking.stage = some (.checking missingTwo carelessWork 0 ⟨3, 4⟩) := by
    decide +kernel
  have hrun := hfour.reply_answer hplan rfl halive hstage rfl
  obtain ⟨metrics, hturn⟩ := resume_carelessWork carelessChecking
  have horders : SameOrders copiesByThree carelessChecking :=
    ⟨⟨by decide +kernel, by decide +kernel⟩, by decide +kernel⟩
  have horders' : SameOrders copiesByThree { carelessChecking with metrics } :=
    horders.trans ⟨⟨rfl, rfl⟩, rfl⟩
  have htracked := tracked_afterCopying_careless horders'
  have hended := workload?_afterCopying { carelessChecking with metrics } carelessDraft
  rw [← hturn] at hended htracked
  obtain ⟨-, -, hexact⟩ := copying_is_exact rfl (by decide) (by decide) valid_missingTwo hrun
  obtain ⟨visits, hlog, hasks, hcopied⟩ := hexact hended
  exact ⟨_, _, visits, _, hrun, hended, hlog, hasks, hcopied, hturn, htracked⟩

end Coordinator

end LogRepair
