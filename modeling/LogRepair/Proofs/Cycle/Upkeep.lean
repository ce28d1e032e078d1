import LogRepair.Proofs.Cycle.Invariant

/-!
# What a coordinator takes down along a run

An `Invariant` speaks of the points of a cycle and of the published list. What is counted, and what
stood there when the cycle began, takes an assertion about the coordinator at each point. Such an
assertion is kept beside an invariant, which may be used wherever it is checked.

* `Coordinator.Moment.Opens`: the coordinator and the point at which the turn of a moment begins.
* `Coordinator.Moment.turn_cases`: a turn that does not leave things as they are begins at such a
  point and goes on step by step.
* `Coordinator.Moment.Passes`: the points on the way.
* `Coordinator.sinceBegin`, `Coordinator.cycleStart`: the moments of the latest cycle, and the
  coordinator before it.
* `Coordinator.Upkeep`: what has to be checked of an assertion.
* `Coordinator.Upkeep.run`, `Coordinator.Upkeep.passes`: it then holds along every run, and at every
  point that a turn passes.
* `Coordinator.Invariant.passes`: so does an invariant by itself.
-/

namespace LogRepair.Coordinator

/-! ## How a turn begins -/

/-- The coordinator that has heard of the happening, before its cycle goes on. -/
def Happening.heeded (c : Coordinator) : Happening → Coordinator
  | .shutdown => { c with stopped := true }
  | _ => c

/-- The coordinator whose cycle has come to the point without a reply. -/
def shifted (c : Coordinator) : Point → Coordinator
  | .over _ _ => { c with metrics := c.metrics.set .segmentsInFlight 0 }
  | _ => c

/-- The coordinator and the point with which the turn of a moment begins, if it changes where the
cycle stands. -/
inductive Moment.Opens : Moment → Coordinator → Point → Prop
  | begun {c : Coordinator} (hidle : c.stage = none) (hgoing : c.stopped = false) :
      Opens ⟨c, .begin⟩ c (.waiting .readingLayout)
  | shift {c : Coordinator} {h : Happening} {s : Stage} {p : Point} (haside : h.IsAside)
      (hs : c.stage = some s) (hshift : Shift s p) : Opens ⟨c, h⟩ ((h.heeded c).shifted p) p
  | entry {c : Coordinator} {s : Stage} {answer : s.query.Reply} {p : Point}
      (hs : c.stage = some s) (hentry : Entry c s answer p)
      (hlost : p.isLost = s.losesWorker answer) : Opens ⟨c, .reply s answer⟩ (c.noted s answer) p

/-- The moment is a cycle that is refused because another runs, or after a shutdown. -/
def Moment.Refuses (m : Moment) : Prop :=
  m.happening = .begin ∧
    (m.before.stage.isSome = true ∧ m.outcome = some (.error .cycleInProgress) ∨
      m.before.stage = none ∧ m.before.stopped = true ∧ m.outcome = some (.error .cancelled))

/-- The moment changes nothing but, perhaps, that a shutdown is taken down. -/
structure Moment.Still (m : Moment) : Prop where
  isAside : m.happening.IsAside
  after_eq : m.after = m.happening.heeded m.before
  outcome : m.outcome = none ∨ m.Refuses

namespace Moment

/-- A shift to a point where the cycle waits. -/
theorem leads_recancel {c : Coordinator} {h : Happening} (haside : h.IsAside) {s : Stage}
    {w : Workload} (hs : c.stage = some s) (hw : s.workload? = some w) (f : Target → Bool) :
    ∃ b p, Opens ⟨c, h⟩ b p ∧
      Leads b p ((h.heeded c).wait (s.withWorkload (w.recancel f))) :=
  ⟨_, _, .shift haside hs (.recancel f hw), leads_wait _ _⟩

theorem turn_cases (m : Moment) (possible : m.happening.Possible m.before) :
    m.Still ∨ ∃ c p, m.Opens c p ∧ Leads c p m.turn := by
  obtain ⟨c, h⟩ := m
  cases h with
  | begin =>
    by_cases hrunning : c.stage.isSome = true
    · have hturn : c.begin = ⟨c, some (.error .cycleInProgress)⟩ := if_pos hrunning
      refine Or.inl ⟨trivial, congrArg Turn.coordinator hturn, Or.inr ⟨rfl, Or.inl ⟨hrunning, ?_⟩⟩⟩
      exact congrArg Turn.outcome hturn
    · have hidle : c.stage = none := Option.not_isSome_iff_eq_none.mp hrunning
      by_cases hstopped : c.stopped = true
      · have hturn : c.begin = ⟨c, some (.error .cancelled)⟩ :=
          (if_neg hrunning).trans (if_pos hstopped)
        refine Or.inl ⟨trivial, congrArg Turn.coordinator hturn,
          Or.inr ⟨rfl, Or.inr ⟨hidle, hstopped, congrArg Turn.outcome hturn⟩⟩⟩
      · have hturn : c.begin = c.wait .readingLayout := (if_neg hrunning).trans (if_neg hstopped)
        refine Or.inr ⟨c, _, .begun hidle (Bool.eq_false_iff.mpr hstopped), ?_⟩
        rw [turn, Happening.turn, hturn]
        exact leads_wait c _
  | reply s answer =>
    obtain ⟨p, hentry, hlost, hleads⟩ := c.leads_resume s answer
    exact Or.inr ⟨_, p, .entry possible hentry hlost, hleads⟩
  | announce layout =>
    rcases c.adaptTo_cases layout with heq | ⟨s, w, f, hs, hw, heq⟩
    · exact Or.inl ⟨trivial, heq, Or.inl rfl⟩
    · refine Or.inr ?_
      rw [turn, Happening.turn, heq]
      exact leads_recancel (h := .announce layout) trivial hs hw f
  | shutdown =>
    rcases c.shutdown_cases with heq | ⟨s, w, f, hs, hw, heq⟩
    · exact Or.inl ⟨trivial, heq, Or.inl rfl⟩
    · refine Or.inr ?_
      rw [turn, Happening.turn, heq]
      exact leads_recancel (h := .shutdown) trivial hs hw f
  | switch k =>
    rcases c.switch_cases k with heq | ⟨d, w, errand, worker, errand', hs, hk, heq⟩
    · exact Or.inl ⟨trivial, congrArg Turn.coordinator heq,
        Or.inl (congrArg Turn.outcome heq)⟩
    · refine Or.inr ⟨_, _, .shift trivial hs (.switch hk), ?_⟩
      rw [turn, Happening.turn, heq]
      exact leads_wait c _
  | hire =>
    rcases c.hire_cases with heq | ⟨d, w, errand, hs, hspare, heq⟩
    · exact Or.inl ⟨trivial, congrArg Turn.coordinator heq,
        Or.inl (congrArg Turn.outcome heq)⟩
    · refine Or.inr ⟨_, _, .shift trivial hs (.hire hspare), ?_⟩
      rw [turn, Happening.turn, heq]
      exact leads_nextChunk c d _
  | abandon =>
    rcases c.abandon_cases with heq | ⟨s, w, hs, hw, hcrashed, heq⟩
    · exact Or.inl ⟨trivial, congrArg Turn.coordinator heq,
        Or.inl (congrArg Turn.outcome heq)⟩
    · refine Or.inr ⟨_, _, .shift trivial hs (.abandon hw hcrashed), ?_⟩
      rw [turn, Happening.turn, heq]
      exact leads_finish _ _ _

/-- On its way from where it begins to where it ends the turn of the moment passes the point, and
the coordinator is this one there. -/
def Passes (m : Moment) (c : Coordinator) (p : Point) : Prop :=
  ∃ b q, m.Opens b q ∧ Relation.ReflTransGen Walk (b, q) (c, p) ∧ Leads c p m.turn

/-- A turn that does not leave things as they are passes the point at which it ends. -/
theorem exists_passes_end {m : Moment} {b : Coordinator} {q : Point} (hopens : m.Opens b q)
    (hleads : Leads b q m.turn) : ∃ c p, m.Passes c p ∧ p.turn? c = some m.turn := by
  obtain ⟨c, p, hwalks, hturn⟩ := hleads
  exact ⟨c, p, ⟨b, q, hopens, hwalks, c, p, .refl, hturn⟩, hturn⟩

end Moment

/-! ## The latest cycle -/

namespace Moment

/-- A cycle begins. -/
def begins (m : Moment) : Bool :=
  match m.happening with
  | .begin => m.before.stage.isNone && !m.before.stopped
  | _ => false

theorem begins_begin {c : Coordinator} (hidle : c.stage = none) (hgoing : c.stopped = false) :
    begins ⟨c, .begin⟩ = true := by
  rw [begins, hidle, hgoing]
  rfl

/-- While a cycle runs none begins. -/
theorem begins_of_stage {c : Coordinator} {s : Stage} (hs : c.stage = some s) (h : Happening) :
    begins ⟨c, h⟩ = false := by
  cases h with
  | begin =>
    rw [begins, hs]
    rfl
  | _ => rfl

end Moment

/-- The moments of the latest cycle. -/
def sinceBegin : List Moment → List Moment
  | [] => []
  | m :: earlier => if m.begins then [m] else m :: sinceBegin earlier

theorem sinceBegin_subset (moments : List Moment) : sinceBegin moments ⊆ moments := by
  induction moments with
  | nil => exact List.Subset.refl _
  | cons m earlier ih =>
    unfold sinceBegin
    split
    · exact List.cons_subset_cons m (List.nil_subset earlier)
    · exact List.cons_subset_cons m ih

/-- The coordinator before the latest cycle. -/
def cycleStart : List Moment → Option Coordinator
  | [] => none
  | m :: earlier => if m.begins then some m.before else cycleStart earlier

/-- A worker died in the latest cycle. -/
def WorkerLost (moments : List Moment) : Prop := ∃ m ∈ sinceBegin moments, m.LosesWorker

section

variable {moments : List Moment} {c : Coordinator} {s : Stage}

theorem sinceBegin_begin (hidle : c.stage = none) (hgoing : c.stopped = false) :
    sinceBegin (⟨c, .begin⟩ :: moments) = [⟨c, .begin⟩] :=
  if_pos (Moment.begins_begin hidle hgoing)

theorem cycleStart_begin (hidle : c.stage = none) (hgoing : c.stopped = false) :
    cycleStart (⟨c, .begin⟩ :: moments) = some c :=
  if_pos (Moment.begins_begin hidle hgoing)

theorem sinceBegin_cons (hs : c.stage = some s) (h : Happening) :
    sinceBegin (⟨c, h⟩ :: moments) = ⟨c, h⟩ :: sinceBegin moments := by
  rw [sinceBegin, Moment.begins_of_stage hs, if_neg Bool.false_ne_true]

theorem cycleStart_cons (hs : c.stage = some s) (h : Happening) :
    cycleStart (⟨c, h⟩ :: moments) = cycleStart moments := by
  rw [cycleStart, Moment.begins_of_stage hs, if_neg Bool.false_ne_true]

/-- What happened in a cycle that has just begun happened as it began. -/
theorem exists_sinceBegin_begin (hidle : c.stage = none) (hgoing : c.stopped = false)
    (P : Moment → Prop) :
    (∃ m ∈ sinceBegin (⟨c, .begin⟩ :: moments), P m) ↔ P ⟨c, .begin⟩ := by
  simp only [sinceBegin_begin hidle hgoing, List.mem_singleton, exists_eq_left]

/-- What happened in a cycle that still runs happened just now or before. -/
theorem exists_sinceBegin_cons (hs : c.stage = some s) (h : Happening) (P : Moment → Prop) :
    (∃ m ∈ sinceBegin (⟨c, h⟩ :: moments), P m) ↔
      P ⟨c, h⟩ ∨ ∃ m ∈ sinceBegin moments, P m := by
  simp only [sinceBegin_cons hs, List.mem_cons, exists_eq_or_imp]

theorem not_workerLost_begin (hidle : c.stage = none) (hgoing : c.stopped = false) :
    ¬WorkerLost (⟨c, .begin⟩ :: moments) := by
  rw [WorkerLost, exists_sinceBegin_begin hidle hgoing]
  exact id

theorem workerLost_cons (moments : List Moment) (hs : c.stage = some s) (h : Happening) :
    WorkerLost (⟨c, h⟩ :: moments) ↔ Moment.LosesWorker ⟨c, h⟩ ∨ WorkerLost moments :=
  exists_sinceBegin_cons hs h _

theorem workerLost_aside (moments : List Moment) (hs : c.stage = some s) {h : Happening}
    (haside : h.IsAside) :
    WorkerLost (⟨c, h⟩ :: moments) ↔ WorkerLost moments := by
  have hkept : ¬Moment.LosesWorker ⟨c, h⟩ := by
    cases h with
    | reply => exact haside.elim
    | _ => exact id
  rw [workerLost_cons moments hs, or_iff_right hkept]

end

/-! ## Assertions beside an invariant -/

/-- What has to be checked of an assertion about the coordinator at the points of a cycle, and of
one about the coordinator between cycles, beside the invariant of `base` and `onList`. Where the
cycle waits is left open: it is the point that says so. -/
structure Upkeep (start : Coordinator) (base : List Moment → Point → Prop)
    (onList : List Moment → List TrackedSegment → Prop)
    (atPoint : List Moment → Coordinator → Point → Prop)
    (idle : List Moment → Coordinator → Prop) : Prop where
  at_start : idle [] start
  rest : ∀ {moments c h}, h.IsAside → idle moments c → idle (⟨c, h⟩ :: moments) (h.heeded c)
  begun : ∀ {moments c}, c.stage = none → c.stopped = false → idle moments c →
    atPoint (⟨c, .begin⟩ :: moments) c (.waiting .readingLayout)
  waiting : ∀ {moments c s}, atPoint moments c (.waiting s) →
    atPoint moments { c with stage := some s } (.waiting s)
  aside : ∀ {moments c h s}, h.IsAside → c.stage = some s → atPoint moments c (.waiting s) →
    atPoint (⟨c, h⟩ :: moments) (h.heeded c) (.waiting s)
  shift : ∀ {moments c s p}, base moments (.waiting s) → atPoint moments c (.waiting s) →
    Shift s p → atPoint moments (c.shifted p) p
  entry : ∀ {moments c s answer p}, SameTask start c → (Happening.reply s answer).Lawful →
    onList moments c.tracked → base moments (.waiting s) →
    base (⟨c, .reply s answer⟩ :: moments) p → c.stage = some s →
    atPoint moments c (.waiting s) → Entry c s answer p → p.isLost = s.losesWorker answer →
    atPoint (⟨c, .reply s answer⟩ :: moments) (c.noted s answer) p
  step : ∀ {moments c p q}, SameTask start c → base moments p → base moments q →
    atPoint moments c p → Step c p q → atPoint moments (c.recorded p q) q
  idle_of_over : ∀ {moments c published outcome}, base moments (.over published outcome) →
    atPoint moments c (.over published outcome) → idle moments { c with stage := none }

/-- What is asserted of the coordinator that a run has led to. -/
structure Kept (atPoint : List Moment → Coordinator → Point → Prop)
    (idle : List Moment → Coordinator → Prop) (moments : List Moment) (c : Coordinator) :
    Prop where
  between : c.stage = none → idle moments c
  within : ∀ s, c.stage = some s → atPoint moments c (.waiting s)

theorem sameTask_heeded (c : Coordinator) (h : Happening) : SameTask c (h.heeded c) := by
  cases h <;> exact ⟨rfl, rfl⟩

theorem stage_heeded (c : Coordinator) (h : Happening) : (h.heeded c).stage = c.stage := by
  cases h <;> rfl

theorem sameOrders_shifted (c : Coordinator) (p : Point) : SameOrders c (c.shifted p) := by
  cases p <;> exact ⟨⟨rfl, rfl⟩, rfl⟩

theorem Moment.Opens.sameTask {m : Moment} {c : Coordinator} {p : Point} (h : m.Opens c p) :
    SameTask m.before c := by
  cases h with
  | begun => exact .refl _
  | shift => exact (sameTask_heeded _ _).trans (sameOrders_shifted _ _).toSameTask
  | entry => exact (sameOrders_noted _ _ _).toSameTask

/-- An invariant holds of the point with which a turn begins. -/
theorem Invariant.opens {start : Coordinator} {base : List Moment → Point → Prop}
    {onList : List Moment → List TrackedSegment → Prop} (inv : Invariant start base onList)
    {moments : List Moment} {m : Moment} {c : Coordinator} {p : Point}
    (task : SameTask start m.before) (hlawful : m.happening.Lawful)
    (hheld : Invariant.Holds base onList moments m.before) (h : m.Opens c p) :
    base (m :: moments) p := by
  cases h with
  | begun hidle hgoing => exact inv.begun hidle hheld.1
  | shift haside hs hshift => exact inv.shift (inv.aside haside (hheld.2 _ hs)) hshift
  | entry hs hentry hlost => exact inv.entry task hlawful hheld.1 (hheld.2 _ hs) hentry

namespace Upkeep

variable {start : Coordinator} {base : List Moment → Point → Prop}
  {onList : List Moment → List TrackedSegment → Prop}
  {atPoint : List Moment → Coordinator → Point → Prop}
  {idle : List Moment → Coordinator → Prop} {moments : List Moment} {m : Moment}

/-- An assertion is kept beside every stronger invariant. -/
theorem of_base (up : Upkeep start base onList atPoint idle)
    {base' : List Moment → Point → Prop} {onList' : List Moment → List TrackedSegment → Prop}
    (hbase : ∀ {moments p}, base' moments p → base moments p)
    (hlist : ∀ {moments tracked}, onList' moments tracked → onList moments tracked) :
    Upkeep start base' onList' atPoint idle where
  at_start := up.at_start
  rest := up.rest
  begun := up.begun
  waiting := up.waiting
  aside := up.aside
  shift hb := up.shift (hbase hb)
  entry task hlawful hl hb hb' := up.entry task hlawful (hlist hl) (hbase hb) (hbase hb')
  step task hb hb' := up.step task (hbase hb) (hbase hb')
  idle_of_over hb := up.idle_of_over (hbase hb)

/-- The assertion holds of the coordinator and the point with which a turn begins. -/
theorem opens (up : Upkeep start base onList atPoint idle) (inv : Invariant start base onList)
    (task : SameTask start m.before) (hlawful : m.happening.Lawful)
    (hheld : Invariant.Holds base onList moments m.before)
    (hkept : Kept atPoint idle moments m.before) {c : Coordinator} {p : Point}
    (h : m.Opens c p) : atPoint (m :: moments) c p := by
  have hbase := inv.opens task hlawful hheld h
  cases h with
  | begun hidle hgoing => exact up.begun hidle hgoing (hkept.between hidle)
  | shift haside hs hshift =>
    exact up.shift (inv.aside haside (hheld.2 _ hs)) (up.aside haside hs (hkept.within _ hs)) hshift
  | entry hs hentry hlost =>
    exact up.entry task hlawful hheld.1 (hheld.2 _ hs) hbase hs (hkept.within _ hs) hentry hlost

/-- The steps of a turn keep the invariant and the assertion. -/
theorem walks (up : Upkeep start base onList atPoint idle) (inv : Invariant start base onList)
    {b c : Coordinator} {q p : Point} (task : SameTask start b) (hbase : base moments q)
    (hq : atPoint moments b q) (h : Relation.ReflTransGen Walk (b, q) (c, p)) :
    base moments p ∧ atPoint moments c p :=
  (holds_of_walks h (P := fun c p => base moments p ∧ atPoint moments c p) ⟨hbase, hq⟩
    fun horders hp hstep =>
      have task' := task.trans horders.toSameTask
      have hnext := inv.step task' hp.1 hstep
      ⟨hnext, up.step task' hp.1 hnext hp.2 hstep⟩).2

/-- After a turn that ends at a point of which the assertion holds it holds of the coordinator. -/
theorem of_turn (up : Upkeep start base onList atPoint idle) {c : Coordinator} {p : Point}
    {t : Turn} (hbase : base moments p) (hp : atPoint moments c p) (h : p.turn? c = some t) :
    Kept atPoint idle moments t.coordinator := by
  rcases Point.of_turn? h with ⟨s, rfl, rfl⟩ | ⟨published, outcome, rfl, rfl⟩
  · refine ⟨fun hidle => ?_, fun s' hs' => ?_⟩
    · cases hidle
    · cases hs'
      exact up.waiting hp
  · refine ⟨fun _ => up.idle_of_over hbase hp, fun s hs => ?_⟩
    cases hs

theorem of_still (up : Upkeep start base onList atPoint idle)
    (hkept : Kept atPoint idle moments m.before) (h : m.Still) :
    Kept atPoint idle (m :: moments) m.after := by
  obtain ⟨c, happening⟩ := m
  rw [h.after_eq]
  refine ⟨fun hidle => ?_, fun s hs => ?_⟩
  · rw [stage_heeded] at hidle
    exact up.rest h.isAside (hkept.between hidle)
  · rw [stage_heeded] at hs
    exact up.aside h.isAside hs (hkept.within s hs)

/-- Along every run the assertion holds. -/
theorem run (up : Upkeep start base onList atPoint idle) (inv : Invariant start base onList)
    (hidle : start.stage = none) {c : Coordinator} (hrun : Run start moments c)
    (hlawful : Coordinator.Lawful moments) : Kept atPoint idle moments c := by
  induction hrun with
  | nil =>
    refine ⟨fun _ => up.at_start, fun s hs => ?_⟩
    rw [hidle] at hs
    cases hs
  | @cons moments c hrun happening possible ih =>
    have hbefore : Coordinator.Lawful moments := fun m hm => hlawful m (List.mem_cons_of_mem _ hm)
    have hkept := ih hbefore
    rcases Moment.turn_cases ⟨c, happening⟩ possible with hstill | ⟨b, q, hopens, hleads⟩
    · exact up.of_still hkept hstill
    · have hheld := inv.run hrun hbefore
      have hnow := hlawful _ List.mem_cons_self
      have hq := inv.opens hrun.sameTask hnow hheld hopens
      obtain ⟨c', p, hwalks, hturn⟩ := hleads
      obtain ⟨hbase, hp⟩ := up.walks inv (hrun.sameTask.trans hopens.sameTask) hq
        (up.opens inv hrun.sameTask hnow hheld hkept hopens) hwalks
      exact up.of_turn hbase hp hturn

/-- The invariant and the assertion hold at every point that a turn of a run passes. -/
theorem passes (up : Upkeep start base onList atPoint idle) (inv : Invariant start base onList)
    (hidle : start.stage = none) {c c' : Coordinator} (hrun : Run start (m :: moments) c)
    (hlawful : Coordinator.Lawful (m :: moments)) {p : Point} (h : m.Passes c' p) :
    base (m :: moments) p ∧ atPoint (m :: moments) c' p := by
  obtain ⟨b, q, hopens, hwalks, -⟩ := h
  cases hrun with
  | cons hrun happening possible =>
    have hbefore : Coordinator.Lawful moments := fun m hm => hlawful m (List.mem_cons_of_mem _ hm)
    have hnow := hlawful _ List.mem_cons_self
    have hheld := inv.run hrun hbefore
    have hkept := up.run inv hidle hrun hbefore
    exact up.walks inv (hrun.sameTask.trans hopens.sameTask)
      (inv.opens hrun.sameTask hnow hheld hopens)
      (up.opens inv hrun.sameTask hnow hheld hkept hopens) hwalks

end Upkeep

/-- An invariant holds at every point that a turn of a run passes. -/
theorem Invariant.passes {start : Coordinator} {base : List Moment → Point → Prop}
    {onList : List Moment → List TrackedSegment → Prop} (inv : Invariant start base onList)
    (hidle : start.stage = none) {moments : List Moment} {m : Moment} {c c' : Coordinator}
    (hrun : Run start (m :: moments) c) (hlawful : Coordinator.Lawful (m :: moments)) {p : Point}
    (h : m.Passes c' p) : base (m :: moments) p := by
  have up : Upkeep start base onList (fun _ _ _ => True) fun _ _ => True := by
    constructor <;> intros <;> trivial
  exact (up.passes inv hidle hrun hlawful h).1

end LogRepair.Coordinator
