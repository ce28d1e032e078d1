import LogRepair.Proofs.Cycle.Upkeep

/-!
# What a cycle leaves as it was

Until a cycle begins to list what it copied, it changes nothing that was counted of cycles and of
proposals, and nothing that is published. A shutdown in that time ends it there.

* `Coordinator.Untouched`: what a failed cycle leaves as it was.
* `Coordinator.Intact`: what is known at each point of what stood when the cycle began.
* `Coordinator.Stopping`: what is known at each point after a shutdown.
-/

namespace LogRepair

/-- The cycle has not begun to list what it copied. -/
def Stage.BeforeListing : Stage → Prop
  | .readingLayout | .readingTrimMark _ | .checking _ _ _ _ | .copying _ _ _ _ _ => True
  | .proposing _ _ _ _ _ | .refreshing _ _ => False

namespace Coordinator

/-- The cycle has not begun to list what it copied, or has failed. -/
def Point.BeforeListing : Point → Prop
  | .drafted _ | .working _ _ | .lost _ _ | .passed _ _ | .copied _ | .over _ (.error _) => True
  | .unlisted _ | .listing _ _ _ | .settled _ _ _ | .through _ | .over _ (.ok _) => False
  | .waiting s => s.BeforeListing

theorem beforeListing_stage (errand : Errand) (d : Draft) (w : Workload) :
    (errand.stage d w).BeforeListing := by
  cases errand <;> exact trivial

/-! ## What stays as it was -/

/-- As many cycles are done, as many proposals were made, and as many segments restored. -/
structure SameBooks (b c : Coordinator) : Prop where
  node_eq : c.node = b.node
  cycles : c.metrics.cycles = b.metrics.cycles
  proposalsCommitted : c.metrics.proposalsCommitted = b.metrics.proposalsCommitted
  proposalsRejected : c.metrics.proposalsRejected = b.metrics.proposalsRejected
  segmentsRestored : c.metrics.segmentsRestored = b.metrics.segmentsRestored

/-- Besides, the published list is the same. -/
structure Untouched (b c : Coordinator) : Prop extends SameBooks b c where
  tracked_eq : c.tracked = b.tracked
  segmentsFailed : c.metrics.segmentsFailed = b.metrics.segmentsFailed

section

variable {a b c : Coordinator}

theorem SameBooks.trans (h : SameBooks a b) (h' : SameBooks b c) : SameBooks a c :=
  ⟨h'.node_eq.trans h.node_eq, h'.cycles.trans h.cycles,
    h'.proposalsCommitted.trans h.proposalsCommitted,
    h'.proposalsRejected.trans h.proposalsRejected, h'.segmentsRestored.trans h.segmentsRestored⟩

theorem Untouched.refl (c : Coordinator) : Untouched c c :=
  ⟨⟨rfl, rfl, rfl, rfl, rfl⟩, rfl, rfl⟩

theorem Untouched.trans (h : Untouched a b) (h' : Untouched b c) : Untouched a c :=
  ⟨h.toSameBooks.trans h'.toSameBooks, h'.tracked_eq.trans h.tracked_eq,
    h'.segmentsFailed.trans h.segmentsFailed⟩

theorem Untouched.failures_eq (h : Untouched b c) : c.failures = b.failures := by
  rw [failures, failures, h.tracked_eq]

theorem untouched_inFlight (c : Coordinator) (n : Int64) :
    Untouched c { c with metrics := c.metrics.set .segmentsInFlight n } :=
  ⟨⟨rfl, rfl, rfl, rfl, rfl⟩, rfl, rfl⟩

theorem untouched_count (c : Coordinator) (o : ChunkOutcome) :
    Untouched c { c with metrics := o.count c.metrics } := by
  cases o with
  | processed present result =>
    simp only [ChunkOutcome.count, Metrics.countBatch]
    cases result.isSuccess <;> exact ⟨⟨rfl, rfl, rfl, rfl, rfl⟩, rfl, rfl⟩
  | held | dropped => exact ⟨⟨rfl, rfl, rfl, rfl, rfl⟩, rfl, rfl⟩

/-- What a reply counts at once, before the listing, are batches and addresses. -/
theorem untouched_noted (c : Coordinator) {s : Stage} (hs : s.BeforeListing)
    (answer : s.query.Reply) : Untouched c (c.noted s answer) := by
  cases s with
  | readingLayout => cases answer <;> exact .refl c
  | readingTrimMark => cases answer <;> exact ⟨⟨rfl, rfl, rfl, rfl, rfl⟩, rfl, rfl⟩
  | checking d w i span =>
    simp only [noted]
    split
    · exact untouched_count c _
    · exact .refl c
  | copying d w i present batch =>
    simp only [noted]
    split
    · exact untouched_count c _
    · exact .refl c
  | proposing | refreshing => exact hs.elim

theorem untouched_heeded (c : Coordinator) (h : Happening) : Untouched c (h.heeded c) := by
  cases h <;> exact ⟨⟨rfl, rfl, rfl, rfl, rfl⟩, rfl, rfl⟩

end

/-! ## Until the listing begins -/

/-- The latest cycle has not begun to list anything. -/
def Unlisted (moments : List Moment) : Prop :=
  ∀ m ∈ sinceBegin moments, ∀ s, m.before.stage = some s → s.BeforeListing

theorem Unlisted.cons {moments : List Moment} {c : Coordinator} {s : Stage}
    (h : Unlisted moments) (hs : c.stage = some s) (hbefore : s.BeforeListing)
    (happening : Happening) : Unlisted (⟨c, happening⟩ :: moments) := by
  rw [Unlisted, sinceBegin_cons hs]
  refine List.forall_mem_cons.mpr ⟨fun s' hs' => ?_, h⟩
  have heq : s = s' := Option.some.inj (hs.symm.trans hs')
  exact heq ▸ hbefore

theorem unlisted_begin {moments : List Moment} {c : Coordinator} (hidle : c.stage = none)
    (hgoing : c.stopped = false) : Unlisted (⟨c, .begin⟩ :: moments) := by
  intro m hm s hs
  rw [sinceBegin_begin hidle hgoing, List.mem_singleton] at hm
  rw [hm, hidle] at hs
  cases hs

/-- Until the cycle begins to list what it copied, all is as when it began, but for a list that it
publishes as it is cancelled. -/
def Intact (moments : List Moment) (c : Coordinator) (p : Point) : Prop :=
  p.BeforeListing → ∃ b, cycleStart moments = some b ∧ Unlisted moments ∧
    match p with
    | .over (some tracked) _ => SameBooks b c ∧ c.tracked = tracked
    | _ => Untouched b c

section

variable {moments : List Moment} {c : Coordinator}

theorem Intact.step {p q : Point} (hp : Intact moments c p) (h : Step c p q) :
    Intact moments (c.recorded p q) q := by
  intro hq
  cases h with
  | skip | take | retire | replace | miss | turn => exact hp trivial
  | copy | crash | refuse | close =>
    obtain ⟨b, hb, hunlisted, hsame⟩ := hp trivial
    exact ⟨b, hb, hunlisted, hsame.trans (untouched_inFlight c _)⟩
  | stop =>
    obtain ⟨b, hb, hunlisted, hsame⟩ := hp trivial
    exact ⟨b, hb, hunlisted, hsame.toSameBooks.trans ⟨rfl, rfl, rfl, rfl, rfl⟩, rfl⟩
  | goOn | rest | list | exhaust | defer | reflect | propose | skipMarks | mark | conclude =>
    exact hq.elim

theorem Intact.entry {s : Stage} {answer : s.query.Reply} {p : Point} (hs : c.stage = some s)
    (hp : Intact moments c (.waiting s)) (h : Entry c s answer p) :
    Intact (⟨c, .reply s answer⟩ :: moments) (c.noted s answer) p := by
  intro hq
  have hgone : s.BeforeListing → ∃ b, cycleStart (⟨c, .reply s answer⟩ :: moments) = some b ∧
      Unlisted (⟨c, .reply s answer⟩ :: moments) ∧ Untouched b (c.noted s answer) := by
    intro hbefore
    obtain ⟨b, hb, hunlisted, hsame⟩ := hp hbefore
    exact ⟨b, (cycleStart_cons hs _).trans hb, hunlisted.cons hs hbefore _,
      hsame.trans (untouched_noted c hbefore answer)⟩
  cases h with
  | accepted | stale | refused | refreshed | unrefreshed => exact hq.elim
  | _ => exact hgone trivial

theorem Intact.shift {s : Stage} {p : Point} (hp : Intact moments c (.waiting s))
    (h : Shift s p) : Intact moments (c.shifted p) p := by
  intro hq
  cases h with
  | @recancel s w f hs =>
    cases s with
    | checking | copying => exact hp trivial
    | _ => cases hs
  | switch => exact hp (beforeListing_stage _ _ _)
  | hire => exact hp (beforeListing_stage _ _ _)
  | @abandon s w hs =>
    have hbefore : s.BeforeListing := by
      cases s with
      | checking | copying => trivial
      | _ => cases hs
    obtain ⟨b, hb, hunlisted, hsame⟩ := hp hbefore
    exact ⟨b, hb, hunlisted, hsame.trans (untouched_inFlight c 0)⟩

theorem Intact.aside {h : Happening} {s : Stage} (hs : c.stage = some s)
    (hp : Intact moments c (.waiting s)) :
    Intact (⟨c, h⟩ :: moments) (h.heeded c) (.waiting s) := by
  intro hq
  obtain ⟨b, hb, hunlisted, hsame⟩ := hp hq
  exact ⟨b, (cycleStart_cons hs h).trans hb, hunlisted.cons hs hq h,
    hsame.trans (untouched_heeded c h)⟩

end

theorem upkeep_intact (start : Coordinator) (base : List Moment → Point → Prop)
    (onList : List Moment → List TrackedSegment → Prop) :
    Upkeep start base onList Intact fun _ _ => True where
  at_start := trivial
  rest _ _ := trivial
  begun hidle hgoing _ _ :=
    ⟨_, cycleStart_begin hidle hgoing, unlisted_begin hidle hgoing, .refl _⟩
  waiting hp hq := by
    obtain ⟨b, hb, hunlisted, hsame⟩ := hp hq
    exact ⟨b, hb, hunlisted, hsame.trans ⟨⟨rfl, rfl, rfl, rfl, rfl⟩, rfl, rfl⟩⟩
  aside _ hs hp := hp.aside hs
  shift _ hp h := hp.shift h
  entry _ _ _ _ _ hs hp h _ := hp.entry hs h
  step _ _ _ hp h := hp.step h
  idle_of_over _ _ := trivial

/-! ## Shutdown before the listing -/

/-- Shutdown is signalled before the running cycle begins to list what it copied. -/
def Moment.StopsEarly (m : Moment) : Prop :=
  m.happening = .shutdown ∧ ∀ s, m.before.stage = some s → s.BeforeListing

/-- Shutdown was signalled in the latest cycle before it began to list what it copied. -/
def StoppedEarly (moments : List Moment) : Prop := ∃ m ∈ sinceBegin moments, m.StopsEarly

/-- Such a shutdown is known, and the cycle does not go on to the listing. -/
def Stopping (moments : List Moment) (c : Coordinator) (p : Point) : Prop :=
  StoppedEarly moments → c.stopped = true ∧ p.BeforeListing

section

variable {moments : List Moment} {c : Coordinator}

theorem stoppedEarly_cons {s : Stage} (hs : c.stage = some s) (h : Happening) :
    StoppedEarly (⟨c, h⟩ :: moments) ↔ Moment.StopsEarly ⟨c, h⟩ ∨ StoppedEarly moments :=
  exists_sinceBegin_cons hs h _

theorem not_stoppedEarly_begin (hidle : c.stage = none) (hgoing : c.stopped = false) :
    ¬StoppedEarly (⟨c, .begin⟩ :: moments) := by
  rw [StoppedEarly, exists_sinceBegin_begin hidle hgoing]
  rintro ⟨hshutdown, -⟩
  cases hshutdown

theorem Stopping.step {p q : Point} (hp : Stopping moments c p) (h : Step c p q) :
    Stopping moments (c.recorded p q) q := by
  intro hearly
  obtain ⟨hstopped, hbefore⟩ := hp hearly
  refine ⟨(sameOrders_recorded c p q).stopped_eq.trans hstopped, ?_⟩
  cases h with
  | skip | copy | take | retire | replace | miss | crash | refuse | close | stop => trivial
  | turn => exact beforeListing_stage _ _ _
  | goOn h =>
    rw [hstopped] at h
    cases h
  | rest | list | exhaust | defer | reflect | propose | skipMarks | mark | conclude =>
    exact hbefore.elim

theorem Stopping.entry {s : Stage} {answer : s.query.Reply} {p : Point} (hs : c.stage = some s)
    (hp : Stopping moments c (.waiting s)) (h : Entry c s answer p) :
    Stopping (⟨c, .reply s answer⟩ :: moments) (c.noted s answer) p := by
  intro hearly
  have hbefore := (stoppedEarly_cons hs _).mp hearly
  obtain ⟨hstopped, hlisting⟩ := hp (hbefore.resolve_left fun hnow => by cases hnow.1)
  refine ⟨(sameOrders_noted c s answer).stopped_eq.trans hstopped, ?_⟩
  cases h with
  | accepted | stale | refused | refreshed | unrefreshed => exact hlisting.elim
  | _ => trivial

theorem Stopping.shift {s : Stage} {p : Point} (hp : Stopping moments c (.waiting s))
    (h : Shift s p) : Stopping moments (c.shifted p) p := by
  intro hearly
  obtain ⟨hstopped, hbefore⟩ := hp hearly
  refine ⟨(sameOrders_shifted c p).stopped_eq.trans hstopped, ?_⟩
  cases h with
  | @recancel s w f hs =>
    cases s with
    | checking | copying => trivial
    | _ => cases hs
  | switch => exact beforeListing_stage _ _ _
  | hire | abandon => trivial

theorem Stopping.aside {h : Happening} {s : Stage} (hs : c.stage = some s)
    (hp : Stopping moments c (.waiting s)) :
    Stopping (⟨c, h⟩ :: moments) (h.heeded c) (.waiting s) := by
  intro hearly
  rcases (stoppedEarly_cons hs h).mp hearly with ⟨hshutdown, hbefore⟩ | hearly
  · obtain rfl : h = .shutdown := hshutdown
    exact ⟨rfl, hbefore s hs⟩
  · obtain ⟨hstopped, hbefore⟩ := hp hearly
    refine ⟨?_, hbefore⟩
    cases h with
    | shutdown => rfl
    | _ => exact hstopped

end

theorem upkeep_stopping (start : Coordinator) (base : List Moment → Point → Prop)
    (onList : List Moment → List TrackedSegment → Prop) :
    Upkeep start base onList Stopping fun _ _ => True where
  at_start := trivial
  rest _ _ := trivial
  begun hidle hgoing _ hearly := absurd hearly (not_stoppedEarly_begin hidle hgoing)
  waiting hp := hp
  aside _ hs hp := hp.aside hs
  shift _ hp h := hp.shift h
  entry _ _ _ _ _ hs hp h _ := hp.entry hs h
  step _ _ _ hp h := hp.step h
  idle_of_over _ _ := trivial

end Coordinator

end LogRepair
