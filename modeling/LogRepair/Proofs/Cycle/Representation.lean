import LogRepair.Proofs.Cycle.Chunks
import LogRepair.Proofs.Cycle.Drafts
import LogRepair.Proofs.Cycle.Invariant

/-!
# What the published list always is

* `Coordinator.Represented`: what is known at each point of a cycle of the list that the cycle
  works on.
* `Coordinator.tracked_representation`: along every run the published list is in ascending order,
  shares no address and is valid; after each cycle that publishes it tracks the layout which that
  cycle read.
-/

namespace LogRepair.Coordinator

open TrackedSegment

/-! ## What was read, and what is published -/

/-- The layout that was read last at the beginning of a cycle. -/
def layoutRead (moments : List Moment) : Option Layout :=
  moments.findSome? fun m =>
    match m.happening with
    | .reply .readingLayout (.ok layout) => some layout
    | _ => none

/-- The trim mark that was read last. -/
def trimMarkRead (moments : List Moment) : Option Address :=
  moments.findSome? fun m =>
    match m.happening with
    | .reply (.readingTrimMark _) (.ok trimMark) => some trimMark
    | _ => none

/-- The moment brings a reply at which the copying may be over. -/
def Moment.MayEndCopying (m : Moment) : Prop :=
  match m.happening with
  | .reply (.readingTrimMark _) (.ok _) => True
  | .reply (.checking _ _ _ _) _ => True
  | .reply (.copying _ _ _ _ _) _ => True
  | _ => False

/-- The cycle ends with a report, or was cancelled once its copying was over. -/
def Moment.Publishes (m : Moment) : Prop :=
  (∃ report, m.outcome = some (.ok report)) ∨
    m.outcome = some (.error .cancelled) ∧ m.MayEndCopying

theorem reads_of_isAside {m : Moment} (h : m.happening.IsAside) (moments : List Moment) :
    layoutRead (m :: moments) = layoutRead moments ∧
      trimMarkRead (m :: moments) = trimMarkRead moments := by
  obtain ⟨before, happening⟩ := m
  cases happening with
  | reply s answer => exact absurd h id
  | _ => exact ⟨rfl, rfl⟩

theorem not_mayEndCopying_of_isAside {m : Moment} (h : m.happening.IsAside) :
    ¬m.MayEndCopying := by
  obtain ⟨before, happening⟩ := m
  cases happening with
  | reply s answer => exact absurd h id
  | _ => exact id

/-! ## The points of a cycle -/

/-- The list of the draft tracks the layout that the cycle read, above the trim mark it read. -/
structure Faithful (moments : List Moment) (d : Draft) : Prop where
  layout_eq : layoutRead moments = some d.layout
  trimMark_eq : trimMarkRead moments = some d.trimMark
  valid_layout : d.layout.Valid
  tracks : Tracks d.layout d.trimMark d.tracked

/-- What is known at each point. -/
def Represented (moments : List Moment) : Point → Prop
  | .drafted d | .copied d | .unlisted d | .listing d _ _ | .settled d _ _ | .through d =>
    Faithful moments d
  | .working d w | .lost d w | .passed d w => Faithful moments d ∧ Serves d w
  | .waiting .readingLayout => True
  | .waiting (.readingTrimMark layout) => layoutRead moments = some layout ∧ layout.Valid
  | .waiting (.checking d w _ _) | .waiting (.copying d w _ _ _) => Faithful moments d ∧ Serves d w
  | .waiting (.proposing d _ _ _ _) | .waiting (.refreshing d _) => Faithful moments d
  | .over (some tracked) _ =>
    ∃ layout trimMark, layoutRead moments = some layout ∧ trimMarkRead moments = some trimMark ∧
      Tracks layout trimMark tracked
  | .over none outcome =>
    (∀ report, outcome ≠ .ok report) ∧
      (outcome = .error .cancelled → ∀ m ∈ moments.head?, ¬m.MayEndCopying)

/-- What is known of the published list. -/
structure Tidy (tracked : List TrackedSegment) : Prop where
  ascending : Ascending tracked
  valid : ∀ s ∈ tracked, s.Valid

theorem tidy_nil : Tidy [] := ⟨.nil, fun _ hs => absurd hs List.not_mem_nil⟩

/-- A draft is what was published, reconciled with what the layout requires. -/
theorem Tidy.of_draft {c : Coordinator} {layout : Layout} {trimMark : Address} {d : Draft}
    (hlist : Tidy c.tracked) (hl : layout.Valid) (h : c.draft layout trimMark = .ok d) :
    ∃ required, layout.requirement c.node trimMark = .ok required ∧
      Reconcilable c.tracked required ∧
      d = draftOf layout trimMark
        ((reconciled c.tracked required).filter fun s => trimMark < s.last) := by
  have hrequired := Layout.requirement_eq hl c.node trimMark
  rw [draft_eq hl hlist.ascending hlist.valid hrequired] at h
  cases h
  exact ⟨_, hrequired, reconcilable hl hlist.ascending hlist.valid hrequired, rfl⟩

theorem Faithful.over {moments : List Moment} {d : Draft} (h : Faithful moments d)
    (outcome : Outcome) : Represented moments (.over (some d.tracked) outcome) :=
  ⟨d.layout, d.trimMark, h.layout_eq, h.trimMark_eq, h.tracks⟩

theorem Faithful.of_tracks {moments : List Moment} {d d' : Draft} (h : Faithful moments d)
    (hlayout : d'.layout = d.layout) (htrim : d'.trimMark = d.trimMark)
    (htracks : Tracks d.layout d.trimMark d'.tracked) : Faithful moments d' := by
  refine ⟨?_, ?_, ?_, ?_⟩
  · rw [hlayout, h.layout_eq]
  · rw [htrim, h.trimMark_eq]
  · rw [hlayout]
    exact h.valid_layout
  · rwa [hlayout, htrim]

theorem represented_stage {moments : List Moment} {d : Draft} {w : Workload} {errand : Errand} :
    Represented moments (.waiting (errand.stage d w)) ↔ Faithful moments d ∧ Serves d w := by
  cases errand <;> exact Iff.rfl

theorem represented_crashed (moments : List Moment) :
    Represented moments (.over none (.error .workerCrashed)) := by
  refine ⟨fun report heq => ?_, fun heq => ?_⟩
  · cases heq
  · cases heq

theorem Represented.step {moments : List Moment} {c : Coordinator} {p q : Point}
    (hp : Represented moments p) (h : Step c p q) : Represented moments q := by
  cases h with
  | replace | miss | skip | goOn | rest | exhaust | defer | reflect | propose | skipMarks =>
    exact hp
  | stop | conclude => exact Faithful.over hp _
  | list => exact Faithful.of_tracks hp rfl rfl (Faithful.tracks hp)
  | copy h =>
    refine ⟨hp, ?_⟩
    rw [Serves, Workload.ofTargets, List.map_map]
    exact List.map_id _
  | take h =>
    obtain ⟨hfaithful, hserves⟩ := hp
    exact ⟨hfaithful, (Workload.segments_take h).trans hserves⟩
  | retire h =>
    obtain ⟨hfaithful, hserves⟩ := hp
    exact ⟨hfaithful, (Workload.segments_retire _).trans ((Workload.segments_take h).trans hserves)⟩
  | turn h => exact represented_stage.mpr hp
  | crash h hcrashed => exact represented_crashed moments
  | refuse h hcrashed hclose =>
    obtain ⟨hfaithful, hserves⟩ := hp
    obtain ⟨fates, hok⟩ := hserves.close fun s hs _ => hfaithful.tracks.valid s hs
    rw [hok] at hclose
    cases hclose
  | close h hcrashed hclose =>
    obtain ⟨hfaithful, hserves⟩ := hp
    exact hfaithful.of_tracks rfl rfl (tracks_replaceCandidates hserves hfaithful.tracks hclose)
  | mark h => exact Faithful.of_tracks hp rfl rfl (tracks_markListed (Faithful.tracks hp) h)

/-- A reply that reads nothing at the beginning of a cycle. -/
theorem Faithful.cons {moments : List Moment} {d : Draft} (h : Faithful moments d) {m : Moment}
    (hlayout : layoutRead (m :: moments) = layoutRead moments)
    (htrim : trimMarkRead (m :: moments) = trimMarkRead moments) : Faithful (m :: moments) d :=
  ⟨hlayout.trans h.layout_eq, htrim.trans h.trimMark_eq, h.valid_layout, h.tracks⟩

theorem Represented.entry {moments : List Moment} {c : Coordinator} {s : Stage}
    {answer : s.query.Reply} {p : Point} (hlawful : (Happening.reply s answer).Lawful)
    (hlist : Tidy c.tracked) (hp : Represented moments (.waiting s)) (h : Entry c s answer p) :
    Represented (⟨c, .reply s answer⟩ :: moments) p := by
  cases h with
  | layoutUnread | trimMarkUnread =>
    refine ⟨fun report heq => ?_, fun _ m hm => ?_⟩
    · cases heq
    · cases hm
      exact id
  | layoutRead => exact ⟨rfl, hlawful⟩
  | @undrafted layout trimMark e h =>
    have hrequired := Layout.requirement_eq hp.2 c.node trimMark
    rw [draft_eq hp.2 hlist.ascending hlist.valid hrequired] at h
    cases h
  | @drafted layout trimMark d h =>
    obtain ⟨hread, hvalid⟩ := hp
    obtain ⟨required, hrequired, -, rfl⟩ := hlist.of_draft hvalid h
    exact ⟨hread, rfl, hvalid, tracks_draft hvalid hlist.ascending hlist.valid hrequired⟩
  | unreadable | held | written | uncopied =>
    exact ⟨hp.1.cons rfl rfl, (Workload.segments_note _ _ _).trans hp.2⟩
  | inverted | crashed | missing => exact ⟨hp.1.cons rfl rfl, hp.2⟩
  | accepted | stale | refused | refreshed | unrefreshed => exact Faithful.cons hp rfl rfl

theorem Represented.aside {moments : List Moment} {m : Moment} (hm : m.happening.IsAside)
    {s : Stage} (hp : Represented moments (.waiting s)) :
    Represented (m :: moments) (.waiting s) := by
  obtain ⟨hlayout, htrim⟩ := reads_of_isAside hm moments
  cases s with
  | readingLayout => trivial
  | readingTrimMark layout => exact ⟨hlayout.trans hp.1, hp.2⟩
  | checking | copying => exact ⟨hp.1.cons hlayout htrim, hp.2⟩
  | proposing | refreshing => exact Faithful.cons hp hlayout htrim

theorem Represented.shift {moments : List Moment} {s : Stage} {p : Point}
    (hp : Represented moments (.waiting s)) (h : Shift s p) : Represented moments p := by
  cases h with
  | recancel f hs =>
    cases s with
    | checking | copying =>
      cases hs
      exact ⟨hp.1, (Workload.segments_recancel f _).trans hp.2⟩
    | _ => cases hs
  | switch h =>
    obtain ⟨hfaithful, hserves⟩ := represented_stage.mp hp
    exact represented_stage.mpr ⟨hfaithful, hserves⟩
  | hire h =>
    obtain ⟨hfaithful, hserves⟩ := represented_stage.mp hp
    exact ⟨hfaithful, hserves⟩
  | abandon h hcrashed => exact represented_crashed moments

/-! ## Along a run -/

theorem invariant_represented_from {start : Coordinator} (hidle : start.stage = none)
    (htidy : Tidy start.tracked) : Invariant start Represented fun _ => Tidy where
  list_start := htidy
  stage_start s hs := by
    rw [hidle] at hs
    cases hs
  list_cons h := h
  begun _ _ := trivial
  aside hm hp := hp.aside hm
  shift hp h := hp.shift h
  entry _ hlawful hlist hp h := hp.entry hlawful hlist h
  step _ hp h := hp.step h
  publish hp := by
    obtain ⟨layout, trimMark, -, -, htracks⟩ := hp
    exact ⟨htracks.ascending, htracks.valid⟩

theorem invariant_represented (node : NodeId) (settings : Settings) :
    Invariant { node, settings } Represented fun _ => Tidy :=
  invariant_represented_from rfl tidy_nil

/-- Only a reply brings a report. -/
theorem outcome_ne_ok_of_isAside {h : Happening} (haside : h.IsAside) (c : Coordinator)
    (report : Report) : (h.turn c).outcome ≠ some (.ok report) := by
  intro houtcome
  cases h with
  | reply s answer => exact haside
  | begin =>
    simp only [Happening.turn, begin] at houtcome
    split at houtcome
    · cases houtcome
    · split at houtcome <;> cases houtcome
  | announce | shutdown => cases houtcome
  | switch k =>
    simp only [Happening.turn, switch] at houtcome
    split at houtcome
    · cases houtcome
    · split at houtcome <;> cases houtcome
  | hire =>
    rw [Happening.turn, outcome_hire] at houtcome
    cases houtcome
  | abandon =>
    simp only [Happening.turn, abandon] at houtcome
    split at houtcome
    · cases houtcome
    · split at houtcome <;> cases houtcome

theorem exists_reply_of_publishes {m : Moment} (h : m.Publishes) :
    ∃ s answer, m.happening = .reply s answer := by
  rcases m.happening.isAside_or_reply with haside | hreply
  · rcases h with ⟨report, houtcome⟩ | ⟨-, hending⟩
    · exact absurd houtcome (outcome_ne_ok_of_isAside haside m.before report)
    · exact absurd hending (not_mayEndCopying_of_isAside haside)
  · exact hreply

/-- A cycle that publishes leaves a list that tracks the layout which it read. -/
theorem tracks_of_publishes {node : NodeId} {settings : Settings} {moments : List Moment}
    {m : Moment} {c : Coordinator} (hrun : Run { node, settings } (m :: moments) c)
    (hlawful : Lawful (m :: moments)) (h : m.Publishes) :
    ∃ layout trimMark, layoutRead (m :: moments) = some layout ∧
      trimMarkRead (m :: moments) = some trimMark ∧ Tracks layout trimMark c.tracked := by
  obtain ⟨s, answer, hreply⟩ := exists_reply_of_publishes h
  obtain ⟨b, happening⟩ := m
  obtain rfl : happening = .reply s answer := hreply
  obtain ⟨p, hp, hends, rfl⟩ := (invariant_represented node settings).answered hrun hlawful
  have hover : ∀ outcome, (b.resume s answer).outcome = some outcome →
      ((∃ report, outcome = .ok report) ∨
        outcome = .error .cancelled ∧ Moment.MayEndCopying ⟨b, .reply s answer⟩) →
      ∃ layout trimMark, layoutRead (⟨b, .reply s answer⟩ :: moments) = some layout ∧
        trimMarkRead (⟨b, .reply s answer⟩ :: moments) = some trimMark ∧
        Tracks layout trimMark (b.resume s answer).coordinator.tracked := by
    intro outcome houtcome hkind
    obtain ⟨published, rfl, hlist⟩ := hends.eq_over_of_outcome houtcome
    cases published with
    | some tracked =>
      rw [hlist]
      exact hp
    | none =>
      obtain ⟨hnotOk, hnotCancelled⟩ := hp
      rcases hkind with ⟨report, heq⟩ | ⟨heq, hending⟩
      · exact absurd heq (hnotOk report)
      · exact absurd hending (hnotCancelled heq _ rfl)
  rcases h with ⟨report, houtcome⟩ | ⟨houtcome, hending⟩
  · exact hover _ houtcome (Or.inl ⟨report, rfl⟩)
  · exact hover _ houtcome (Or.inr ⟨rfl, hending⟩)

/-- Along every run the published list is in ascending order, shares no address, and consists of
valid segments that have a cause of failure exactly if they failed. After each cycle that
publishes, an address of the layout which the cycle read that is above its trim mark lies in
exactly one tracked segment, and every tracked segment ends above the trim mark. -/
theorem tracked_representation {node : NodeId} {settings : Settings} {moments : List Moment}
    {c : Coordinator} (hrun : Run { node, settings } moments c) (hlawful : Lawful moments) :
    Ascending c.tracked ∧ (∀ s ∈ c.tracked, s.Valid) ∧
      ∀ m ∈ moments.head?, m.Publishes →
        ∃ layout trimMark, layoutRead moments = some layout ∧
          trimMarkRead moments = some trimMark ∧
          (∀ x, layout.Covers x → trimMark < x →
            ∃ s ∈ c.tracked, x ∈ s.toSpan ∧ ∀ t ∈ c.tracked, x ∈ t.toSpan → t = s) ∧
          ∀ s ∈ c.tracked, trimMark < s.last := by
  have inv := invariant_represented node settings
  have hlist := (inv.run hrun hlawful).1
  refine ⟨hlist.ascending, hlist.valid, fun m hm hpublishes => ?_⟩
  obtain ⟨moments, rfl⟩ : ∃ rest, moments = m :: rest := by
    cases moments with
    | nil => cases hm
    | cons m' rest =>
      cases hm
      exact ⟨rest, rfl⟩
  obtain ⟨layout, trimMark, hlayout, htrim, htracks⟩ := tracks_of_publishes hrun hlawful hpublishes
  exact ⟨layout, trimMark, hlayout, htrim, fun x => htracks.exists_unique, htracks.trimMark_lt⟩

/-! ## The beginning of a cycle -/

/-- A cycle begins, and reads a layout and a trim mark. -/
def readMoments (b : Coordinator) (layout : Layout) (trimMark : Address) : List Moment :=
  [⟨{ b with stage := some (.readingTrimMark layout) },
      .reply (.readingTrimMark layout) (.ok trimMark)⟩,
    ⟨{ b with stage := some .readingLayout }, .reply .readingLayout (.ok layout)⟩,
    ⟨b, .begin⟩]

theorem run_readMoments {start b : Coordinator} {moments : List Moment}
    (hrun : Run start moments b) (hidle : b.stage = none) (hgoing : b.stopped = false)
    (layout : Layout) (trimMark : Address) :
    Run start (readMoments b layout trimMark ++ moments)
      (({ b with stage := some (.readingTrimMark layout) } : Coordinator).resume
        (.readingTrimMark layout) (.ok trimMark)).coordinator := by
  have hbegun : b.begin.coordinator = { b with stage := some .readingLayout } := by
    simp [begin, hidle, hgoing, wait]
  have hreading := hrun.cons .begin trivial
  rw [Happening.turn, hbegun] at hreading
  exact (hreading.cons (.reply .readingLayout (.ok layout)) rfl).cons
    (.reply (.readingTrimMark layout) (.ok trimMark)) rfl

/-- With segments to copy, the trim mark leads to the first chunk of their targets. -/
theorem resume_readingTrimMark {c : Coordinator} {layout : Layout} {trimMark : Address} {d : Draft}
    {s : TrackedSegment} {rest : List TrackedSegment} {targets : List Target}
    (hdraft : c.draft layout trimMark = .ok d) (hdue : d.tracked.filter (·.isDue) = s :: rest)
    (htargets : (s :: rest).map (c.targetOf d.layout) = targets) :
    c.resume (.readingTrimMark layout) (.ok trimMark) =
      ({ c with
          trimMark
          metrics := c.metrics.set .segmentsInFlight (.ofNat targets.length) } :
        Coordinator).nextChunk d (.ofTargets targets c.settings.maxConcurrentBatches.toNat) := by
  have hdraft' : ({ c with trimMark } : Coordinator).draft layout trimMark = .ok d := hdraft
  have htargets' : (s :: rest).map (({ c with trimMark } : Coordinator).targetOf d.layout) =
      targets := htargets
  rw [resume, hdraft']
  dsimp only
  rw [copy, hdue]
  dsimp only
  rw [htargets']

theorem lawful_nil : Lawful [] := fun _ hm => absurd hm List.not_mem_nil

theorem lawful_readMoments {moments : List Moment} (h : Lawful moments) (b : Coordinator)
    {layout : Layout} (hl : layout.Valid) (trimMark : Address) :
    Lawful (readMoments b layout trimMark ++ moments) :=
  List.forall_mem_cons.mpr ⟨trivial, List.forall_mem_cons.mpr ⟨hl,
    List.forall_mem_cons.mpr ⟨trivial, h⟩⟩⟩

/-! ## A cycle that fails to copy -/

/-- Two ranges of which the node `n` holds the second. -/
def halfHeld : Layout := ⟨4, [⟨0, 5, [⟨["a"]⟩]⟩, ⟨5, 9, [⟨["n", "a"]⟩]⟩]⟩

/-- The range that the node holds. -/
def heldHalf : TrackedSegment := ⟨⟨5, 8⟩, .restored 4⟩

/-- The range that it has to copy. -/
def missingHalf : TrackedSegment := ⟨⟨0, 4⟩, .notTransferred 0⟩

/-- What a cycle works on that begins with this layout and tracks nothing yet. -/
def halfDraft : Draft := draftOf halfHeld (-1) [missingHalf, heldHalf]

/-- The workload once its only chunk is handed out. -/
def halfWork : Workload := ⟨[⟨missingHalf, ["a"], ⟨some 5, 4, 10⟩, false, []⟩], [], 3, 3, [], false⟩

/-- The coordinator that asks for the trim mark. -/
def halfRead : Coordinator :=
  { node := "n", settings := {}, stage := some (.readingTrimMark halfHeld) }

/-- The coordinator that asks which addresses of the missing range are held. -/
def halfChecking : Coordinator :=
  { halfRead with
    metrics := Metrics.set {} .segmentsInFlight 1
    stage := some (.checking halfDraft halfWork 0 ⟨0, 4⟩) }

/-- What has led to it, latest first. -/
def halfMoments : List Moment :=
  [⟨halfRead, .reply (.readingTrimMark halfHeld) (.ok (-1))⟩,
    ⟨{ node := "n", settings := {}, stage := some .readingLayout },
      .reply .readingLayout (.ok halfHeld)⟩,
    ⟨{ node := "n", settings := {} }, .begin⟩]

theorem lawful_halfMoments : Lawful halfMoments := by
  have hvalid : halfHeld.Valid := by decide +kernel
  simp only [Lawful, halfMoments, List.forall_mem_cons]
  exact ⟨trivial, hvalid, trivial, by simp⟩

theorem draft_halfRead : halfRead.draft halfHeld (-1) = .ok halfDraft := by
  have hrequired : halfHeld.requirement halfRead.node (-1) = .ok [missingHalf, heldHalf] := rfl
  have hoverlaid : ∀ f, overlaid [] f = joinNeighbours (cut f f.first []) := by
    intro f
    rw [overlaid, pieces, List.filter_nil, List.mergeSort_nil]
  have hreconciled : reconciled [] [missingHalf, heldHalf] = [missingHalf, heldHalf] := by
    have hsorted : [missingHalf, heldHalf].Pairwise fun s t => startsBy s t = true := by
      decide +kernel
    rw [reconciled, funext hoverlaid]
    exact List.mergeSort_of_pairwise hsorted
  have hascending : Ascending halfRead.tracked := List.Pairwise.nil
  have hvalid : ∀ s ∈ halfRead.tracked, s.Valid := fun s hs => absurd hs List.not_mem_nil
  have hnone : halfRead.tracked = [] := rfl
  rw [draft_eq (by decide +kernel) hascending hvalid hrequired, hnone, hreconciled]
  rfl

theorem resume_halfRead :
    (halfRead.resume (.readingTrimMark halfHeld) (.ok (-1))).coordinator = halfChecking := by
  have hdraft : ({ halfRead with trimMark := -1 } : Coordinator).draft halfHeld (-1) =
      .ok halfDraft := draft_halfRead
  rw [resume, hdraft]
  rfl

theorem run_halfMoments : Run { node := "n", settings := {} } halfMoments halfChecking := by
  rw [← resume_halfRead]
  refine .cons (.cons (.cons .nil .begin trivial) (.reply .readingLayout (.ok halfHeld)) ?_)
    (.reply (.readingTrimMark halfHeld) (.ok (-1))) ?_
  · exact rfl
  · exact rfl

/-- The held addresses of the missing range cannot be read: it is published as failed. -/
theorem resume_halfChecking_unreadable :
    ∃ metrics, halfChecking.resume (.checking halfDraft halfWork 0 ⟨0, 4⟩) (.error .cancelled) =
      ⟨{ halfRead with
          tracked := [⟨⟨0, 4⟩, .failed 0 ⟨"operation cancelled"⟩⟩, heldHalf]
          metrics, stage := none },
        some (.ok { epoch := 4, trimMark := -1, candidates := 1, failed := 1 })⟩ :=
  ⟨_, rfl⟩

/-- The range that could not be copied. -/
def failedHalf : TrackedSegment := ⟨⟨0, 4⟩, .failed 0 ⟨"operation cancelled"⟩⟩

/-- The coordinator after the failure. -/
def halfFailed (metrics : Metrics) : Coordinator :=
  { halfRead with tracked := [failedHalf, heldHalf], metrics, stage := none }

/-- What has led to it. -/
def failMoments : List Moment :=
  ⟨halfChecking, .reply (.checking halfDraft halfWork 0 ⟨0, 4⟩) (.error .cancelled)⟩ :: halfMoments

theorem run_failMoments :
    ∃ metrics, Run { node := "n", settings := {} } failMoments (halfFailed metrics) := by
  obtain ⟨metrics, hturn⟩ := resume_halfChecking_unreadable
  refine ⟨metrics, ?_⟩
  have hfailed : (halfChecking.resume (.checking halfDraft halfWork 0 ⟨0, 4⟩)
      (.error .cancelled)).coordinator = halfFailed metrics := congrArg Turn.coordinator hturn
  rw [← hfailed]
  exact run_halfMoments.cons
    (.reply (.checking halfDraft halfWork 0 ⟨0, 4⟩) (.error .cancelled)) rfl

theorem lawful_failMoments : Lawful failMoments :=
  List.forall_mem_cons.mpr ⟨trivial, lawful_halfMoments⟩

theorem tidy_cons_heldHalf {s : TrackedSegment} (hs : s.Valid) (hlast : s.last < 5) :
    Tidy [s, heldHalf] := by
  refine ⟨List.pairwise_pair.mpr hlast, ?_⟩
  simp only [List.forall_mem_cons]
  exact ⟨hs, ⟨by decide +kernel, by decide⟩, by simp⟩

theorem tidy_halfFailed : Tidy [failedHalf, heldHalf] :=
  tidy_cons_heldHalf ⟨by decide +kernel, by decide⟩ (by decide)

theorem tracked_representation_after_failure :
    ∃ moments c, Run { node := "n", settings := {} } moments c ∧
      c.tracked = [⟨⟨0, 4⟩, .failed 0 ⟨"operation cancelled"⟩⟩, heldHalf] ∧
      Ascending c.tracked ∧ (∀ s ∈ c.tracked, s.Valid) ∧
      ∃ s ∈ c.tracked, 3 ∈ s.toSpan ∧ ∀ t ∈ c.tracked, 3 ∈ t.toSpan → t = s := by
  obtain ⟨metrics, hturn⟩ := resume_halfChecking_unreadable
  let answer : Happening := .reply (.checking halfDraft halfWork 0 ⟨0, 4⟩) (.error .cancelled)
  have hrun := run_halfMoments.cons answer rfl
  have hlawful : Lawful (⟨halfChecking, answer⟩ :: halfMoments) :=
    List.forall_mem_cons.mpr ⟨trivial, lawful_halfMoments⟩
  obtain ⟨hascending, hvalid, hpublished⟩ := tracked_representation hrun hlawful
  obtain ⟨layout, trimMark, hlayout, htrim, hunique, -⟩ := hpublished _ rfl
    (Or.inl ⟨_, congrArg Turn.outcome hturn⟩)
  cases hlayout
  cases htrim
  refine ⟨_, _, hrun, congrArg (fun t => t.coordinator.tracked) hturn, hascending, hvalid,
    hunique 3 ⟨⟨0, 5, [⟨["a"]⟩]⟩, by decide +kernel, by decide +kernel⟩ (by decide +kernel)⟩

end LogRepair.Coordinator
