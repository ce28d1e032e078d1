import LogRepair.Proofs.Cycle.Calm
import LogRepair.Proofs.Cycle.Representation

/-!
# A cycle with nothing to do

Once everything that is tracked is restored, the next calm cycle finds that out from the layout and
the trim mark alone. It may cut the tracked ranges anew, since regions may have been joined, but it
keeps their addresses.

* `AtRest`: everything that is tracked is restored, and lies in the layout as a whole or not at all.
* `Coordinator.atRest_draft`: the next draft has the same addresses, all restored.
* `Coordinator.quiet_of_atRest`: the next calm cycle asks for nothing else and changes nothing.
-/

namespace LogRepair

open TrackedSegment

/-- The layout has every address of the span above the trim mark, or none of them. -/
def Layout.AllOrNone (l : Layout) (trimMark : Address) (s : Span) : Prop :=
  (∀ x ∈ s, l.Covers x ∧ trimMark < x) ∨ ∀ x ∈ s, ¬(l.Covers x ∧ trimMark < x)

/-- The list tracks the layout above the trim mark, and nothing in it is left to do. -/
structure AtRest (l : Layout) (trimMark : Address) (tracked : List TrackedSegment) : Prop
    extends Tracks l trimMark tracked where
  allOrNone : ∀ s ∈ tracked, l.AllOrNone trimMark s.toSpan
  restored : ∀ s ∈ tracked, s.state = .restored

namespace AtRest

variable {l : Layout} {trimMark : Address} {tracked : List TrackedSegment}

theorem filter_isDue (h : AtRest l trimMark tracked) : tracked.filter (·.isDue) = [] := by
  refine List.filter_eq_nil_iff.mpr fun s hs => ?_
  simp [isDue, h.restored s hs, CopyState.isDue]

theorem countIn_transferred (h : AtRest l trimMark tracked) : countIn .transferred tracked = 0 := by
  refine List.countP_eq_zero.mpr fun s hs => ?_
  simp [h.restored s hs]

end AtRest

/-! ## Drafts of a list that is restored -/

namespace TrackedSegment

theorem higher_restored (a : CopyState) : CopyState.restored.higher a = .restored := by
  cases a <;> rfl

variable {old fresh : List TrackedSegment}

/-- Where restored segments leave nothing out, everything stays restored. -/
theorem restored_of_mem_reconciled (h : Reconcilable old fresh)
    (hold : ∀ o ∈ old, o.state = .restored)
    (hcovered : ∀ f ∈ fresh, ∀ x ∈ f.toSpan, ∃ o ∈ old, x ∈ o.toSpan) {s : TrackedSegment}
    (hs : s ∈ reconciled old fresh) : s.state = .restored := by
  rcases mem_reconciled.mp hs with ⟨f, hf, hs⟩ | ⟨o, ho, rfl⟩
  · have hfirst : s.first ∈ s.toSpan := ⟨Int64.le_refl _, (h.bounds_of_mem_overlaid hf hs).2.1⟩
    rcases h.state_of_mem_overlaid hf hs hfirst with ⟨o, ho, -, hstate⟩ | ⟨-, hnone⟩
    · rw [hstate, hold o ho]
      exact higher_restored _
    · obtain ⟨o, ho, hx⟩ := hcovered f hf _ (h.mem_of_mem_overlaid hf hs hfirst)
      exact absurd hx (hnone o ho)
  · have hrestored := hold o (mem_unclaimed.mp ho).1
    unfold carriedOn
    split
    · rfl
    · exact hrestored

end TrackedSegment

namespace Coordinator

variable {l : Layout} {trimMark : Address} {tracked required : List TrackedSegment}
  {node : NodeId}

/-- A segment of a draft comes from what the layout requires, or lies beside all of that. -/
theorem allOrNone_reconciled (hl : l.Valid) (hascending : Ascending tracked)
    (hvalid : ∀ s ∈ tracked, s.Valid) (h : l.requirement node trimMark = .ok required)
    {s : TrackedSegment} (hs : s ∈ reconciled tracked required) :
    l.AllOrNone trimMark s.toSpan := by
  have hrec := reconcilable hl hascending hvalid h
  rcases mem_reconciled.mp hs with ⟨f, hf, hs⟩ | ⟨o, ho, rfl⟩
  · refine Or.inl fun x hx => ?_
    exact Layout.covers_of_mem_requirement hl h hf (hrec.mem_of_mem_overlaid hf hs hx)
  · refine Or.inr fun x hx hneeded => ?_
    rw [toSpan_carriedOn] at hx
    obtain ⟨f, hf, hxf⟩ := Layout.exists_mem_requirement hl h hneeded.1 hneeded.2
    have hclear := (mem_unclaimed.mp ho).2 f hf
    rw [overlaps, Span.overlaps_of_mem hxf hx] at hclear
    cases hclear

/-- The next draft of a list at rest is at rest, and has the same addresses. -/
theorem atRest_draft (hl : l.Valid) (hrest : AtRest l trimMark tracked)
    (h : l.requirement node trimMark = .ok required) :
    let next := (reconciled tracked required).filter fun s => trimMark < s.last
    AtRest l trimMark next ∧
      ∀ x, (∃ s ∈ next, x ∈ s.toSpan) ↔ ∃ s ∈ tracked, x ∈ s.toSpan := by
  intro next
  have hrec := reconcilable hl hrest.ascending hrest.valid h
  have htracks : Tracks l trimMark next := tracks_draft hl hrest.ascending hrest.valid h
  have hcovered : ∀ f ∈ required, ∀ x ∈ f.toSpan, l.Covers x ∧ trimMark < x := fun f hf x =>
    Layout.covers_of_mem_requirement hl h hf
  refine ⟨⟨htracks, fun s hs => ?_, fun s hs => ?_⟩, fun x => ⟨?_, ?_⟩⟩
  · exact allOrNone_reconciled hl hrest.ascending hrest.valid h (List.mem_filter.mp hs).1
  · refine restored_of_mem_reconciled hrec hrest.restored (fun f hf x hx => ?_)
      (List.mem_filter.mp hs).1
    obtain ⟨hcovers, htrim⟩ := hcovered f hf x hx
    exact hrest.exists_mem x hcovers htrim
  · rintro ⟨s, hs, hx⟩
    rcases mem_reconciled.mp (List.mem_filter.mp hs).1 with ⟨f, hf, hs⟩ | ⟨o, ho, rfl⟩
    · obtain ⟨hcovers, htrim⟩ := hcovered f hf x (hrec.mem_of_mem_overlaid hf hs hx)
      exact hrest.exists_mem x hcovers htrim
    · rw [toSpan_carriedOn] at hx
      exact ⟨o, (mem_unclaimed.mp ho).1, hx⟩
  · rintro ⟨o, ho, hx⟩
    rcases hrest.allOrNone o ho with hall | hnone
    · obtain ⟨hcovers, htrim⟩ := hall x hx
      exact htracks.exists_mem x hcovers htrim
    · -- Nothing that is required overlaps the segment, so it is carried on.
      have hclear : ∀ f ∈ required, f.overlaps o = false := by
        intro f hf
        rw [Bool.eq_false_iff]
        intro hoverlap
        obtain ⟨y, hyf, hyo⟩ := Span.exists_mem_of_overlaps
          (Layout.valid_of_mem_requirement hl h hf).first_le_last
          (hrest.valid o ho).first_le_last hoverlap
        exact hnone y hyo (hcovered f hf y hyf)
      have hcarried : carriedOn o ∈ reconciled tracked required :=
        mem_reconciled.mpr (Or.inr ⟨o, mem_unclaimed.mpr ⟨ho, hclear⟩, rfl⟩)
      refine ⟨carriedOn o, List.mem_filter.mpr ⟨hcarried, ?_⟩, ?_⟩
      · rw [toSpan_carriedOn]
        exact decide_eq_true (hrest.trimMark_lt o ho)
      · rwa [toSpan_carriedOn]

/-! ## The points of a cycle with nothing to do -/

/-- Where a cycle can be that has nothing to do, after so many replies. -/
def Resting (d : Draft) (n : Nat) : Point → Prop
  | .waiting .readingLayout => n = 0
  | .waiting (.readingTrimMark layout) => n = 1 ∧ layout = d.layout
  | .drafted d' | .copied d' | .unlisted d' | .through d' => n = 2 ∧ d' = d
  | .over published outcome => n = 2 ∧ published = some d.tracked ∧ outcome = .ok d.report
  | .working _ _ | .lost _ _ | .passed _ _ | .listing _ _ _ | .settled _ _ _ => False
  | .waiting (.checking _ _ _ _) | .waiting (.copying _ _ _ _ _) => False
  | .waiting (.proposing _ _ _ _ _) | .waiting (.refreshing _ _) => False

variable {b c : Coordinator} {store : LayoutStore} {d : Draft} {n : Nat} {p q : Point}

theorem not_resting_stage {w : Workload} {errand : Errand} {d' : Draft} :
    ¬Resting d n (.waiting (errand.stage d' w)) := by
  cases errand <;> exact id

/-- A draft depends on the coordinator only through its node and its list. -/
theorem draft_congr (orders : SameOrders b c) (htracked : c.tracked = b.tracked) (l : Layout)
    (trimMark : Address) : c.draft l trimMark = b.draft l trimMark := by
  simp only [draft, orders.node_eq, htracked]

theorem Resting.step (hgoing : c.stopped = false) (hrest : AtRest l trimMark tracked)
    (hp : Resting (draftOf l trimMark tracked) n p) (h : Step c p q) :
    Resting (draftOf l trimMark tracked) n q := by
  cases h with
  | skip | goOn | rest => exact hp
  | copy h =>
    obtain ⟨-, rfl⟩ := hp
    exact absurd hrest.filter_isDue h
  | stop h =>
    rw [hgoing] at h
    cases h
  | list h =>
    obtain ⟨-, rfl⟩ := hp
    exact absurd hrest.countIn_transferred h
  | conclude =>
    obtain ⟨hn, rfl⟩ := hp
    rw [draftOf, Nat.zero_sub]
    exact ⟨hn, rfl, rfl⟩
  | turn | take | retire | replace | miss | crash | refuse | close | exhaust | defer | reflect
  | propose | skipMarks | mark => exact hp.elim

theorem Resting.entry (hdraft : c.draft store.layout store.trimMark = .ok d) {s : Stage}
    {answer : s.query.Reply} (hlayout : d.layout = store.layout)
    (hp : Resting d n (.waiting s)) (hcalm : (Happening.reply s answer).Calm store c)
    (h : Entry c s answer p) : Resting d (n + 1) p := by
  cases h with
  | layoutUnread | trimMarkUnread => cases hcalm
  | layoutRead =>
    cases hcalm
    exact ⟨congrArg (· + 1) hp, hlayout.symm⟩
  | undrafted h =>
    cases hcalm
    obtain ⟨-, rfl⟩ := hp
    rw [hlayout, hdraft] at h
    cases h
  | drafted h =>
    cases hcalm
    obtain ⟨rfl, rfl⟩ := hp
    rw [hlayout, hdraft] at h
    cases h
    exact ⟨rfl, rfl⟩
  | unreadable | inverted | held | missing | written | uncopied | crashed => exact hp.elim
  | accepted | stale | refused | refreshed | unrefreshed => exact hp.elim

theorem Resting.le_two (hp : Resting d n p) : n ≤ 2 := by
  match p, hp with
  | .waiting .readingLayout, hp => exact Nat.le_trans (Nat.le_of_eq hp) (Nat.zero_le 2)
  | .waiting (.readingTrimMark _), hp =>
    exact Nat.le_trans (Nat.le_of_eq hp.1) (Nat.le_succ 1)
  | .drafted _, hp | .copied _, hp | .unlisted _, hp | .through _, hp | .over _ _, hp =>
    exact Nat.le_of_eq hp.1

/-- It only ever waits for the store. -/
theorem Resting.reading {s : Stage} (hp : Resting d n (.waiting s)) :
    s = .readingLayout ∨ s = .readingTrimMark d.layout := by
  cases s with
  | readingLayout => exact Or.inl rfl
  | readingTrimMark layout => exact Or.inr (congrArg _ hp.2)
  | checking | copying | proposing | refreshing => exact hp.elim

theorem Resting.store_eq {s : Stage} {answer : s.query.Reply} (hp : Resting d n (.waiting s)) :
    store.after (.reply s answer) = store := by
  cases s with
  | proposing => exact hp.elim
  | _ => rfl

/-! ## The cycle -/

/-- The cycle ended with such a report. -/
def EndsWith (moments : List Moment) (P : Report → Prop) : Prop :=
  ∃ m ∈ moments.head?, ∃ report, m.outcome = some (.ok report) ∧ P report

/-- A cycle of `b` that reads the store twice and does nothing: it has no candidates, asks for no
copy and makes no proposal, and it keeps what is tracked, all restored. -/
structure Quiet (b : Coordinator) (store : LayoutStore) (moments : List Moment)
    (store' : LayoutStore) (c : Coordinator) : Prop where
  replies_le : replies moments ≤ 2
  canEnd : CanEnd b store moments
  store_eq : store' = store
  stage : ∀ s, c.stage = some s → s = .readingLayout ∨ s = .readingTrimMark store.layout
  ended : c.stage = none →
    EndsWith moments (fun r => r.candidates = 0 ∧ r.restored = 0 ∧ r.committedEpoch = none) ∧
      (∀ s ∈ c.tracked, s.state = .restored) ∧
      ∀ x, (∃ s ∈ c.tracked, x ∈ s.toSpan) ↔ ∃ s ∈ b.tracked, x ∈ s.toSpan

theorem calmInvariant_resting (hgoing : b.stopped = false)
    (hrest : AtRest store.layout store.trimMark tracked)
    (hdraft : b.draft store.layout store.trimMark =
      .ok (draftOf store.layout store.trimMark tracked)) :
    CalmInvariant b store fun n after p =>
      after = store ∧ Resting (draftOf store.layout store.trimMark tracked) n p where
  begun := ⟨rfl, rfl⟩
  alive {n σ s w} hp hw := by
    cases s with
    | checking | copying => exact hp.2.elim
    | _ => cases hw
  switch hp _ := absurd hp.2 not_resting_stage
  hire hp _ := absurd hp.2 not_resting_stage
  entry orders htracked hp hcalm hentry := by
    obtain ⟨rfl, hp⟩ := hp
    refine ⟨hp.store_eq, hp.entry ?_ rfl hcalm hentry⟩
    rw [draft_congr orders htracked]
    exact hdraft
  step orders hp hstep := ⟨hp.1, hp.2.step (orders.stopped_eq.trans hgoing) hrest hstep⟩

/-- After a cycle that left the list at rest, the next one is quiet. -/
theorem quiet_of_atRest {moments : List Moment} {store' : LayoutStore} (hl : store.layout.Valid)
    (hidle : b.stage = none) (hgoing : b.stopped = false)
    (hrest : AtRest store.layout store.trimMark b.tracked)
    (hrun : CalmRun b store moments store' c) : Quiet b store moments store' c := by
  have hrequired := Layout.requirement_eq hl b.node store.trimMark
  obtain ⟨hnext, hsame⟩ := atRest_draft hl hrest hrequired
  have inv := calmInvariant_resting hgoing hnext
    (draft_eq hl hrest.ascending hrest.valid hrequired)
  have hle : ∀ {moments store' c}, CalmRun b store moments store' c → replies moments ≤ 2 :=
    inv.replies_le (fun hp => hp.2.le_two) hidle hgoing
  have hholds := inv.run hidle hgoing hrun
  refine ⟨hle hrun, hrun.canEnd hle, ?_, fun s hs => (hholds.of_waits hs).2.2.reading,
    fun hended => ?_⟩
  · rcases hholds.waits_or_ended with ⟨-, s, -, hp⟩ | ⟨-, published, outcome, -, hp, -⟩
    · exact hp.1
    · exact hp.1
  · obtain ⟨published, outcome, ⟨m, hm, houtcome⟩, ⟨-, -, rfl, rfl⟩, hlist⟩ :=
      hholds.of_ended hended
    refine ⟨⟨m, hm, _, houtcome, ?_, rfl, rfl⟩, ?_, ?_⟩
    · rw [draftOf, List.countP_eq_length_filter, hnext.filter_isDue, List.length_nil]
    · rw [hlist]
      exact hnext.restored
    · rw [hlist]
      exact hsame

end Coordinator

end LogRepair
