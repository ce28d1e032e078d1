import LogRepair.Proofs.Cycle.Representation
import LogRepair.Proofs.Cycle.Upkeep
import LogRepair.Proofs.Layout.Leading

/-!
# A cycle never fails by its own doing

* `Listing.countIn_add_countP`: marking the ready segments takes just those from the ones that wait.
* `Coordinator.Reckoned`: what a draft says at each point of the segments that wait for the layout.
* `Coordinator.Explained`: what is known at each point of the death of workers and of errors.
* `Coordinator.fails_only_from_outside`: along every run no operation of a cycle is refused, and a
  cycle fails only because another runs, after a shutdown, if the layout or the trim mark cannot be
  read, or if a worker dies.
-/

namespace LogRepair

open TrackedSegment

/-! ## Marking -/

namespace Listing

/-- Valid segments can be marked, whichever are ready. -/
theorem markListed_eq_map {tracked : List TrackedSegment} (hvalid : ∀ s ∈ tracked, s.Valid)
    (ready : List TrackedSegment) :
    markListed ready tracked =
      .ok (tracked.map fun s => if isReady ready s then s.asRestored else s) := by
  refine mapM_eq_ok_map fun s hs => ?_
  by_cases hready : isReady ready s = true
  · rw [if_pos hready, if_pos hready]
    have hcomplete : s.isComplete = true := by
      simp only [isReady, Bool.and_eq_true, decide_eq_true_eq] at hready
      rw [isComplete, hready.1]
      rfl
    exact listed_eq (hvalid s hs).fault_eq_none hcomplete
  · rw [if_neg hready, if_neg hready]

/-- Marking takes the ready segments, and no others, from those that wait. -/
theorem countIn_add_countP {ready tracked tracked' : List TrackedSegment}
    (hvalid : ∀ s ∈ tracked, s.Valid) (h : markListed ready tracked = .ok tracked') :
    countIn .transferred tracked' + tracked.countP (isReady ready) =
      countIn .transferred tracked := by
  rw [markListed_eq_map hvalid] at h
  cases h
  clear hvalid
  induction tracked with
  | nil => rfl
  | cons s rest ih =>
    simp only [countIn, List.map_cons, List.countP_cons] at ih ⊢
    by_cases hready : isReady ready s = true
    · have hwaits : s.state = .transferred := by
        simp only [isReady, Bool.and_eq_true, decide_eq_true_eq] at hready
        exact hready.1
      have hrestored : s.asRestored.state = .restored := rfl
      simp only [hready, hwaits, hrestored, if_true, reduceCtorEq, decide_true, decide_false,
        Bool.false_eq_true, if_false]
      omega
    · simp only [hready, Bool.false_eq_true, if_false]
      omega

end Listing

/-! ## What a draft says of the segments that wait -/

namespace Draft

/-- Nothing is said yet of the segments that wait, nor of a committed layout. -/
structure Unreckoned (d : Draft) : Prop where
  awaiting_eq : d.awaiting = 0
  committedEpoch_eq : d.report.committedEpoch = none

/-- The draft says how many segments wait, and no layout lists one of them yet. -/
structure Waits (d : Draft) : Prop where
  awaiting_eq : d.awaiting = countIn .transferred d.tracked
  committedEpoch_eq : d.report.committedEpoch = none

end Draft

namespace Coordinator

/-- What the draft says at each point of the segments that wait for the layout. -/
def Reckoned : Point → Prop
  | .drafted d | .working d _ | .lost d _ | .passed d _ | .copied d | .unlisted d => d.Unreckoned
  | .waiting (.checking d _ _ _) | .waiting (.copying d _ _ _ _) => d.Unreckoned
  | .listing d _ _ | .settled d _ _ => d.Waits
  | .waiting (.proposing d _ _ _ _) | .waiting (.refreshing d _) => d.Waits
  | .through d => countIn .transferred d.tracked ≤ d.awaiting
  | .waiting .readingLayout | .waiting (.readingTrimMark _) | .over _ _ => True

theorem unreckoned_of_draft {c : Coordinator} {layout : Layout} {trimMark : Address} {d : Draft}
    (h : c.draft layout trimMark = .ok d) : d.Unreckoned := by
  obtain ⟨required, -, hreconciled⟩ := exists_of_bind_eq_ok h
  obtain ⟨merged, -, hdraft⟩ := exists_of_bind_eq_ok hreconciled
  cases hdraft
  exact ⟨rfl, rfl⟩

theorem reckoned_stage {d : Draft} {w : Workload} {errand : Errand} :
    Reckoned (.waiting (errand.stage d w)) ↔ d.Unreckoned := by
  cases errand <;> exact Iff.rfl

theorem Reckoned.step {moments : List Moment} {c : Coordinator} {p q : Point}
    (hrep : Represented moments p) (hp : Reckoned p) (h : Step c p q) : Reckoned q := by
  cases h with
  | skip | copy | take | retire | replace | miss | goOn | reflect | propose => exact hp
  | crash | refuse | stop | conclude => trivial
  | turn h => exact reckoned_stage.mpr hp
  | close => exact ⟨hp.awaiting_eq, hp.committedEpoch_eq⟩
  | rest h => exact Nat.le_trans (Nat.le_of_eq h) (Nat.zero_le _)
  | list => exact ⟨rfl, hp.committedEpoch_eq⟩
  | exhaust | defer | skipMarks => exact Nat.le_of_eq hp.awaiting_eq.symm
  | @mark d ready tracked committed h =>
    have hcount := Listing.countIn_add_countP (Faithful.tracks hrep).valid h
    have hawaiting := hp.awaiting_eq
    change countIn .transferred tracked ≤ d.awaiting
    omega

theorem Reckoned.entry {c : Coordinator} {s : Stage} {answer : s.query.Reply} {p : Point}
    (hp : Reckoned (.waiting s)) (h : Entry c s answer p) : Reckoned p := by
  cases h with
  | layoutUnread | layoutRead | trimMarkUnread | undrafted => trivial
  | drafted h => exact unreckoned_of_draft h
  | unreadable | inverted | held | missing | written | uncopied | crashed => exact hp
  | accepted | stale | refreshed => exact hp
  | refused | unrefreshed => exact Nat.le_of_eq hp.awaiting_eq.symm

theorem Reckoned.shift {s : Stage} {p : Point} (hp : Reckoned (.waiting s)) (h : Shift s p) :
    Reckoned p := by
  cases h with
  | recancel f hs =>
    cases s with
    | checking | copying => exact hp
    | _ => cases hs
  | switch h => exact reckoned_stage.mpr (reckoned_stage.mp hp)
  | hire h => exact reckoned_stage.mp hp
  | abandon => trivial

theorem invariant_reckoned (node : NodeId) (settings : Settings) :
    Invariant { node, settings } (fun moments p => Represented moments p ∧ Reckoned p)
      fun _ => Tidy := by
  have base := invariant_represented node settings
  exact {
    list_start := base.list_start
    stage_start := fun s hs => by cases hs
    list_cons := fun h => h
    begun := fun _ _ => ⟨trivial, trivial⟩
    aside := fun hm hp => ⟨hp.1.aside hm, hp.2⟩
    shift := fun hp h => ⟨hp.1.shift h, hp.2.shift h⟩
    entry := fun _ hlawful hlist hp h => ⟨hp.1.entry hlawful hlist h, hp.2.entry h⟩
    step := fun _ hp h => ⟨hp.1.step h, hp.2.step hp.1 h⟩
    publish := fun hp => base.publish hp.1 }

/-! ## Where an error comes from -/

namespace Moment

/-- The moment is a reply that the layout or the trim mark cannot be read. -/
def Unread (m : Moment) (e : Error) : Prop :=
  m.happening = .reply .readingLayout (.error e) ∨
    ∃ layout, m.happening = .reply (.readingTrimMark layout) (.error e)

/-- The error says that another cycle runs, that shutdown was signalled, or that the layout or the
trim mark could not be read. -/
def ToldOf (m : Moment) (e : Error) : Prop :=
  m.happening = .begin ∧ m.before.stage.isSome = true ∧ e = .cycleInProgress ∨
    m.before.stopped = true ∧ e = .cancelled ∨ m.Unread e

/-- Only a shutdown changes whether shutdown was signalled. -/
theorem Passes.stopped_eq {m : Moment} {c : Coordinator} {p : Point} (h : m.Passes c p)
    (hgoing : m.happening ≠ .shutdown) : c.stopped = m.before.stopped := by
  obtain ⟨b, q, hopens, hwalks, -⟩ := h
  have horders := (holds_of_walks hwalks (P := fun _ _ => True) trivial fun _ _ _ => trivial).1
  rw [horders.stopped_eq]
  cases hopens with
  | begun => rfl
  | @shift c h s p =>
    have hheeded : h.heeded c = c := by
      cases h with
      | shutdown => exact absurd rfl hgoing
      | _ => rfl
    rw [hheeded]
    exact (sameOrders_shifted _ _).stopped_eq
  | entry => exact (sameOrders_noted _ _ _).stopped_eq

end Moment

/-- A workload says that a worker died exactly if one did, and then the cycle ends with that error.
Else a cycle that is over with an error was told of it. -/
def Explained (moments : List Moment) (c : Coordinator) : Point → Prop
  | .working _ w | .lost _ w | .passed _ w => w.crashed = true ↔ WorkerLost moments
  | .waiting (.checking _ w _ _) | .waiting (.copying _ w _ _ _) =>
    w.crashed = true ↔ WorkerLost moments
  | .over published (.error e) =>
    published = none ∧ e = .workerCrashed ∧ WorkerLost moments ∨
      ¬WorkerLost moments ∧
        (published.isSome = true ∧ e = .cancelled ∧ c.stopped = true ∨
          published = none ∧ ∃ m ∈ moments.head?, m.Unread e)
  | _ => ¬WorkerLost moments

theorem explained_stage {moments : List Moment} {c : Coordinator} {d : Draft} {w : Workload}
    {errand : Errand} :
    Explained moments c (.waiting (errand.stage d w)) ↔
      (w.crashed = true ↔ WorkerLost moments) := by
  cases errand <;> exact Iff.rfl

theorem Explained.step {moments : List Moment} {c : Coordinator} {p q : Point}
    (hrep : Represented moments p) (hp : Explained moments c p) (h : Step c p q) :
    Explained moments (c.recorded p q) q := by
  cases h with
  | skip | goOn | rest | list | exhaust | defer | reflect | propose | skipMarks | mark
  | conclude | replace | miss => exact hp
  | copy => exact iff_of_false Bool.false_ne_true hp
  | take h =>
    rw [Explained, Workload.crashed_take h]
    exact hp
  | @retire d w w' h =>
    have hcrashed : w'.crashed = w.crashed := Workload.crashed_take h
    change w'.crashed = true ↔ WorkerLost moments
    rw [hcrashed]
    exact hp
  | turn h => exact explained_stage.mpr hp
  | crash h hcrashed => exact Or.inl ⟨rfl, rfl, hp.mp hcrashed⟩
  | refuse h hcrashed hclose =>
    obtain ⟨hfaithful, hserves⟩ := hrep
    obtain ⟨fates, hok⟩ := hserves.close fun s hs _ => hfaithful.tracks.valid s hs
    rw [hok] at hclose
    cases hclose
  | close h hcrashed hclose =>
    intro hlost
    rw [hp.mpr hlost] at hcrashed
    cases hcrashed
  | stop h => exact Or.inr ⟨hp, Or.inl ⟨rfl, rfl, h⟩⟩

theorem Explained.entry {moments : List Moment} {c : Coordinator} {s : Stage}
    {answer : s.query.Reply} {p : Point} (hs : c.stage = some s) (hlist : Tidy c.tracked)
    (hrep : Represented moments (.waiting s)) (hp : Explained moments c (.waiting s))
    (h : Entry c s answer p) (hlost : p.isLost = s.losesWorker answer) :
    Explained (⟨c, .reply s answer⟩ :: moments) (c.noted s answer) p := by
  have hcons := workerLost_cons moments hs (.reply s answer)
  have hsame : s.losesWorker answer = false →
      (WorkerLost (⟨c, .reply s answer⟩ :: moments) ↔ WorkerLost moments) := by
    intro hkept
    rw [hcons]
    refine or_iff_right fun hnow => ?_
    have hnow : s.losesWorker answer = true := hnow
    rw [hkept] at hnow
    cases hnow
  cases h with
  | layoutUnread => exact Or.inr ⟨mt (hsame rfl).mp hp, Or.inr ⟨rfl, _, rfl, Or.inl rfl⟩⟩
  | trimMarkUnread =>
    exact Or.inr ⟨mt (hsame rfl).mp hp, Or.inr ⟨rfl, _, rfl, Or.inr ⟨_, rfl⟩⟩⟩
  | @undrafted layout trimMark e h =>
    have hrequired := Layout.requirement_eq hrep.2 c.node trimMark
    rw [draft_eq hrep.2 hlist.ascending hlist.valid hrequired] at h
    cases h
  | layoutRead | drafted | accepted | stale | refused | refreshed | unrefreshed =>
    exact mt (hsame hlost.symm).mp hp
  | unreadable | held | missing | written | uncopied =>
    exact Iff.trans hp (hsame hlost.symm).symm
  | inverted | crashed => exact iff_of_true rfl (hcons.mpr (Or.inl hlost.symm))

theorem Explained.shift {moments : List Moment} {c : Coordinator} {s : Stage} {p : Point}
    (hp : Explained moments c (.waiting s)) (h : Shift s p) :
    Explained moments (c.shifted p) p := by
  cases h with
  | recancel f hs =>
    cases s with
    | checking | copying =>
      cases hs
      exact hp
    | _ => cases hs
  | switch h =>
    have hcrashed := explained_stage.mp hp
    exact explained_stage.mpr hcrashed
  | hire h =>
    have hcrashed := explained_stage.mp hp
    exact hcrashed
  | abandon hs hcrashed =>
    refine Or.inl ⟨rfl, rfl, ?_⟩
    cases s with
    | checking | copying =>
      cases hs
      exact hp.mp hcrashed
    | _ => cases hs

theorem upkeep_explained (node : NodeId) (settings : Settings) :
    Upkeep { node, settings } Represented (fun _ => Tidy) Explained fun _ _ => True where
  at_start := trivial
  rest _ _ := trivial
  begun hidle hgoing _ := not_workerLost_begin hidle hgoing
  waiting hp := hp
  aside {moments _ _ s} haside hs hp := by
    have hsame := workerLost_aside moments hs haside
    cases s with
    | checking | copying => exact Iff.trans hp hsame.symm
    | _ => exact mt hsame.mp hp
  shift _ hp h := hp.shift h
  entry _ _ hlist hbase _ hs hp h hlost := hp.entry hs hlist hbase h hlost
  step _ hbase _ hp h := hp.step hbase h
  idle_of_over _ _ := trivial

/-! ## Along a run -/

/-- No operation of the cycle at the point can be refused: every target can be closed, whatever its
chunks came to, the leading regions of every layout that lists the ready segments can be joined,
these segments can be marked, and no more wait than did. -/
def Point.Sound (node : NodeId) : Point → Prop
  | .passed _ w => (∃ fates, w.close = .ok fates) ∧ ∀ t ∈ w.targets, ∀ copied failure,
      (∃ s, t.segment.attempted copied failure = .ok s) ∧
        ∃ s, t.segment.interrupted copied = .ok s
  | .listing _ base _ => ∀ ready,
      (base.replicateCopied node ready).JoinsTo (base.replicateCopied node ready).collapse
  | .settled d ready _ => ∃ tracked, Listing.markListed ready d.tracked = .ok tracked
  | .through d => countIn .transferred d.tracked ≤ d.awaiting
  | _ => True

theorem Point.sound (node : NodeId) {moments : List Moment} {p : Point}
    (hrep : Represented moments p) (hreckoned : Reckoned p) : p.Sound node := by
  cases p with
  | passed d w =>
    obtain ⟨hfaithful, hserves⟩ := hrep
    have hsound : ∀ s ∈ d.tracked, s.isDue = true → s.Valid := fun s hs _ =>
      hfaithful.tracks.valid s hs
    refine ⟨hserves.close hsound, fun t ht copied failure => ?_⟩
    obtain ⟨hvalid, hdue⟩ := hserves.valid_isDue hsound ht
    exact ⟨⟨_, attempted_eq hvalid hdue copied failure⟩, ⟨_, interrupted_eq hvalid copied⟩⟩
  | listing d base left => exact fun ready => Layout.joinsTo_collapse _
  | settled d ready committed =>
    exact ⟨_, Listing.markListed_eq_map (Faithful.tracks hrep).valid ready⟩
  | through d => exact hreckoned
  | _ => trivial

/-- Once a layout and a trim mark are read, the requirement can be computed and reconciled with the
published list. -/
theorem exists_reconcile {moments : List Moment} {c : Coordinator} {layout : Layout}
    (hlist : Tidy c.tracked) (hrep : Represented moments (.waiting (.readingTrimMark layout)))
    (trimMark : Address) :
    ∃ required, layout.requirement c.node trimMark = .ok required ∧
      ∃ merged, reconcile c.tracked required = .ok merged := by
  have hrequired := Layout.requirement_eq hrep.2 c.node trimMark
  exact ⟨_, hrequired, _,
    reconcile_eq (reconcilable hrep.2 hlist.ascending hlist.valid hrequired)⟩

/-- When a cycle has read a layout and a trim mark, the requirement is computed and reconciled with
the published list without an error, and at every later point that a turn passes no operation is
refused. So if a cycle fails, another runs, or shutdown was signalled, or the layout or the trim
mark could not be read, or a worker died. -/
theorem fails_only_from_outside {node : NodeId} {settings : Settings} {moments : List Moment}
    {m : Moment} {c : Coordinator} (hrun : Run { node, settings } (m :: moments) c)
    (hlawful : Lawful (m :: moments)) :
    (∀ layout trimMark, m.happening = .reply (.readingTrimMark layout) (.ok trimMark) →
      ∃ required, layout.requirement node trimMark = .ok required ∧
        ∃ merged, reconcile m.before.tracked required = .ok merged) ∧
      (∀ b p, m.Passes b p → p.Sound node) ∧
      ∀ e, m.outcome = some (.error e) →
        m.ToldOf e ∨ e = .workerCrashed ∧ WorkerLost (m :: moments) := by
  have inv := invariant_reckoned node settings
  have up : Upkeep { node, settings } (fun moments p => Represented moments p ∧ Reckoned p)
      (fun _ => Tidy) Explained fun _ _ => True :=
    (upkeep_explained node settings).of_base And.left id
  obtain ⟨hbefore, possible⟩ := hrun.before
  refine ⟨fun layout trimMark hreply => ?_, fun b p hp => ?_, fun e houtcome => ?_⟩
  · have hheld := inv.run hbefore fun m' hm' => hlawful m' (List.mem_cons_of_mem _ hm')
    have hnode : m.before.node = node := hbefore.sameTask.node_eq
    rw [hreply] at possible
    rw [← hnode]
    exact exists_reconcile hheld.1 (hheld.2 _ possible).1 trimMark
  · obtain ⟨⟨hrep, hreckoned⟩, -⟩ := up.passes inv rfl hrun hlawful hp
    exact Point.sound node hrep hreckoned
  · rcases m.turn_cases possible with hstill | ⟨b, q, hopens, hleads⟩
    · rcases hstill.outcome with hnone | ⟨hbegin, ⟨hrunning, hkind⟩ | ⟨-, hstopped, hkind⟩⟩
      · rw [hnone] at houtcome
        cases houtcome
      · rw [hkind] at houtcome
        cases houtcome
        exact Or.inl (Or.inl ⟨hbegin, hrunning, rfl⟩)
      · rw [hkind] at houtcome
        cases houtcome
        exact Or.inl (Or.inr (Or.inl ⟨hstopped, rfl⟩))
    · obtain ⟨b', p, hp, hturn⟩ := Moment.exists_passes_end hopens hleads
      have hgoing : m.happening ≠ .shutdown := by
        intro hshutdown
        rw [Moment.outcome, Moment.turn, hshutdown] at houtcome
        cases houtcome
      obtain ⟨published, rfl⟩ := Point.eq_over_of_turn? hturn houtcome
      rcases (up.passes inv rfl hrun hlawful hp).2 with
        ⟨-, he, hlost⟩ | ⟨-, ⟨-, he, hstopped⟩ | ⟨-, m', hhead, hunread⟩⟩
      · exact Or.inr ⟨he, hlost⟩
      · rw [hp.stopped_eq hgoing] at hstopped
        exact Or.inl (Or.inr (Or.inl ⟨hstopped, he⟩))
      · cases hhead
        exact Or.inl (Or.inr (Or.inr hunread))

/-- The next cycle after a failed copy cannot read the layout. -/
def unreadMoment (metrics : Metrics) : Moment :=
  ⟨(halfFailed metrics).begin.coordinator, .reply .readingLayout (.error (.transfer "no reply"))⟩

theorem fails_only_from_outside_unread :
    ∃ metrics moments c, Run { node := "n", settings := {} } (unreadMoment metrics :: moments) c ∧
      (unreadMoment metrics).outcome = some (.error (.transfer "no reply")) ∧
      (unreadMoment metrics).ToldOf (.transfer "no reply") ∧
      ∃ required, halfHeld.requirement "n" (-1) = .ok required ∧
        ∃ merged, reconcile halfRead.tracked required = .ok merged := by
  obtain ⟨metrics, hfailed⟩ := run_failMoments
  have hbegun := hfailed.cons .begin trivial
  have hunread := hbegun.cons (.reply .readingLayout (.error (.transfer "no reply"))) rfl
  have hlawful : Lawful (unreadMoment metrics :: ⟨halfFailed metrics, .begin⟩ :: failMoments) :=
    List.forall_mem_cons.mpr ⟨trivial, List.forall_mem_cons.mpr ⟨trivial, lawful_failMoments⟩⟩
  obtain ⟨-, -, htold⟩ := fails_only_from_outside hunread hlawful
  obtain ⟨hread, -, -⟩ := fails_only_from_outside run_halfMoments lawful_halfMoments
  refine ⟨metrics, _, _, hunread, rfl, ?_, hread halfHeld (-1) rfl⟩
  rcases htold _ rfl with htold | ⟨he, -⟩
  · exact htold
  · cases he

end Coordinator

end LogRepair
