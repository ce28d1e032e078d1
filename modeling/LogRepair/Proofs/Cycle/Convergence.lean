import LogRepair.Proofs.Cycle.Filled
import LogRepair.Proofs.Cycle.Held

/-!
# A calm cycle restores everything

If nothing goes wrong around a cycle, it copies all of its draft, the store accepts its first
proposal, and the next cycle has nothing to do.

* `Coordinator.Copies`: the copying goes well, and takes fewer replies than are left.
* `Coordinator.Converging`: where such a cycle can be, point by point.
* `Coordinator.calm_cycle_converges`: from whatever list a run has led to, one calm cycle restores
  everything and leaves the next one nothing to do.
-/

namespace LogRepair

open TrackedSegment

/-- Every candidate was transferred. -/
structure Report.Clean (r : Report) : Prop where
  failed_eq : r.failed = 0
  cancelled_eq : r.cancelled = 0
  transferred_eq : r.transferred = r.candidates

namespace Draft

theorem clean_filled (d : Draft) : d.filled.report.Clean := ⟨rfl, rfl, rfl⟩

/-- The draft once everything is copied, as it goes to the layout. -/
def awaited (d : Draft) : Draft :=
  { d.filled with awaiting := countIn .transferred d.filled.tracked }

/-- A bound on the replies that it takes to copy the draft: two for each address. -/
def cost (d : Draft) : Nat := ((d.tracked.filter (·.isDue)).map (2 * ·.length.toNat)).sum

end Draft

namespace Coordinator

/-! ## What the cycle begins with -/

/-- A cycle of `b` that begins beside the store works on the draft, and its settings are usable. -/
structure Prepared (b : Coordinator) (store : LayoutStore) (d : Draft) : Prop where
  valid_layout : store.layout.Valid
  epoch_lt : store.layout.epoch.toNat + 1 < UInt64.size
  going : b.stopped = false
  batchSize_ne : b.settings.batchSize ≠ 0
  batchSize_lt : b.settings.batchSize.toNat < 2 ^ 63
  attempts_ne : b.settings.maxProposeAttempts ≠ 0
  draft_ok : b.draft store.layout store.trimMark = .ok d
  draft_eq : d = draftOf store.layout store.trimMark d.tracked
  tracks : Tracks store.layout store.trimMark d.tracked
  allOrNone : ∀ s ∈ d.tracked, store.layout.AllOrNone store.trimMark s.toSpan

section

variable {b c : Coordinator} {store : LayoutStore} {d : Draft}

theorem Prepared.layout_eq (h : Prepared b store d) : d.layout = store.layout :=
  congrArg Draft.layout h.draft_eq

theorem Prepared.trimMark_eq (h : Prepared b store d) : d.trimMark = store.trimMark :=
  congrArg Draft.trimMark h.draft_eq

/-- A draft that needs no copy is complete from the beginning. -/
theorem Prepared.filled_eq (h : Prepared b store d) (hnone : d.tracked.filter (·.isDue) = []) :
    d.filled = d := by
  have hsame : d.tracked.map (·.filled) = d.tracked := by
    refine (List.map_congr_left fun s hs => ?_).trans (List.map_id _)
    exact if_neg (List.filter_eq_nil_iff.mp hnone s hs)
  rw [h.draft_eq] at hnone hsame ⊢
  have hcandidates : (draftOf store.layout store.trimMark d.tracked).report.candidates = 0 := by
    rw [draftOf, List.countP_eq_length_filter]
    exact congrArg List.length hnone
  rw [Draft.filled, hsame, hcandidates]
  rfl

end

/-! ## The copying -/

/-- The workload copies the draft, nothing went wrong, and it takes fewer replies than are left. -/
structure Copies (d : Draft) (left : Nat) (w : Workload) : Prop where
  serves : Serves d w
  exact : w.Exact
  cost_lt : w.cost < left

section

variable {b c : Coordinator} {store : LayoutStore} {d : Draft} {left : Nat} {w w' : Workload}

theorem exact_targetOf (h : Prepared b store d) (orders : SameOrders b c) {s : TrackedSegment}
    (hs : s.Valid) (layout : Layout) : (c.targetOf layout s).Exact 0 := by
  refine ⟨orders.stopped_eq.trans h.going, rfl, rfl, ?_, ?_⟩
  · refine Cursor.upward_ofSpan hs.first_nonneg ?_ ?_
    · rw [orders.settings_eq]
      exact h.batchSize_ne
    · rw [orders.settings_eq]
      exact h.batchSize_lt
  · change 0 + 0 + s.length = s.length
    rw [zero_add, zero_add]

theorem copies_ofTargets (h : Prepared b store d) (orders : SameOrders b c) (hleft : d.cost < left)
    (workers : Nat) :
    Copies d left
      (.ofTargets ((d.tracked.filter (·.isDue)).map (c.targetOf d.layout)) workers) := by
  have hvalid : ∀ s ∈ d.tracked.filter (·.isDue), s.Valid := fun s hs =>
    h.tracks.valid s (List.mem_filter.mp hs).1
  refine ⟨?_, Workload.exact_ofTargets ?_ ?_ ?_, ?_⟩
  · rw [Serves, Workload.ofTargets, List.map_map]
    exact List.map_id _
  · simp only [List.forall_mem_map]
    exact fun s hs => exact_targetOf h orders (hvalid s hs) d.layout
  · simp only [List.forall_mem_map]
    exact fun s _ => ⟨_, rfl⟩
  · simp only [List.forall_mem_map]
    exact fun s hs => (hvalid s hs).first_nonneg
  · refine Nat.lt_of_le_of_lt (Nat.le_of_eq ?_) hleft
    rw [Workload.cost, Workload.ofTargets, List.map_map]
    rfl

theorem Copies.take (h : Copies d left w) {i : Nat} {span : Span}
    (htake : w.take = (w', some (i, span))) : Copies d left (w'.park (.checking i span)) :=
  ⟨(Workload.segments_take htake).trans h.serves, h.exact.take htake,
    Nat.lt_of_le_of_lt (h.exact.cost_take_le htake) h.cost_lt⟩

theorem Copies.retire (h : Copies d left w) (htake : w.take = (w', none)) :
    Copies d left w'.retire ∧ w'.retire.queue = [] := by
  obtain ⟨hexact, hqueue⟩ := h.exact.retire htake
  refine ⟨⟨?_, hexact, ?_⟩, hqueue⟩
  · exact (Workload.segments_retire w').trans ((Workload.segments_take htake).trans h.serves)
  · rw [Workload.cost_retire, h.exact.cost_none htake]
    exact h.cost_lt

/-- It does not matter which worker is at its turn, and in which order the others wait. -/
theorem Copies.of_perm (h : Copies d left w) (htargets : w'.targets = w.targets)
    (hqueue : w'.queue = w.queue) (hcrashed : w'.crashed = w.crashed)
    (hperm : w'.others.Perm w.others) : Copies d left w' := by
  refine ⟨?_, h.exact.of_perm htargets hqueue hcrashed hperm, ?_⟩
  · rw [Serves, htargets]
    exact h.serves
  · rw [Workload.cost_of_perm htargets hperm]
    exact h.cost_lt

theorem Copies.note {errand : Errand} {o : ChunkOutcome} (h : Copies d left (w.park errand))
    (hamount : o.amount = errand.load) (hfailure : o.failure? = none) (hkept : o ≠ .dropped) :
    Copies d (left - 1) (w.note errand.target o) := by
  refine ⟨(Workload.segments_note w _ o).trans h.serves, h.exact.note hamount hfailure hkept, ?_⟩
  have hlt := h.cost_lt
  have hpos : 1 ≤ errand.cost := by cases errand <;> simp [Errand.cost]
  rw [Workload.cost_park] at hlt
  rw [Workload.cost_note]
  omega

theorem Copies.proceed {errand errand' : Errand} (h : Copies d left (w.park errand))
    (htarget : errand'.target = errand.target) (hload : errand'.load = errand.load)
    (hupright : errand'.Upright) (hcost : errand'.cost < errand.cost) :
    Copies d (left - 1) (w.park errand') := by
  refine ⟨h.serves, h.exact.proceed htarget hload hupright, ?_⟩
  have hlt := h.cost_lt
  rw [Workload.cost_park] at hlt ⊢
  omega

/-- Closing the workload fills the draft. -/
theorem Copies.close (hprepared : Prepared b store d) (h : Copies d left w)
    (hothers : w.others = []) (hqueue : w.queue = []) :
    ∃ fates, w.close = .ok fates ∧
      { d with
        tracked := replaceCandidates d.tracked (fates.map (·.1))
        report := tallyFates d.report fates } = d.filled := by
  have hdue : ∀ t ∈ w.targets, t.segment.Valid ∧ t.segment.isDue = true := fun t ht =>
    h.serves.valid_isDue (fun s hs _ => hprepared.tracks.valid s hs) ht
  have hfates : w.targets.map (fun t => (t.segment.asTransferred, false)) =
      (d.tracked.filter (·.isDue)).map fun s => (s.asTransferred, false) := by
    rw [← h.serves, List.map_map]
    rfl
  refine ⟨_, h.exact.close_eq hothers hqueue hdue, ?_⟩
  have hcandidates : (d.tracked.filter (·.isDue)).length = d.report.candidates := by
    rw [← List.countP_eq_length_filter, hprepared.draft_eq]
    rfl
  rw [hfates, tallyFates_asTransferred, hcandidates, List.map_map]
  exact congrArg (fun tracked => { d with
    tracked, report := { d.report with
      transferred := d.report.candidates, cancelled := 0, failed := 0 } })
    (replaceCandidates_asTransferred d.tracked)

end

/-! ## The points of the cycle -/

/-- The cycle has restored all of its draft, and the store lists the node for it. -/
structure Achieves (node : NodeId) (before after : LayoutStore) (d : Draft)
    (tracked : List TrackedSegment) (report : Report) : Prop where
  fulfils : Fulfils d tracked
  clean : report.Clean
  lists : Lists node d before after

/-- Where a calm cycle of `b` can be that works on the draft, with so many replies left at most; the
store was `before` when it began and is `after` now. While it copies the bounds are strict, since
the proposal takes one more reply. -/
def Converging (b : Coordinator) (before : LayoutStore) (d : Draft) (left : Nat)
    (after : LayoutStore) : Point → Prop
  | .waiting .readingLayout => after = before ∧ d.cost + 2 < left
  | .waiting (.readingTrimMark layout) =>
    after = before ∧ layout = before.layout ∧ d.cost + 1 < left
  | .drafted d' => after = before ∧ d' = d ∧ d.cost < left
  | .working d' w => after = before ∧ d' = d ∧ Copies d left w
  | .passed d' w => after = before ∧ d' = d ∧ Copies d left w ∧ w.queue = []
  | .waiting (.checking d' w i span) =>
    after = before ∧ d' = d ∧ Copies d left (w.park (.checking i span))
  | .waiting (.copying d' w i present batch) =>
    after = before ∧ d' = d ∧ Copies d left (w.park (.copying i present batch))
  | .copied d' | .unlisted d' => after = before ∧ d' = d.filled ∧ 1 ≤ left
  | .listing d' base attempts =>
    after = before ∧ d' = d.awaited ∧ 1 ≤ left ∧ base = before.layout ∧ attempts ≠ 0 ∧
      countIn .transferred d.filled.tracked ≠ 0
  | .waiting (.proposing d' base ready proposal _) =>
    after = before ∧ d' = d.awaited ∧ 1 ≤ left ∧ base = before.layout ∧
      Listing.plan b.node b.settings.mergeSegments d.filled.tracked before.layout
        before.trimMark = .propose ready proposal
  | .settled d' ready _ =>
    d' = d.awaited ∧ ready = before.layout.claimable d.filled.tracked before.trimMark ∧
      Lists b.node d before after
  | .through d' => Achieves b.node before after d d'.tracked d'.report
  | .over published outcome =>
    ∃ tracked report, published = some tracked ∧ outcome = .ok report ∧
      Achieves b.node before after d tracked report
  | .lost _ _ | .waiting (.refreshing _ _) => False

section

variable {b c : Coordinator} {before after : LayoutStore} {d : Draft} {left : Nat} {p q : Point}

theorem converging_stage {d' : Draft} {w : Workload} {errand : Errand} :
    Converging b before d left after (.waiting (errand.stage d' w)) ↔
      after = before ∧ d' = d ∧ Copies d left (w.park errand) := by
  cases errand <;> exact Iff.rfl

/-- Listing what is copied lists the node for all that the draft had to copy. -/
theorem Prepared.lists_of_candidate (h : Prepared b before d) {layout : Layout}
    (hregions : layout.regions =
      (Listing.candidate b.node b.settings.mergeSegments
        (before.layout.claimable d.filled.tracked before.trimMark) before.layout).regions)
    (hvalid : layout.Valid) (hprecedes : before.layout.Precedes layout)
    (hlayout : after.layout = layout) (htrim : after.trimMark = before.trimMark) :
    Lists b.node d before after := by
  refine ⟨hlayout ▸ hvalid, hlayout ▸ hprecedes, htrim, fun s hs hdue r hr x hxr hxs => ?_⟩
  rw [hlayout, hregions] at hr
  exact heldBy_candidate_filled h.valid_layout h.tracks hs hdue hr hxr hxs

/-- A cycle that goes on plans for what the store had when it began. -/
theorem Prepared.plan_eq (h : Prepared b before d) (orders : SameOrders b c) :
    Listing.plan c.node c.settings.mergeSegments d.awaited.tracked before.layout
        d.awaited.trimMark =
      Listing.plan b.node b.settings.mergeSegments d.filled.tracked before.layout
        before.trimMark := by
  rw [← orders.node_eq, ← orders.settings_eq, ← h.trimMark_eq]
  rfl

theorem Converging.step (h : Prepared b before d) (orders : SameOrders b c)
    (hp : Converging b before d left after p) (hstep : Step c p q) :
    Converging b before d left after q := by
  cases hstep with
  | skip hnone =>
    obtain ⟨rfl, rfl, hleft⟩ := hp
    exact ⟨rfl, (h.filled_eq hnone).symm, Nat.one_le_of_lt hleft⟩
  | copy =>
    obtain ⟨rfl, rfl, hleft⟩ := hp
    exact ⟨rfl, rfl, copies_ofTargets h orders hleft _⟩
  | take htake => exact ⟨hp.1, hp.2.1, hp.2.2.take htake⟩
  | retire htake => exact ⟨hp.1, hp.2.1, hp.2.2.retire htake⟩
  | replace | miss => exact hp.elim
  | turn hothers =>
    refine converging_stage.mpr ⟨hp.1, hp.2.1, ?_⟩
    exact hp.2.2.1.of_perm rfl rfl rfl (Workload.perm_others_turn hothers)
  | crash hothers hcrashed =>
    rw [hp.2.2.1.exact.crashed_eq] at hcrashed
    cases hcrashed
  | refuse hothers hcrashed hclose =>
    obtain ⟨rfl, rfl, hcopies, hqueue⟩ := hp
    obtain ⟨fates, hok, -⟩ := hcopies.close h hothers hqueue
    rw [hok] at hclose
    cases hclose
  | close hothers hcrashed hclose =>
    obtain ⟨rfl, rfl, hcopies, hqueue⟩ := hp
    obtain ⟨fates, hok, hfilled⟩ := hcopies.close h hothers hqueue
    rw [hok] at hclose
    cases hclose
    exact ⟨rfl, hfilled, Nat.one_le_of_lt hcopies.cost_lt⟩
  | stop hstopped =>
    rw [orders.stopped_eq, h.going] at hstopped
    cases hstopped
  | goOn => exact hp
  | rest hnone =>
    obtain ⟨rfl, rfl, -⟩ := hp
    refine ⟨fulfils_filled h.tracks hnone, d.clean_filled, lists_refl h.valid_layout ?_⟩
    intro s hs hdue
    rw [isDue_eq_false_of_countIn hnone hs] at hdue
    cases hdue
  | list hsome =>
    obtain ⟨rfl, rfl, hleft⟩ := hp
    refine ⟨rfl, rfl, hleft, h.layout_eq, fun hzero => h.attempts_ne ?_, hsome⟩
    rw [orders.settings_eq] at hzero
    exact UInt64.toNat_inj.mp hzero
  | exhaust => exact absurd rfl hp.2.2.2.2.1
  | defer hplan =>
    -- Everything is copied, so whatever waits for the layout can be claimed.
    obtain ⟨rfl, rfl, -, rfl, -, hsome⟩ := hp
    rw [h.plan_eq orders] at hplan
    exact absurd (Listing.claimable_eq_nil_of_plan hplan)
      (claimable_filled_ne_nil h.valid_layout h.tracks hsome)
  | reflect hplan =>
    obtain ⟨rfl, rfl, -, rfl, -, -⟩ := hp
    rw [h.plan_eq orders] at hplan
    obtain ⟨rfl, hsame⟩ := Listing.eq_of_plan_eq_reflected hplan
    refine ⟨rfl, rfl, h.lists_of_candidate ?_ h.valid_layout (.refl _) rfl rfl⟩
    rw [hsame]
  | propose hplan =>
    obtain ⟨rfl, rfl, hleft, rfl, -, -⟩ := hp
    rw [h.plan_eq orders] at hplan
    exact ⟨rfl, rfl, hleft, rfl, hplan⟩
  | skipMarks hmarks =>
    obtain ⟨rfl, rfl, -⟩ := hp
    have hok := markListed_filled h.tracks
    rw [Draft.awaited, hok] at hmarks
    cases hmarks
  | mark hmarks =>
    obtain ⟨rfl, rfl, hlists⟩ := hp
    have hok := markListed_filled h.tracks
    rw [Draft.awaited, hok] at hmarks
    cases hmarks
    exact ⟨fulfils_relist h.valid_layout h.tracks, ⟨rfl, rfl, rfl⟩, hlists⟩
  | conclude =>
    obtain ⟨hfailed, hcancelled, htransferred⟩ := hp.clean
    exact ⟨_, _, rfl, rfl, hp.fulfils, ⟨hfailed, hcancelled, htransferred⟩, hp.lists⟩

/-- A calm reply takes one of those that are left. -/
theorem Converging.entry (h : Prepared b before d) (orders : SameOrders b c)
    (htracked : c.tracked = b.tracked) {s : Stage} {answer : s.query.Reply}
    (hp : Converging b before d left after (.waiting s))
    (hcalm : (Happening.reply s answer).Calm after c) (hentry : Entry c s answer q) :
    1 ≤ left ∧ Converging b before d (left - 1) (after.after (.reply s answer)) q := by
  have hdraft := (draft_congr orders htracked before.layout before.trimMark).trans h.draft_ok
  cases hentry with
  | layoutUnread | trimMarkUnread => cases hcalm
  | layoutRead =>
    cases hcalm
    obtain ⟨rfl, hleft⟩ := hp
    exact ⟨by omega, rfl, rfl, by omega⟩
  | undrafted hrefused =>
    cases hcalm
    obtain ⟨rfl, rfl, -⟩ := hp
    rw [hdraft] at hrefused
    cases hrefused
  | drafted hdrafted =>
    cases hcalm
    obtain ⟨rfl, rfl, hleft⟩ := hp
    rw [hdraft] at hdrafted
    cases hdrafted
    exact ⟨by omega, rfl, rfl, by omega⟩
  | unreadable =>
    obtain ⟨present, heq⟩ := hcalm
    cases heq
  | @inverted d' w i span present hspan =>
    -- A cursor that walks upwards hands out no such chunk.
    have hupright := hp.2.2.exact.upright (w.worker, .checking i span) (List.mem_append_right _
      List.mem_cons_self)
    exact absurd hspan (Int64.not_lt.mpr hupright)
  | @held d' w i span present hmissing =>
    obtain ⟨rfl, rfl, hcopies⟩ := hp
    refine ⟨Nat.one_le_of_lt hcopies.cost_lt, rfl, rfl, ?_⟩
    have hnone : (Batch.missing span present).size = 0 :=
      congrArg List.length (List.isEmpty_iff.mp hmissing)
    have hparts := Batch.held_add_missing span present
    rw [hnone] at hparts
    exact hcopies.note ((UInt64.add_zero _).symm.trans hparts) rfl nofun
  | @missing d' w i span present hmissing =>
    obtain ⟨rfl, rfl, hcopies⟩ := hp
    refine ⟨Nat.one_le_of_lt hcopies.cost_lt, rfl, rfl, ?_⟩
    exact hcopies.proceed rfl (Batch.held_add_missing span present) trivial (Nat.lt_succ_self 1)
  | @written d' w i present batch addresses =>
    obtain ⟨rfl, rfl, hcopies⟩ := hp
    obtain ⟨_, heq, hsubset⟩ := hcalm
    cases heq
    rw [BatchResult.ofWritten_eq hsubset]
    exact ⟨Nat.one_le_of_lt hcopies.cost_lt, rfl, rfl, hcopies.note rfl rfl nofun⟩
  | uncopied | crashed =>
    obtain ⟨addresses, heq, -⟩ := hcalm
    cases heq
  | @accepted d' base proposal ready attempts =>
    obtain ⟨rfl, rfl, hleft, rfl, hplan⟩ := hp
    obtain ⟨rfl, hproposal, -⟩ := Listing.eq_of_plan_eq_propose hplan
    obtain ⟨hvalid, hprecedes, -⟩ := Listing.known_of_plan h.valid_layout h.epoch_lt hplan
    refine ⟨hleft, rfl, rfl, h.lists_of_candidate ?_ hvalid hprecedes ?_ ?_⟩
    · rw [hproposal]
      rfl
    · exact congrArg (·.1.layout) (LayoutStore.propose_eq_of_plan hplan)
    · exact congrArg (·.1.trimMark) (LayoutStore.propose_eq_of_plan hplan)
  | stale | refused =>
    -- Nobody else writes to the store, so its layout is still the base.
    obtain ⟨rfl, rfl, hleft, rfl, hplan⟩ := hp
    have hrefused := hcalm.trans (congrArg Prod.snd (LayoutStore.propose_eq_of_plan hplan))
    cases hrefused
  | refreshed | unrefreshed => exact hp.elim

theorem calmInvariant_converging (h : Prepared b before d) :
    CalmInvariant b before fun n after p =>
      ∃ left, n + left ≤ d.cost + 3 ∧ Converging b before d left after p where
  begun := ⟨d.cost + 3, by omega, rfl, by omega⟩
  alive {n σ s w} hp hw := by
    obtain ⟨left, -, hp⟩ := hp
    cases s with
    | checking | copying =>
      cases hw
      exact hp.2.2.exact.crashed_eq
    | _ => cases hw
  switch hp hk := by
    obtain ⟨left, hle, hp⟩ := hp
    obtain ⟨hstore, hdraft, hcopies⟩ := converging_stage.mp hp
    refine ⟨left, hle, converging_stage.mpr ⟨hstore, hdraft, ?_⟩⟩
    exact hcopies.of_perm rfl rfl rfl (Workload.perm_others_switch hk)
  hire hp _ := by
    obtain ⟨left, hle, hp⟩ := hp
    obtain ⟨hstore, hdraft, hcopies⟩ := converging_stage.mp hp
    exact ⟨left, hle, hstore, hdraft, hcopies.of_perm rfl rfl rfl (.refl _)⟩
  entry orders htracked hp hcalm hentry := by
    obtain ⟨left, hle, hp⟩ := hp
    obtain ⟨hpos, hq⟩ := hp.entry h orders htracked hcalm hentry
    exact ⟨left - 1, by omega, hq⟩
  step orders hp hstep := by
    obtain ⟨left, hle, hp⟩ := hp
    exact ⟨left, hle, hp.step h orders hstep⟩

/-! ## What the cycle leaves behind -/

/-- The list is at rest beside the store as it is then. -/
theorem Achieves.atRest (h : Prepared b before d) {tracked : List TrackedSegment} {report : Report}
    (hdone : Achieves b.node before after d tracked report) :
    AtRest after.layout after.trimMark tracked := by
  obtain ⟨⟨hspans, hvalid, hrestored⟩, -, hlists⟩ := hdone
  have hcovers := hlists.precedes.covers_iff
  have htracks := (h.tracks.of_spans hspans hvalid).of_covers hcovers
  rw [hlists.trimMark_eq]
  refine { htracks with allOrNone := fun s hs => ?_, restored := hrestored }
  obtain ⟨t, ht, hspan⟩ : ∃ t ∈ d.tracked, t.toSpan = s.toSpan := by
    rw [← List.mem_map, ← hspans]
    exact List.mem_map_of_mem hs
  have hall := h.allOrNone t ht
  simp only [Layout.AllOrNone, hcovers]
  rwa [hspan] at hall

/-- The layout lists the node for what a cycle from an empty list need not copy. -/
theorem heldBy_of_draft {l : Layout} {trimMark : Address} (hl : l.Valid) (hnil : b.tracked = [])
    (hdraft : b.draft l trimMark = .ok d) {s : TrackedSegment} (hs : s ∈ d.tracked)
    (hdue : s.isDue = false) {r : Region} (hr : r ∈ l.regions) {x : Address} (hxr : x ∈ r.span)
    (hxs : x ∈ s.toSpan) : r.heldBy b.node = true := by
  have hrequired := Layout.requirement_eq hl b.node trimMark
  have hrec : Reconcilable [] _ :=
    reconcilable hl .nil (fun _ hs => absurd hs List.not_mem_nil) hrequired
  rw [draft_eq hl (hnil ▸ .nil) (hnil ▸ hrec.valid_old) hrequired, hnil] at hdraft
  cases hdraft
  rcases exists_complete_of_reconciled hrec (List.mem_filter.mp hs).1
    (isComplete_of_isDue_eq_false hdue) hxs with ⟨f, hf, hcomplete, hxf⟩ | ⟨o, ho, -⟩
  · obtain ⟨t, ht, -, rfl⟩ := (Layout.mem_requirement_iff hl hrequired).mp hf
    have hxt := ((Layout.mem_neededSpan_iff (hl.region ht)).mp hxf).1
    rw [hl.eq_of_mem_span hr ht hxr hxt, ← Layout.isComplete_need]
    exact hcomplete
  · cases ho

/-- After a cycle from an empty list the store lists the node for everything above the trim mark. -/
theorem Achieves.heldBy (h : Prepared b before d) (hnil : b.tracked = [])
    {tracked : List TrackedSegment} {report : Report}
    (hdone : Achieves b.node before after d tracked report) {r : Region}
    (hr : r ∈ after.layout.regions) {x : Address} (hx : x ∈ r.span) (htrim : after.trimMark < x) :
    r.heldBy b.node = true := by
  have hlists := hdone.lists
  obtain ⟨t, ht, hxt⟩ : before.layout.Covers x :=
    (hlists.precedes.covers_iff x).mp ⟨r, hr, hx⟩
  rw [hlists.trimMark_eq] at htrim
  obtain ⟨s, hs, hxs⟩ := h.tracks.exists_mem x ⟨t, ht, hxt⟩ htrim
  cases hdue : s.isDue with
  | true => exact hlists.held s hs hdue r hr x hx hxs
  | false =>
    have hheld := heldBy_of_draft h.valid_layout hnil h.draft_ok hs hdue ht hxt hxs
    exact hlists.precedes.heldBy h.valid_layout hlists.valid ht hr hxt hx hheld

end

/-! ## Convergence -/

section

variable {node : NodeId} {settings : Settings} {start b : Coordinator} {store : LayoutStore}

/-- A coordinator is refused only for a bound of zero. -/
theorem create_eq_ok_iff :
    create node settings = .ok start ↔
      start = { node, settings } ∧ ∀ bound : Settings.Bound, bound.value settings ≠ 0 := by
  unfold create Settings.validate
  cases hfind : Settings.Bound.all.find? fun bound => bound.value settings = 0 with
  | some bound =>
    refine ⟨nofun, fun h => absurd ?_ (h.2 bound)⟩
    simpa using List.find?_some hfind
  | none =>
    have hall : ∀ bound : Settings.Bound, bound.value settings ≠ 0 := fun bound => by
      have hne := List.find?_eq_none.mp hfind bound (by cases bound <;> decide)
      simpa using hne
    exact ⟨fun h => ⟨(Except.ok.inj h).symm, hall⟩, fun h => congrArg Except.ok h.1.symm⟩

theorem exists_prepared (hbounds : ∀ bound : Settings.Bound, bound.value b.settings ≠ 0)
    (hsize : b.settings.batchSize.toNat < 2 ^ 63) (hgoing : b.stopped = false)
    (hl : store.layout.Valid) (hepoch : store.layout.epoch.toNat + 1 < UInt64.size)
    (htidy : Tidy b.tracked) : ∃ d, Prepared b store d := by
  have hrequired := Layout.requirement_eq hl b.node store.trimMark
  have hdraft := draft_eq hl htidy.ascending htidy.valid hrequired
  refine ⟨_, hl, hepoch, hgoing, hbounds .batchSize, hsize, hbounds .maxProposeAttempts, hdraft,
    rfl, tracks_draft hl htidy.ascending htidy.valid hrequired, fun s hs => ?_⟩
  exact allOrNone_reconciled hl htidy.ascending htidy.valid hrequired (List.mem_filter.mp hs).1

/-- A calm cycle can always be brought to its end, and takes so many replies at most. Then every
candidate was transferred and everything is restored, and the next calm cycle is quiet. If nothing
was tracked before, the store now lists the node in every stripe of every region with an address
above the trim mark. -/
theorem calm_cycle_converges {earlier : List Moment} (hcreate : create node settings = .ok start)
    (hrun : Run start earlier b) (hlawful : Lawful earlier) (hidle : b.stage = none)
    (hgoing : b.stopped = false) (hsize : settings.batchSize.toNat < 2 ^ 63)
    (hl : store.layout.Valid) (hepoch : store.layout.epoch.toNat + 1 < UInt64.size) :
    ∃ bound, ∀ {moments : List Moment} {store' : LayoutStore} {c : Coordinator},
      CalmRun b store moments store' c →
        replies moments ≤ bound ∧ CanEnd b store moments ∧
        (c.stage = none →
          EndsWith moments Report.Clean ∧ (∀ s ∈ c.tracked, s.state = .restored) ∧
          (∀ {later : List Moment} {store'' : LayoutStore} {c' : Coordinator},
            CalmRun c store' later store'' c' → Quiet c store' later store'' c') ∧
          (b.tracked = [] → ∀ r ∈ store'.layout.regions, ∀ x ∈ r.span, store'.trimMark < x →
            r.heldBy node = true)) := by
  obtain ⟨rfl, hbounds⟩ := create_eq_ok_iff.mp hcreate
  obtain ⟨hnode, hsettings⟩ := hrun.sameTask
  obtain ⟨htidy, -⟩ := (invariant_represented node settings).run hrun hlawful
  obtain ⟨d, h⟩ : ∃ d, Prepared b store d := by
    refine exists_prepared ?_ ?_ hgoing hl hepoch htidy
    · rwa [hsettings]
    · rwa [hsettings]
  have inv := calmInvariant_converging h
  have hbound : ∀ {moments store' c}, CalmRun b store moments store' c →
      replies moments ≤ d.cost + 3 :=
    inv.replies_le (fun ⟨_, hle, _⟩ => Nat.le_trans (Nat.le_add_right _ _) hle) hidle hgoing
  refine ⟨d.cost + 3, fun {moments store' c} hcalm => ⟨hbound hcalm, hcalm.canEnd hbound, ?_⟩⟩
  intro hended
  have hholds := inv.run hidle hgoing hcalm
  obtain ⟨published, outcome, ⟨m, hm, houtcome⟩, ⟨left, -, hp⟩, hlist⟩ := hholds.of_ended hended
  obtain ⟨tracked, report, rfl, rfl, hdone⟩ := hp
  obtain rfl : c.tracked = tracked := hlist
  refine ⟨⟨m, hm, report, houtcome, hdone.clean⟩, hdone.fulfils.restored, fun hlater => ?_,
    fun hnil r hr x hx htrim => ?_⟩
  · exact quiet_of_atRest hdone.lists.valid hended (hholds.orders.stopped_eq.trans hgoing)
      (hdone.atRest h) hlater
  · obtain rfl : b.node = node := hnode
    exact hdone.heldBy h hnil hr hx htrim

end

/-! ## A calm cycle that copies -/

/-- The cycle that copies the missing half is calm. -/
theorem calmRun_copyMoments :
    ∃ metrics, CalmRun { node := "n", settings := {} } { layout := halfHeld } copyMoments
      { layout := halfHeld } (halfProposing metrics) := by
  obtain ⟨metrics, hcopied⟩ := resume_halfCopying
  refine ⟨metrics, ?_⟩
  rw [← attempt_halfCopied, ← hcopied]
  refine .cons ?_ rfl (.reply (.copying halfDraft halfWork 0 2 halfBatch) (.written [0, 3, 4])) rfl
    ⟨_, rfl, List.Subset.refl _⟩
  rw [← resume_halfChecking_reported]
  refine .cons ?_ rfl (.reply (.checking halfDraft halfWork 0 ⟨0, 4⟩) (.ok [1, 2])) rfl ⟨_, rfl⟩
  rw [← resume_halfRead]
  refine .cons ?_ rfl (.reply (.readingTrimMark halfHeld) (.ok (-1))) rfl rfl
  exact .cons .begun rfl (.reply .readingLayout (.ok halfHeld)) rfl rfl

/-- Once its proposal is accepted the cycle ends. -/
theorem calm_cycle_converges_of_missing_half :
    ∃ moments c,
      CalmRun { node := "n", settings := {} } { layout := halfHeld } moments
        { layout := joinedHalves, committed := [joinedHalves] } c ∧
      c.stage = none ∧ EndsWith moments Report.Clean ∧ (∀ s ∈ c.tracked, s.state = .restored) ∧
      (∀ {later : List Moment} {store'' : LayoutStore} {c' : Coordinator},
        CalmRun c { layout := joinedHalves, committed := [joinedHalves] } later store'' c' →
          Quiet c { layout := joinedHalves, committed := [joinedHalves] } later store'' c') ∧
      ∀ r ∈ joinedHalves.regions, ∀ x ∈ r.span, -1 < x → r.heldBy "n" = true := by
  obtain ⟨metrics, hproposing⟩ := calmRun_copyMoments
  have hended := hproposing.cons rfl
    (.reply (.proposing halfCopied halfHeld [copiedHalf] joinedHalves 2) (.ok ())) rfl rfl
  have hcreate : create "n" {} = .ok { node := "n", settings := {} } := rfl
  obtain ⟨bound, hconverges⟩ :=
    @calm_cycle_converges "n" {} _ _ { layout := halfHeld } _ hcreate .nil lawful_nil rfl rfl
      (by decide) (by decide +kernel) (by decide +kernel)
  obtain ⟨-, -, hdone⟩ := hconverges hended
  obtain ⟨hclean, hrestored, hquiet, hheld⟩ := hdone rfl
  exact ⟨_, _, hended, rfl, hclean, hrestored, hquiet, hheld rfl⟩

end Coordinator

end LogRepair
