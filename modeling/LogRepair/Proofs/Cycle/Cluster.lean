import LogRepair.Cycle.Cluster
import LogRepair.Proofs.Cycle.Held
import LogRepair.Proofs.Cycle.Invariant
import LogRepair.Proofs.Layout.Proposal
import LogRepair.Proofs.Results

/-!
# No update of a shared layout is lost

Coordinators that share a store compute their proposals from layouts that may be out of date by
the time the proposals arrive. The store only looks at the epoch of a proposal. That suffices,
since each layout that was read there precedes the present one, and layouts of one epoch are
equal.

* `Layout.Precedes`: what stays of a layout that was replaced.
* `Coordinator.Point.Informed`: a cycle works with layouts that precede the present one.
* `Cluster.no_update_lost`: every accepted proposal was computed from the layout that it replaces,
  and takes nothing away.
-/

namespace LogRepair

/-! ## Layouts one after another -/

namespace Layout

/-- The layout is `m` itself or was replaced on the way to it. The same addresses are covered by as
many stripes, and no server was taken off any of them. -/
structure Precedes (l m : Layout) : Prop where
  epoch_le : l.epoch.toNat ≤ m.epoch.toNat
  eq_of_epoch_eq : l.epoch = m.epoch → l = m
  covers_iff : ∀ x, m.Covers x ↔ l.Covers x
  stripesAt_eq : ∀ x, m.stripesAt x = l.stripesAt x
  serversAt_subset : ∀ x i, l.serversAt x i ⊆ m.serversAt x i

theorem Precedes.refl (l : Layout) : Precedes l l :=
  ⟨Nat.le_refl _, fun _ => rfl, fun _ => Iff.rfl, fun _ => rfl, fun _ _ _ => id⟩

theorem Precedes.trans {l m k : Layout} (h : Precedes l m) (h' : Precedes m k) :
    Precedes l k where
  epoch_le := Nat.le_trans h.epoch_le h'.epoch_le
  eq_of_epoch_eq := by
    intro heq
    have hle : m.epoch.toNat ≤ l.epoch.toNat := by
      rw [heq]
      exact h'.epoch_le
    have hlm : l.epoch = m.epoch := UInt64.toNat_inj.mp (Nat.le_antisymm h.epoch_le hle)
    rw [h.eq_of_epoch_eq hlm]
    exact h'.eq_of_epoch_eq (hlm.symm.trans heq)
  covers_iff x := (h'.covers_iff x).trans (h.covers_iff x)
  stripesAt_eq x := (h'.stripesAt_eq x).trans (h.stripesAt_eq x)
  serversAt_subset x i := List.Subset.trans (h.serversAt_subset x i) (h'.serversAt_subset x i)

/-- What is held of a layout stays held. -/
theorem Precedes.heldBy {l m : Layout} (h : Precedes l m) (hl : l.Valid) (hm : m.Valid)
    {r t : Region} (hr : r ∈ l.regions) (ht : t ∈ m.regions) {x : Address} (hxr : x ∈ r.span)
    (hxt : x ∈ t.span) {node : NodeId} (hheld : r.heldBy node = true) : t.heldBy node = true := by
  refine (hm.heldBy_iff ht hxt).mpr fun i hi => h.serversAt_subset x i ?_
  rw [h.stripesAt_eq] at hi
  exact (hl.heldBy_iff hr hxr).mp hheld i hi

/-- A layout that someone may have read, given the present one. -/
structure Known (current l : Layout) : Prop where
  valid : l.Valid
  precedes : l.Precedes current

theorem Known.mono {current next l : Layout} (h : Known current l) (hnext : current.Precedes next) :
    Known next l :=
  ⟨h.valid, h.precedes.trans hnext⟩

end Layout

open Layout

theorem toNat_succ_epoch {epoch : Epoch} (h : epoch.toNat + 1 < UInt64.size) :
    (epoch + 1).toNat = epoch.toNat + 1 := by
  rw [UInt64.toNat_add]
  exact Nat.mod_eq_of_lt h

/-- A proposal is valid, and its base precedes it. -/
theorem Listing.known_of_plan {node : NodeId} {merge : Bool} {tracked ready : List TrackedSegment}
    {base proposal : Layout} {trimMark : Address} (hbase : base.Valid)
    (hepoch : base.epoch.toNat + 1 < UInt64.size)
    (hplan : plan node merge tracked base trimMark = .propose ready proposal) :
    proposal.Valid ∧ base.Precedes proposal ∧ proposal.epoch.toNat = base.epoch.toNat + 1 := by
  obtain ⟨rfl, rfl, -⟩ := eq_of_plan_eq_propose hplan
  have hnext :
      (candidate node merge (base.claimable tracked trimMark) base).successor.epoch.toNat =
        base.epoch.toNat + 1 := by
    rw [successor, epoch_candidate]
    exact toNat_succ_epoch hepoch
  refine ⟨valid_candidate hbase node merge _, ?_, hnext⟩
  constructor
  · rw [hnext]
    exact Nat.le_succ _
  · intro heq
    rw [← heq] at hnext
    omega
  · exact covers_candidate_iff hbase node merge _
  · exact stripesAt_candidate hbase node merge _
  · intro x i n hn
    exact (mem_serversAt_candidate hbase fun _ => isComplete_of_mem_claimable).mpr (Or.inl hn)

/-! ## What a cycle knows -/

/-- The layouts that a stage works with are known, and an open proposal was computed from its
base. -/
def Stage.Informed (node : NodeId) (merge : Bool) (current : Layout) : Stage → Prop
  | .readingLayout | .refreshing _ _ => True
  | .readingTrimMark layout => Known current layout
  | .checking d _ _ _ | .copying d _ _ _ _ => Known current d.layout
  | .proposing d base ready proposal _ => Known current base ∧
      Listing.plan node merge d.tracked base d.trimMark = .propose ready proposal

theorem Stage.Informed.mono {node : NodeId} {merge : Bool} {current next : Layout} {s : Stage}
    (h : s.Informed node merge current) (hnext : current.Precedes next) :
    s.Informed node merge next := by
  match s, h with
  | .readingLayout, _ | .refreshing _ _, _ => exact trivial
  | .readingTrimMark _, h | .checking _ _ _ _, h | .copying _ _ _ _ _, h =>
    exact Known.mono h hnext
  | .proposing _ _ _ _ _, ⟨hknown, hplan⟩ => exact ⟨hknown.mono hnext, hplan⟩

namespace Coordinator

/-- The layouts that a point works with are known. -/
def Point.Informed (node : NodeId) (merge : Bool) (current : Layout) : Point → Prop
  | .drafted d | .working d _ | .lost d _ | .passed d _ | .copied d | .unlisted d =>
    Known current d.layout
  | .listing _ base _ => Known current base
  | .settled _ _ _ | .through _ | .over _ _ => True
  | .waiting s => s.Informed node merge current

variable {node : NodeId} {merge : Bool} {current : Layout} {c : Coordinator} {p q : Point}

theorem informed_stage {errand : Errand} {d : Draft} {w : Workload} :
    (Point.waiting (errand.stage d w)).Informed node merge current ↔ Known current d.layout := by
  cases errand <;> exact Iff.rfl

theorem Point.Informed.step (h : p.Informed c.node c.settings.mergeSegments current)
    (hstep : Step c p q) : q.Informed c.node c.settings.mergeSegments current := by
  cases hstep with
  | skip | copy | take | retire | replace | miss | close | goOn | list => exact h
  | turn => exact informed_stage.mpr h
  | propose hplan => exact ⟨h, hplan⟩
  | crash | refuse | stop | rest | exhaust | defer | reflect | skipMarks | mark | conclude =>
    exact trivial

theorem Point.Informed.shift {s : Stage} (h : (Point.waiting s).Informed node merge current)
    (hshift : Shift s p) : p.Informed node merge current := by
  cases hshift with
  | recancel f hw =>
    cases s with
    | checking | copying => exact h
    | _ => cases hw
  | switch => exact informed_stage.mpr (informed_stage.mp h)
  | hire => exact informed_stage.mp h
  | abandon => exact trivial

theorem layout_of_draft {layout : Layout} {trimMark : Address} {d : Draft}
    (h : c.draft layout trimMark = .ok d) : d.layout = layout := by
  obtain ⟨required, -, h⟩ := exists_of_bind_eq_ok h
  obtain ⟨merged, -, h⟩ := exists_of_bind_eq_ok h
  cases h
  rfl

/-- What a store answers is known. -/
theorem Point.Informed.entry {store : LayoutStore} (hstore : store.layout.Valid) {s : Stage}
    {answer : s.query.Reply} (hanswers : store.Answers (.reply s answer))
    (h : (Point.waiting s).Informed node merge store.layout) (hentry : Entry c s answer p) :
    p.Informed node merge store.layout := by
  cases hentry with
  | layoutUnread | trimMarkUnread | undrafted | accepted | stale | refused | unrefreshed =>
    exact trivial
  | layoutRead | refreshed =>
    cases hanswers
    exact ⟨hstore, .refl _⟩
  | drafted hd =>
    change Known store.layout _
    rw [layout_of_draft hd]
    exact h
  | unreadable | inverted | held | missing | written | uncopied | crashed => exact h

end Coordinator

/-! ## What the store does -/

theorem LayoutStore.propose_cases (s : LayoutStore) (proposal : Layout) :
    (proposal.epoch = s.layout.epoch + 1 ∧ s.propose proposal =
      ({ s with layout := proposal, committed := s.committed ++ [proposal] }, .ok ())) ∨
    (proposal.epoch ≠ s.layout.epoch + 1 ∧
      s.propose proposal = (s, .error (.staleEpoch proposal.epoch s.layout.epoch))) := by
  unfold propose
  split
  · next h => exact Or.inl ⟨h, rfl⟩
  · next h => exact Or.inr ⟨h, rfl⟩

/-- A store accepts what was computed from its own layout. -/
theorem LayoutStore.propose_eq_of_plan {store : LayoutStore} {node : NodeId} {merge : Bool}
    {tracked ready : List TrackedSegment} {trimMark : Address} {proposal : Layout}
    (hplan : Listing.plan node merge tracked store.layout trimMark = .propose ready proposal) :
    store.propose proposal =
      ({ store with layout := proposal, committed := store.committed ++ [proposal] }, .ok ()) := by
  obtain ⟨rfl, rfl, -⟩ := Listing.eq_of_plan_eq_propose hplan
  rcases store.propose_cases _ with ⟨-, heq⟩ | ⟨hstale, -⟩
  · exact heq
  · refine absurd ?_ hstale
    rw [Layout.successor, Listing.epoch_candidate]

namespace Cluster

variable {ι : Type} [DecidableEq ι] {start cluster : Cluster ι} {moments : List (Moment ι)}
  {m : Moment ι}

/-- A proposal is accepted. -/
def Moment.Accepts (m : Moment ι) : Prop :=
  ∃ d base ready proposal left,
    m.happening = .reply (.proposing d base ready proposal left) (.ok ())

/-- The layout in the store is replaced by one that was computed from it, in the next epoch, and
the store records that. -/
def Moment.Commits (m : Moment ι) : Prop :=
  ∃ d base ready proposal left,
    m.happening = .reply (.proposing d base ready proposal left) (.ok ()) ∧
    base = m.before.store.layout ∧
    Listing.plan m.actor.node m.actor.settings.mergeSegments d.tracked base d.trimMark =
      .propose ready proposal ∧
    proposal.epoch.toNat = base.epoch.toNat + 1 ∧
    m.after.store = { m.before.store with
      layout := proposal
      committed := m.before.store.committed ++ [proposal] }

theorem store_after (answers : m.before.store.Answers m.happening) :
    (¬m.Accepts ∧ m.after.store = m.before.store) ∨
      ∃ d base ready proposal left,
        m.happening = .reply (.proposing d base ready proposal left) (.ok ()) ∧
        proposal.epoch = m.before.store.layout.epoch + 1 ∧
        m.after.store = { m.before.store with
          layout := proposal
          committed := m.before.store.committed ++ [proposal] } := by
  obtain ⟨before, who, happening⟩ := m
  by_cases hproposing : ∃ d base ready proposal left answer,
      happening = .reply (.proposing d base ready proposal left) answer
  · obtain ⟨d, base, ready, proposal, left, answer, rfl⟩ := hproposing
    rcases before.store.propose_cases proposal with ⟨hepoch, hserved⟩ | ⟨-, hserved⟩
    · refine Or.inr ⟨d, base, ready, proposal, left, ?_, hepoch, congrArg Prod.fst hserved⟩
      have hanswer : answer = .ok () := answers.trans (congrArg Prod.snd hserved)
      rw [hanswer]
    · refine Or.inl ⟨?_, congrArg Prod.fst hserved⟩
      rintro ⟨d', base', ready', proposal', left', haccepted⟩
      cases haccepted
      have hanswer := answers.trans (congrArg Prod.snd hserved)
      cases hanswer
  · refine Or.inl ⟨?_, ?_⟩
    · rintro ⟨d, base, ready, proposal, left, haccepted⟩
      exact hproposing ⟨d, base, ready, proposal, left, _, haccepted⟩
    · cases happening with
      | reply s answer =>
        cases s with
        | proposing d base ready proposal left =>
          exact absurd ⟨d, base, ready, proposal, left, answer, rfl⟩ hproposing
        | _ => rfl
      | _ => rfl

/-- The layout in the store is valid, and the cycles work with layouts that precede it. -/
structure Sound (cluster : Cluster ι) : Prop where
  valid : cluster.store.layout.Valid
  informed : ∀ i s, (cluster.member i).stage = some s →
    s.Informed (cluster.member i).node (cluster.member i).settings.mergeSegments
      cluster.store.layout

/-- An accepted proposal was computed from the layout it replaces: its base precedes that layout
and is of the same epoch. -/
theorem Sound.commits (h : Sound m.before) (possible : m.happening.Possible m.actor)
    (answers : m.before.store.Answers m.happening)
    (hepoch : m.before.store.layout.epoch.toNat + 1 < UInt64.size) (haccepts : m.Accepts) :
    m.Commits ∧ m.after.store.layout.Valid ∧
      m.before.store.layout.Precedes m.after.store.layout := by
  rcases store_after answers with ⟨hno, -⟩ | ⟨d, base, ready, proposal, left, hm, hnext, hstore⟩
  · exact absurd haccepts hno
  rw [hm] at possible
  obtain ⟨hknown, hplan⟩ := h.informed m.who _ possible
  have hbase : base = m.before.store.layout := by
    refine hknown.precedes.eq_of_epoch_eq ?_
    obtain ⟨-, hproposal, -⟩ := Listing.eq_of_plan_eq_propose hplan
    rw [hproposal, successor, Listing.epoch_candidate] at hnext
    exact (UInt64.add_left_inj _).mp hnext
  rw [hbase] at hplan
  obtain ⟨hvalid, hprecedes, hsucc⟩ := Listing.known_of_plan h.valid hepoch hplan
  refine ⟨⟨d, base, ready, proposal, left, hm, hbase, ?_, ?_, hstore⟩, ?_, ?_⟩
  · rw [hbase]
    exact hplan
  · rw [hbase]
    exact hsucc
  · rw [hstore]
    exact hvalid
  · rw [hstore]
    exact hprecedes

theorem Sound.precedes_after (h : Sound m.before) (possible : m.happening.Possible m.actor)
    (answers : m.before.store.Answers m.happening)
    (hepoch : m.before.store.layout.epoch.toNat + 1 < UInt64.size) :
    m.after.store.layout.Valid ∧ m.before.store.layout.Precedes m.after.store.layout := by
  by_cases haccepts : m.Accepts
  · exact (h.commits possible answers hepoch haccepts).2
  · rcases store_after answers with ⟨-, hsame⟩ | ⟨d, base, ready, proposal, left, hm, -⟩
    · rw [hsame]
      exact ⟨h.valid, .refl _⟩
    · exact absurd ⟨d, base, ready, proposal, left, hm⟩ haccepts

/-- What the coordinator at its turn works with precedes the layout before the moment, and so the
one after it. -/
theorem Sound.after (h : Sound m.before) (possible : m.happening.Possible m.actor)
    (answers : m.before.store.Answers m.happening)
    (hepoch : m.before.store.layout.epoch.toNat + 1 < UInt64.size) : Sound m.after := by
  obtain ⟨hvalid, hprecedes⟩ := h.precedes_after possible answers hepoch
  refine ⟨hvalid, fun i s hs => ?_⟩
  by_cases hi : i = m.who
  · have hmember : m.after.member i = (m.happening.turn m.actor).coordinator := if_pos hi
    have htask := Coordinator.sameTask_turn m.actor m.happening
    rw [hmember] at hs ⊢
    rw [htask.node_eq, htask.settings_eq]
    refine Stage.Informed.mono ?_ hprecedes
    refine Coordinator.Happening.holds_at_stage possible
      (P := Coordinator.Point.Informed m.actor.node m.actor.settings.mergeSegments
        m.before.store.layout)
      (h.informed m.who) trivial .shift ?_ .step hs
    intro s' answer p hreply hwaiting hentry
    rw [hreply] at answers
    exact hwaiting.entry h.valid answers hentry
  · have hmember : m.after.member i = m.before.member i := if_neg hi
    rw [hmember] at hs ⊢
    exact (h.informed i s hs).mono hprecedes

theorem Run.sound (hidle : ∀ i, (start.member i).stage = none) (hvalid : start.store.layout.Valid)
    (run : Run start moments cluster)
    (hepochs : ∀ m ∈ moments, m.before.store.layout.epoch.toNat + 1 < UInt64.size) :
    Sound cluster := by
  induction run with
  | nil =>
    refine ⟨hvalid, fun i s hs => ?_⟩
    rw [hidle i] at hs
    cases hs
  | cons run possible answers ih =>
    obtain ⟨hepoch, hrest⟩ := List.forall_mem_cons.mp hepochs
    exact (ih hrest).after possible answers hepoch

/-- Among coordinators that share a store, whatever their nodes and however their reads and
proposals are interleaved, an accepted proposal was computed from the layout that it replaces; it
takes the next epoch and is recorded, and nothing else changes the store. Over the whole run the
covered addresses and the stripes stay as they are, and no server is taken off any of them. -/
theorem no_update_lost (hidle : ∀ i, (start.member i).stage = none)
    (hvalid : start.store.layout.Valid) (run : Run start moments cluster)
    (hepochs : ∀ m ∈ moments, m.before.store.layout.epoch.toNat + 1 < UInt64.size) :
    (∀ m ∈ moments, (m.Accepts → m.Commits) ∧ (¬m.Accepts → m.after.store = m.before.store)) ∧
      start.store.layout.Precedes cluster.store.layout ∧
      ∀ m ∈ moments, m.before.store.layout.Precedes cluster.store.layout := by
  induction run with
  | nil => exact ⟨List.forall_mem_nil _, .refl _, List.forall_mem_nil _⟩
  | @cons moments m run possible answers ih =>
    obtain ⟨hepoch, hrest⟩ := List.forall_mem_cons.mp hepochs
    have hsound := run.sound hidle hvalid hrest
    obtain ⟨hsteps, hstart, hbefore⟩ := ih hrest
    obtain ⟨-, hprecedes⟩ := hsound.precedes_after possible answers hepoch
    refine ⟨List.forall_mem_cons.mpr ⟨⟨?_, fun hno => ?_⟩, hsteps⟩, hstart.trans hprecedes,
      List.forall_mem_cons.mpr ⟨hprecedes, fun u hu => (hbefore u hu).trans hprecedes⟩⟩
    · exact fun haccepts => (hsound.commits possible answers hepoch haccepts).1
    · rcases store_after answers with ⟨-, hsame⟩ | ⟨d, base, ready, proposal, left, hm, -⟩
      · exact hsame
      · exact absurd ⟨d, base, ready, proposal, left, hm⟩ hno

/-! ## Two writers of one base -/

/-- What happens to a coordinator on its own can happen to it in a cluster, as long as it does not
write to the store. -/
theorem Run.lift (run : Run start moments cluster) {i : ι} {later : List Coordinator.Moment}
    {c : Coordinator} (hmember : Coordinator.Run (cluster.member i) later c)
    (hquiet : ∀ m ∈ later, cluster.store.Answers m.happening ∧
      cluster.store.after m.happening = cluster.store) :
    ∃ moments', Run start moments' ⟨cluster.store, fun j => if j = i then c else cluster.member j⟩ ∧
      ∀ m ∈ moments', m ∈ moments ∨ m.before.store = cluster.store := by
  induction hmember with
  | nil =>
    have hsame : (fun j => if j = i then cluster.member i else cluster.member j) =
        cluster.member := by
      funext j
      split
      · next h => rw [h]
      · rfl
    rw [hsame]
    exact ⟨moments, run, fun m hm => Or.inl hm⟩
  | @cons later c hmember h possible ih =>
    obtain ⟨⟨hanswers, hstore⟩, hrest⟩ := List.forall_mem_cons.mp hquiet
    obtain ⟨moments', run', hmoments'⟩ := ih hrest
    let m : Moment ι := ⟨⟨cluster.store, fun j => if j = i then c else cluster.member j⟩, i, h⟩
    have hactor : m.actor = c := if_pos rfl
    have hafter : m.after =
        ⟨cluster.store, fun j => if j = i then (h.turn c).coordinator else cluster.member j⟩ := by
      rw [Moment.after, hactor]
      congr 1
      funext j
      dsimp only [m]
      split <;> rfl
    rw [← hafter]
    refine ⟨m :: moments', run'.cons (m := m) (hactor ▸ possible) hanswers, ?_⟩
    exact List.forall_mem_cons.mpr ⟨Or.inr rfl, hmoments'⟩

open Coordinator in
/-- Two coordinators for one node share a store. -/
def twoWriters : Cluster Bool :=
  ⟨{ layout := halfHeld }, fun _ => { node := "n", settings := {} }⟩

open Coordinator in
/-- Both have copied what was missing, and propose from the same base. -/
def twoProposals (metrics : Metrics) : Cluster Bool :=
  ⟨{ layout := halfHeld }, fun _ => halfProposing metrics⟩

open Coordinator in
theorem run_twoProposals :
    ∃ metrics moments, Run twoWriters moments (twoProposals metrics) ∧
      ∀ m ∈ moments, m.before.store = twoWriters.store := by
  have hquiet : ∀ m ∈ copyMoments, twoWriters.store.Answers m.happening ∧
      twoWriters.store.after m.happening = twoWriters.store := by
    simp only [copyMoments, halfMoments, List.forall_mem_cons]
    exact ⟨⟨trivial, rfl⟩, ⟨trivial, rfl⟩, ⟨trivial, rfl⟩, ⟨rfl, rfl⟩, ⟨trivial, rfl⟩,
      List.forall_mem_nil _⟩
  obtain ⟨metrics, hcopied⟩ := run_copyMoments
  have run₀ : Run twoWriters [] twoWriters := .nil
  obtain ⟨moments₁, run₁, h₁⟩ := run₀.lift (i := true) hcopied hquiet
  obtain ⟨moments₂, run₂, h₂⟩ := run₁.lift (i := false) hcopied hquiet
  have hboth : (twoProposals metrics).member = fun j => if j = false then halfProposing metrics
      else if j = true then halfProposing metrics else twoWriters.member j := by
    funext j
    cases j <;> rfl
  refine ⟨metrics, moments₂, ?_, fun m hm => (h₂ m hm).elim (fun hm => ?_) id⟩
  · have htwo : twoProposals metrics = ⟨twoWriters.store, (twoProposals metrics).member⟩ := rfl
    rw [htwo, hboth]
    exact run₂
  · exact (h₁ m hm).resolve_left List.not_mem_nil

open Coordinator in
/-- What a proposal of both gets for an answer. -/
def answered (result : Except Error Unit) : Happening :=
  .reply (.proposing halfCopied halfHeld [copiedHalf] joinedHalves 2) result

def firstProposal (metrics : Metrics) : Moment Bool :=
  ⟨twoProposals metrics, true, answered (.ok ())⟩

def secondProposal (metrics : Metrics) : Moment Bool :=
  ⟨(firstProposal metrics).after, false, answered (.error (.staleEpoch 5 5))⟩

/-- The proposal that comes second is refused. -/
theorem no_update_lost_of_two_writers :
    ∃ metrics moments, Run twoWriters moments (secondProposal metrics).after ∧
      firstProposal metrics ∈ moments ∧ (firstProposal metrics).Commits ∧
      (secondProposal metrics).after.store.layout = Coordinator.joinedHalves ∧
      Coordinator.halfHeld.Precedes Coordinator.joinedHalves := by
  obtain ⟨metrics, moments, run, hstore⟩ := run_twoProposals
  have run₁ : Run twoWriters (firstProposal metrics :: moments) (firstProposal metrics).after :=
    run.cons (m := firstProposal metrics) rfl rfl
  have run₂ := run₁.cons (m := secondProposal metrics) rfl rfl
  have hepochs : ∀ m ∈ secondProposal metrics :: firstProposal metrics :: moments,
      m.before.store.layout.epoch.toNat + 1 < UInt64.size := by
    have hstart : twoWriters.store.layout.epoch.toNat + 1 < UInt64.size := by decide +kernel
    have hnext : Coordinator.joinedHalves.epoch.toNat + 1 < UInt64.size := by decide +kernel
    refine List.forall_mem_cons.mpr ⟨hnext, List.forall_mem_cons.mpr ⟨hstart, fun m hm => ?_⟩⟩
    rw [hstore m hm]
    exact hstart
  obtain ⟨hsteps, hprecedes, -⟩ := no_update_lost (fun _ => rfl) (by decide +kernel) run₂ hepochs
  have hmem : firstProposal metrics ∈ secondProposal metrics :: firstProposal metrics :: moments :=
    List.mem_cons_of_mem _ List.mem_cons_self
  exact ⟨metrics, _, run₂, hmem, (hsteps _ hmem).1 ⟨_, _, _, _, _, rfl⟩, rfl, hprecedes⟩

end Cluster

end LogRepair
