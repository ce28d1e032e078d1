import LogRepair.Proofs.Cycle.Representation
import LogRepair.Proofs.Layout.Proposal

/-!
# Nothing is claimed that is not held

A reply can show that the node holds an address: the local log reports it, a request to copy it
reports it as written, or the layout that a cycle begins with lists the node for it in full.

* `Coordinator.Covered`: what is known at each point of a cycle of the addresses that were shown.
* `Coordinator.claims_only_held`: along every run the complete segments of the published list and
  the regions that a proposal adds the node to consist of addresses that were shown.
-/

namespace LogRepair.Coordinator

open TrackedSegment

/-! ## What the replies show -/

/-- The reply shows that the node holds the address. -/
def Moment.Shows (node : NodeId) (m : Moment) (x : Address) : Prop :=
  match m.happening with
  | .reply .readingLayout (.ok layout) => ∃ r ∈ layout.regions, x ∈ r.span ∧ r.heldBy node = true
  | .reply (.checking _ _ _ span) (.ok present) => x ∈ span ∧ x ∈ present
  | .reply (.copying _ _ _ _ batch) (.written addresses) => x ∈ batch.addresses ∧ x ∈ addresses
  | _ => False

/-- Some moment has shown that the node holds the address. -/
def Held (node : NodeId) (moments : List Moment) (x : Address) : Prop :=
  ∃ m ∈ moments, m.Shows node x

/-- Every address of a complete segment was shown. -/
def Backed (node : NodeId) (moments : List Moment) (tracked : List TrackedSegment) : Prop :=
  ∀ s ∈ tracked, s.isComplete = true → ∀ x ∈ s.toSpan, Held node moments x

section

variable {node : NodeId} {moments : List Moment} {m : Moment} {x : Address}

theorem Held.of_shows (h : m.Shows node x) : Held node (m :: moments) x :=
  ⟨m, List.mem_cons_self, h⟩

theorem Held.cons (h : Held node moments x) : Held node (m :: moments) x := by
  obtain ⟨m', hm', hshows⟩ := h
  exact ⟨m', List.mem_cons_of_mem _ hm', hshows⟩

theorem Backed.cons {tracked : List TrackedSegment} (h : Backed node moments tracked) :
    Backed node (m :: moments) tracked :=
  fun s hs hcomplete x hx => (h s hs hcomplete x hx).cons

/-- What the layout that was read lists the node for in full is held. -/
theorem held_of_layoutRead {layout : Layout} (h : layoutRead moments = some layout) {r : Region}
    (hr : r ∈ layout.regions) (hheld : r.heldBy node = true) (hx : x ∈ r.span) :
    Held node moments x := by
  obtain ⟨m, hm, hread⟩ := List.exists_of_findSome?_eq_some h
  refine ⟨m, hm, ?_⟩
  obtain ⟨b, happening⟩ := m
  dsimp only at hread
  split at hread
  · cases hread
    exact ⟨r, hr, hx, hheld⟩
  · cases hread

end

/-! ## The points of a cycle -/

/-- What is known at each point. -/
def Covered (node : NodeId) (merge : Bool) (moments : List Moment) : Point → Prop
  | .drafted d | .copied d | .unlisted d | .settled d _ _ | .through d =>
    Backed node moments d.tracked
  | .working d w => Backed node moments d.tracked ∧ w.Accounts (Held node moments)
  | .lost d w => Backed node moments d.tracked ∧ w.crashed = true
  | .passed d w =>
    Backed node moments d.tracked ∧ w.Accounts (Held node moments) ∧
      (w.crashed = false → w.queue = [])
  | .listing d base _ => Backed node moments d.tracked ∧ base.Valid
  | .waiting .readingLayout | .waiting (.readingTrimMark _) => True
  | .waiting (.checking d w i span) =>
    Backed node moments d.tracked ∧ (w.park (.checking i span)).Accounts (Held node moments)
  | .waiting (.copying d w i present batch) =>
    Backed node moments d.tracked ∧ (w.park (.copying i present batch)).Accounts (Held node moments)
  | .waiting (.proposing d base ready proposal _) =>
    Backed node moments d.tracked ∧ base.Valid ∧
      Listing.plan node merge d.tracked base d.trimMark = .propose ready proposal
  | .waiting (.refreshing d _) => Backed node moments d.tracked
  | .over (some tracked) _ => Backed node moments tracked
  | .over none _ => True

section

variable {node : NodeId} {merge : Bool} {moments : List Moment} {c : Coordinator}

theorem covered_stage {d : Draft} {w : Workload} {errand : Errand} :
    Covered node merge moments (.waiting (errand.stage d w)) ↔
      Backed node moments d.tracked ∧ (w.park errand).Accounts (Held node moments) := by
  cases errand <;> exact Iff.rfl

/-- A target that became complete is through, with no chunk dropped and none failed. -/
theorem backed_replaceCandidates {d : Draft} {w : Workload}
    {fates : List (TrackedSegment × Bool)} (hvalid : ∀ s ∈ d.tracked, s.Valid)
    (hserves : Serves d w) (hbacked : Backed node moments d.tracked)
    (hw : w.Accounts (Held node moments)) (hothers : w.others = []) (hqueue : w.queue = [])
    (hcrashed : w.crashed = false) (hclose : w.close = .ok fates) :
    Backed node moments (replaceCandidates d.tracked (fates.map (·.1))) := by
  intro s hs hcomplete x hx
  rcases mem_replaceCandidates hs with hs | hs
  · obtain ⟨hsvalid, t, ht, hspan, hkept⟩ := hserves.mem_close hvalid hclose hs
    obtain ⟨hcancelled, hfailure⟩ := hkept hcomplete
    have hnonneg : 0 ≤ x := Int64.le_trans hsvalid.first_nonneg hx.1
    rw [hspan] at hx
    exact hw.held_of_through hothers hqueue hcrashed ht hcancelled hfailure hx hnonneg
  · exact hbacked s hs hcomplete x hx

theorem Covered.step {p q : Point} (hnode : c.node = node)
    (hmerge : c.settings.mergeSegments = merge) (hrep : Represented moments p)
    (hp : Covered node merge moments p) (h : Step c p q) : Covered node merge moments q := by
  cases h with
  | skip | goOn | rest | stop | conclude => exact hp
  | exhaust | defer | reflect => exact hp.1
  | crash | refuse => trivial
  | @copy d h =>
    refine ⟨hp, Workload.accounts_ofTargets (fun t ht => ?_) fun t ht => ?_⟩
    · obtain ⟨s, -, rfl⟩ := List.mem_map.mp ht
      exact ⟨_, rfl⟩
    · obtain ⟨s, hs, rfl⟩ := List.mem_map.mp ht
      exact ((Faithful.tracks hrep).valid s (List.mem_filter.mp hs).1).first_nonneg
  | take h => exact ⟨hp.1, hp.2.take h⟩
  | retire h =>
    obtain ⟨haccounts, hqueue⟩ := hp.2.retire h
    exact ⟨hp.1, haccounts, fun _ => hqueue⟩
  | replace => exact ⟨hp.1, Workload.accounts_of_crashed hp.2⟩
  | miss =>
    refine ⟨hp.1, Workload.accounts_of_crashed hp.2, fun hw => ?_⟩
    rw [hp.2] at hw
    cases hw
  | turn h => exact covered_stage.mpr ⟨hp.1, hp.2.1.turn h⟩
  | close h hcrashed hclose =>
    obtain ⟨hbacked, haccounts, hqueue⟩ := hp
    exact backed_replaceCandidates hrep.1.tracks.valid hrep.2 hbacked haccounts h
      (hqueue hcrashed) hcrashed hclose
  | list h => exact ⟨hp, Faithful.valid_layout hrep⟩
  | propose h =>
    refine ⟨hp.1, hp.2, ?_⟩
    rw [← h, hnode, hmerge]
  | skipMarks h => exact hp
  | mark h =>
    intro s hs hcomplete x hx
    obtain ⟨t, ht, hbefore, hspan⟩ :=
      exists_complete_of_markListed (Faithful.tracks hrep).valid h hs hcomplete
    rw [hspan] at hx
    exact hp t ht hbefore x hx

/-- A chunk of which nothing is missing was reported in full; what is missing is requested. -/
theorem held_or_mem_missing {b : Coordinator} {d : Draft} {w : Workload} {i : Nat} {span : Span}
    {present : List Address} {x : Address} (hx : x ∈ span) (hnonneg : 0 ≤ span.first) :
    Held node (⟨b, .reply (.checking d w i span) (.ok present)⟩ :: moments) x ∨
      x ∈ (Batch.missing span present).addresses := by
  by_cases hpresent : x ∈ present
  · exact Or.inl (.of_shows ⟨hx, hpresent⟩)
  · refine Or.inr (List.mem_filter.mpr ⟨Span.mem_toList hnonneg hx, ?_⟩)
    simpa using hpresent

theorem backed_draft {l : Layout} {trimMark : Address} {d : Draft} (hl : l.Valid)
    (hread : layoutRead moments = some l) (hnode : c.node = node) (hlist : Tidy c.tracked)
    (hbacked : Backed node moments c.tracked) (h : c.draft l trimMark = .ok d) :
    Backed node moments d.tracked := by
  obtain ⟨required, hrequired, hrec, rfl⟩ := hlist.of_draft hl h
  intro s hs hcomplete x hx
  rcases exists_complete_of_reconciled hrec (List.mem_filter.mp hs).1 hcomplete hx with
    ⟨f, hf, hfresh, hxf⟩ | ⟨o, ho, hold, hxo⟩
  · obtain ⟨r, hr, -, rfl⟩ := (Layout.mem_requirement_iff hl hrequired).mp hf
    rw [Layout.isComplete_need, hnode] at hfresh
    exact held_of_layoutRead hread hr hfresh ((Layout.mem_neededSpan_iff (hl.region hr)).mp hxf).1
  · exact hbacked o ho hold x hxo

theorem Covered.entry {s : Stage} {answer : s.query.Reply} {p : Point} (hnode : c.node = node)
    (hlawful : (Happening.reply s answer).Lawful) (hlist : Tidy c.tracked)
    (hbacked : Backed node moments c.tracked) (hrep : Represented moments (.waiting s))
    (hp : Covered node merge moments (.waiting s)) (h : Entry c s answer p) :
    Covered node merge (⟨c, .reply s answer⟩ :: moments) p := by
  cases h with
  | layoutUnread | layoutRead | trimMarkUnread | undrafted => trivial
  | drafted h => exact (backed_draft hrep.2 hrep.1 hnode hlist hbacked h).cons
  | unreadable =>
    refine ⟨hp.1.cons, hp.2.note (fun _ => Held.cons) fun hfailed => ?_⟩
    cases hfailed
  | inverted | crashed => exact ⟨hp.1.cons, rfl⟩
  | held hmissing =>
    refine ⟨hp.1.cons, hp.2.note (fun _ => Held.cons) fun _ x ⟨hspan, hnonneg⟩ => ?_⟩
    refine (held_or_mem_missing hspan hnonneg).resolve_right fun hbatch => ?_
    rw [Batch.isEmpty, List.isEmpty_iff] at hmissing
    rw [hmissing] at hbatch
    cases hbatch
  | missing hmissing =>
    refine ⟨hp.1.cons, hp.2.proceed rfl (fun _ => Held.cons) fun x ⟨hspan, hnonneg⟩ => ?_⟩
    exact held_or_mem_missing hspan hnonneg
  | written =>
    -- Only a short write leaves addresses of the batch unheld, and that counts as a failure.
    refine ⟨hp.1.cons, hp.2.note (fun _ => Held.cons) fun hfailed x hbatch => ?_⟩
    exact .of_shows ⟨hbatch, BatchResult.mem_of_ofWritten hfailed hbatch⟩
  | uncopied =>
    refine ⟨hp.1.cons, hp.2.note (fun _ => Held.cons) fun hfailed => ?_⟩
    cases hfailed
  | accepted | stale | refused => exact hp.1.cons
  | refreshed => exact ⟨Backed.cons hp, hlawful⟩
  | unrefreshed => exact Backed.cons hp

theorem Covered.aside {m : Moment} {s : Stage} (hp : Covered node merge moments (.waiting s)) :
    Covered node merge (m :: moments) (.waiting s) := by
  cases s with
  | readingLayout | readingTrimMark => trivial
  | checking | copying => exact ⟨hp.1.cons, hp.2.imp fun _ => Held.cons⟩
  | proposing => exact ⟨hp.1.cons, hp.2⟩
  | refreshing => exact Backed.cons hp

theorem Covered.shift {s : Stage} {p : Point} (hp : Covered node merge moments (.waiting s))
    (h : Shift s p) : Covered node merge moments p := by
  cases h with
  | recancel f hs =>
    cases s with
    | checking | copying =>
      cases hs
      exact ⟨hp.1, hp.2.recancel f⟩
    | _ => cases hs
  | switch h =>
    obtain ⟨hbacked, haccounts⟩ := covered_stage.mp hp
    exact covered_stage.mpr ⟨hbacked, haccounts.switch h⟩
  | hire h =>
    obtain ⟨hbacked, haccounts⟩ := covered_stage.mp hp
    exact ⟨hbacked, haccounts.of_others rfl rfl rfl fun p => id⟩
  | abandon h hcrashed => trivial

end

/-! ## Along a run -/

theorem invariant_covered (node : NodeId) (settings : Settings) :
    Invariant { node, settings }
      (fun moments p => Represented moments p ∧ Covered node settings.mergeSegments moments p)
      (fun moments tracked => Tidy tracked ∧ Backed node moments tracked) := by
  have base := invariant_represented node settings
  exact {
    list_start := ⟨base.list_start, fun s hs => absurd hs List.not_mem_nil⟩
    stage_start := fun s hs => by cases hs
    list_cons := fun h => ⟨h.1, h.2.cons⟩
    begun := fun _ _ => ⟨trivial, trivial⟩
    aside := fun hm hp => ⟨base.aside hm hp.1, hp.2.aside⟩
    shift := fun hp h => ⟨base.shift hp.1 h, hp.2.shift h⟩
    entry := fun task hlawful hlist hp h =>
      ⟨base.entry task hlawful hlist.1 hp.1 h,
        hp.2.entry task.node_eq hlawful hlist.1 hlist.2 hp.1 h⟩
    step := fun task hp h =>
      ⟨base.step task hp.1 h,
        hp.2.step task.node_eq (congrArg Settings.mergeSegments task.settings_eq) hp.1 h⟩
    publish := fun hp => ⟨base.publish hp.1, hp.2⟩ }

/-- Along every run each address of a complete segment of the published list was shown to be held.
And while a proposal is open, so was, for each region of its base that it adds the node to, each
address of the region above the trim mark of the cycle. -/
theorem claims_only_held {node : NodeId} {settings : Settings} {moments : List Moment}
    {c : Coordinator} (hrun : Run { node, settings } moments c) (hlawful : Lawful moments) :
    (∀ s ∈ c.tracked, s.isComplete = true → ∀ x ∈ s.toSpan, Held node moments x) ∧
      ∀ d base ready proposal left, c.stage = some (.proposing d base ready proposal left) →
        Listing.plan node settings.mergeSegments d.tracked base d.trimMark =
            .propose ready proposal ∧
          trimMarkRead moments = some d.trimMark ∧
          ∀ r ∈ base.regions,
            (∃ y ∈ r.span, ∃ i, node ∉ base.serversAt y i ∧ node ∈ proposal.serversAt y i) →
              ∀ x ∈ r.span, d.trimMark < x → Held node moments x := by
  obtain ⟨⟨-, hbacked⟩, hstage⟩ := (invariant_covered node settings).run hrun hlawful
  refine ⟨hbacked, fun d base ready proposal left hproposing => ?_⟩
  obtain ⟨hfaithful, hdraft, hbase, hplan⟩ := hstage _ hproposing
  refine ⟨hplan, Faithful.trimMark_eq hfaithful, fun r hr hadded x hx htrim => ?_⟩
  obtain ⟨y, hy, i, hbefore, hafter⟩ := hadded
  obtain ⟨t, ht, hcomplete, hxt⟩ :=
    Listing.exists_complete_of_added hbase hplan hr hy hbefore hafter hx htrim
  exact hdraft t ht hcomplete x hxt

/-! ## A cycle that copies -/

/-- The range that was missing, once it is copied. -/
def copiedHalf : TrackedSegment := ⟨⟨0, 4⟩, .transferred 5⟩

/-- The same draft after the copying. -/
def halfCopied : Draft :=
  { halfDraft with
    tracked := [copiedHalf, heldHalf]
    report := { halfDraft.report with transferred := 1 }
    awaiting := 1 }

/-- What the cycle proposes then. -/
def joinedHalves : Layout := ⟨5, [⟨0, 9, [⟨["n", "a"]⟩]⟩]⟩

/-- What the log did not report of the missing range. -/
def halfBatch : Batch := ⟨[0, 3, 4], some ["a"]⟩

/-- The coordinator that copies it. -/
def halfCopying : Coordinator :=
  { halfChecking with stage := some (.copying halfDraft halfWork 0 2 halfBatch) }

/-- The coordinator that proposes. -/
def halfProposing (metrics : Metrics) : Coordinator :=
  { halfRead with
    metrics, stage := some (.proposing halfCopied halfHeld [copiedHalf] joinedHalves 2) }

theorem resume_halfChecking_reported :
    (halfChecking.resume (.checking halfDraft halfWork 0 ⟨0, 4⟩) (.ok [1, 2])).coordinator =
      halfCopying := rfl

theorem copiedSpans_halfCopied :
    Layout.copiedSpans halfCopied.tracked = [⟨0, 4⟩, ⟨5, 8⟩] :=
  List.mergeSort_of_pairwise (by decide +kernel)

/-- What is proposed for the copied range, if it is ready for the layout and not listed there. -/
theorem plan_halfCopied {base proposal : Layout}
    (hready : base.claimable halfCopied.tracked (-1) = [copiedHalf])
    (hchanged : Listing.candidate "n" true [copiedHalf] base ≠ base)
    (hnext : (Listing.candidate "n" true [copiedHalf] base).successor = proposal) :
    Listing.plan "n" true halfCopied.tracked base (-1) = .propose [copiedHalf] proposal := by
  have hsome : ¬[copiedHalf].isEmpty = true := Bool.false_ne_true
  rw [Listing.plan, hready, hnext, if_neg hsome, if_neg hchanged]

theorem plan_halfHeld :
    Listing.plan "n" true halfCopied.tracked halfHeld (-1) =
      .propose [copiedHalf] joinedHalves := by
  refine plan_halfCopied ?_ (by decide +kernel) (by decide +kernel)
  rw [Layout.claimable, copiedSpans_halfCopied]
  decide +kernel

theorem attempt_halfCopied (metrics : Metrics) :
    (({ halfCopying with metrics } : Coordinator).attempt halfCopied halfHeld 3).coordinator =
      halfProposing metrics := by
  have hplan : Listing.plan halfCopying.node halfCopying.settings.mergeSegments halfCopied.tracked
      halfHeld halfCopied.trimMark = .propose [copiedHalf] joinedHalves := plan_halfHeld
  rw [attempt, hplan]
  rfl

theorem resume_halfCopying :
    ∃ metrics, halfCopying.resume (.copying halfDraft halfWork 0 2 halfBatch)
      (.written [0, 3, 4]) =
        ({ halfCopying with metrics } : Coordinator).attempt halfCopied halfHeld 3 :=
  ⟨_, rfl⟩

/-- What has led to the proposal. -/
def copyMoments : List Moment :=
  ⟨halfCopying, .reply (.copying halfDraft halfWork 0 2 halfBatch) (.written [0, 3, 4])⟩ ::
    ⟨halfChecking, .reply (.checking halfDraft halfWork 0 ⟨0, 4⟩) (.ok [1, 2])⟩ :: halfMoments

theorem lawful_copyMoments : Lawful copyMoments :=
  List.forall_mem_cons.mpr ⟨trivial, List.forall_mem_cons.mpr ⟨trivial, lawful_halfMoments⟩⟩

theorem run_copyMoments :
    ∃ metrics, Run { node := "n", settings := {} } copyMoments (halfProposing metrics) := by
  obtain ⟨metrics, hcopied⟩ := resume_halfCopying
  refine ⟨metrics, ?_⟩
  rw [← attempt_halfCopied, ← hcopied]
  refine .cons ?_ (.reply (.copying halfDraft halfWork 0 2 halfBatch) (.written [0, 3, 4])) rfl
  rw [← resume_halfChecking_reported]
  exact .cons run_halfMoments (.reply (.checking halfDraft halfWork 0 ⟨0, 4⟩) (.ok [1, 2])) rfl

/-- Two of five addresses are reported and the others copied. The proposal adds the node to their
region, and once it is accepted the whole published list is restored. -/
theorem claims_only_held_of_copied_half :
    ∃ m c, Run { node := "n", settings := {} } (m :: copyMoments) c ∧
      m.before.stage = some (.proposing halfCopied halfHeld [copiedHalf] joinedHalves 2) ∧
      (∀ x ∈ copiedHalf.toSpan, Held "n" copyMoments x) ∧
      c.tracked = [⟨⟨0, 4⟩, .restored 5⟩, heldHalf] ∧
      ∀ s ∈ c.tracked, ∀ x ∈ s.toSpan, Held "n" (m :: copyMoments) x := by
  obtain ⟨metrics, hproposing⟩ := run_copyMoments
  let answer : Happening :=
    .reply (.proposing halfCopied halfHeld [copiedHalf] joinedHalves 2) (.ok ())
  have haccepted := hproposing.cons answer rfl
  have hlawful : Lawful (⟨halfProposing metrics, answer⟩ :: copyMoments) :=
    List.forall_mem_cons.mpr ⟨trivial, lawful_copyMoments⟩
  obtain ⟨-, hclaimed⟩ := claims_only_held hproposing lawful_copyMoments
  obtain ⟨hbacked, -⟩ := claims_only_held haccepted hlawful
  obtain ⟨-, -, hregion⟩ := hclaimed halfCopied halfHeld [copiedHalf] joinedHalves 2 rfl
  have htracked : (Happening.turn (halfProposing metrics) answer).coordinator.tracked =
      [⟨⟨0, 4⟩, .restored 5⟩, heldHalf] := rfl
  have hcomplete : ∀ s ∈ [⟨⟨0, 4⟩, .restored 5⟩, heldHalf], s.isComplete = true := by
    decide +kernel
  refine ⟨_, _, haccepted, rfl, fun x hx => ?_, htracked, fun s hs => ?_⟩
  · have hadded : ∃ y ∈ (⟨0, 4⟩ : Span), ∃ i,
        "n" ∉ halfHeld.serversAt y i ∧ "n" ∈ joinedHalves.serversAt y i :=
      ⟨0, by decide +kernel, 0, by decide +kernel, by decide +kernel⟩
    refine hregion ⟨0, 5, [⟨["a"]⟩]⟩ (by decide +kernel) hadded x hx ?_
    have hnonneg : (0 : Address) ≤ x := hx.1
    exact Int64.lt_of_lt_of_le (by decide) hnonneg
  · exact hbacked s hs (hcomplete s (htracked ▸ hs))

end LogRepair.Coordinator
