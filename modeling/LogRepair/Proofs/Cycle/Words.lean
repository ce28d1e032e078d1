import LogRepair.Proofs.Cycle.Counted
import LogRepair.Proofs.Cycle.Upkeep
import LogRepair.Proofs.Guarded

/-!
# No word of a cycle wraps

What a cycle reckons with machine words comes to the same with integers, whatever the layouts, the
trim marks and the replies. No region of a valid layout contains the highest address, so no tracked
segment does, and a target never counts more addresses than it has.

The bare address after a trim mark is the one exception. After the highest trim mark there is none,
and the highest address, at which it is held there, is not the integer that follows. What the
regions require above that trim mark is still the same with integers: nothing.

* `Coordinator.Capped`: a list without a segment that ends at the highest address.
* `Coordinator.Bounded`: what is known of this at each point of a cycle.
* `Target.Balanced.weight_le`: the tallies of a target and what its workers are about are at most
  its addresses.
* `Coordinator.Moment.Exact`: what is reckoned at a moment comes to what it comes to with
  integers.
* `Coordinator.exact_of_run`: this holds at every moment of every run.
-/

namespace LogRepair

/-! ## What a target counts -/

theorem Target.Balanced.weight_le {copied : Address → Prop} {t : Target} {awaited : List Address}
    {credit : Nat} (h : t.Balanced copied awaited credit) (hfirst : 0 ≤ t.segment.first) :
    t.weight + credit + awaited.length ≤ t.segment.length.toNat := by
  obtain ⟨counted, hsettled⟩ := h
  have hwithin : counted ++ awaited ⊆ t.segment.toSpan.toList := fun x hx =>
    Span.mem_toList hfirst (hsettled.left x hx).1
  have hlength := (hsettled.nodup.subperm hwithin).length_le
  rw [List.length_append, Span.toList, List.length_map, List.length_range] at hlength
  have hcounted := hsettled.weight_le
  show _ ≤ t.segment.toSpan.length.toNat
  omega

/-- The tallies of some of the workers weigh at most as much as those of all. -/
theorem Target.sum_weight_le {t : Target} {us : List Tally} (h : us.Subperm (t.tallies.map (·.2))) :
    (us.map Tally.weight).sum ≤ t.weight := by
  obtain ⟨vs, hperm, hsub⟩ := h
  obtain ⟨rest, hrest⟩ := hsub.exists_perm_append
  have hall := (hrest.map Tally.weight).sum_nat
  rw [List.map_map, List.map_append, List.sum_append] at hall
  have hsame := (hperm.map Tally.weight).sum_nat
  have hweight : t.weight = _ := hall
  omega

namespace Workload

variable {copied : Address → Prop} {w : Workload} {t : Target}

theorem Balanced.weight_lt (h : w.Balanced copied) (hconfined : w.Confined) (ht : t ∈ w.targets) :
    t.weight < 2 ^ 64 := by
  obtain ⟨i, hi⟩ := List.mem_iff_getElem?.mp ht
  have hle := (h i t hi).weight_le (hconfined.targets i t hi).1
  have hword := t.segment.length.toNat_lt
  omega

/-- What the worker at its turn is yet to note fits beside the tallies of its target. -/
theorem Balanced.weight_add_lt {errand : Errand} (h : (w.park errand).Balanced copied)
    (hconfined : (w.park errand).Confined) (ht : w.targets[errand.target]? = some t) :
    t.weight + (errand.credit + errand.addresses.length) < 2 ^ 64 := by
  have hbalanced := h errand.target t ht
  rw [awaited_park, credit_park, if_pos rfl, if_pos rfl] at hbalanced
  have hle := hbalanced.weight_le (hconfined.targets errand.target t ht).1
  rw [List.length_append] at hle
  have hword := t.segment.length.toNat_lt
  omega

end Workload

/-- The outcome of a chunk counts what was held of it before, and at most what was asked for. -/
theorem Stage.weight_ending_le {s : Stage} {answer : s.query.Reply} {i : Nat} {o : ChunkOutcome}
    (h : s.ending? answer = some (i, o)) :
    ∃ d w errand, s = Errand.stage d w errand ∧ errand.target = i ∧
      o.weight ≤ errand.credit + errand.addresses.length := by
  cases s with
  | checking d w i span =>
    refine ⟨d, w, .checking i span, rfl, ?_⟩
    cases answer with
    | error e =>
      cases h
      exact ⟨rfl, Nat.zero_le _⟩
    | ok present =>
      simp only [ending?] at h
      split at h
      · cases h
      · split at h
        · cases h
          refine ⟨rfl, Nat.le_trans (toNat_ofNat_le _) ?_⟩
          exact Nat.le_trans List.countP_le_length (Nat.le_add_left _ _)
        · cases h
  | copying d w i present batch =>
    refine ⟨d, w, .copying i present batch, rfl, ?_⟩
    cases answer with
    | written addresses =>
      cases h
      have hcount := BatchResult.toNat_transferred_ofWritten_le batch addresses
      exact ⟨rfl, Nat.add_le_add_left (Nat.le_trans hcount (List.length_filter_le _ _)) _⟩
    | failed e =>
      cases h
      exact ⟨rfl, Nat.add_le_add_left (Nat.zero_le _) _⟩
    | crashed => cases h
  | _ => cases h

namespace Coordinator

open TrackedSegment

/-! ## Where segments end -/

/-- No segment ends at the highest address. -/
def Capped (tracked : List TrackedSegment) : Prop := ∀ s ∈ tracked, s.last < Int64.maxValue

section

variable {c : Coordinator}

theorem capped_draft {layout : Layout} {trimMark : Address} {d : Draft} (hl : layout.Valid)
    (htidy : Tidy c.tracked) (hlist : Capped c.tracked) (h : c.draft layout trimMark = .ok d) :
    Capped d.tracked := by
  obtain ⟨required, hrequired, hrec, rfl⟩ := htidy.of_draft hl h
  intro s hs
  rcases mem_reconciled.mp (List.mem_filter.mp hs).1 with ⟨f, hf, hsf⟩ | ⟨o, ho, rfl⟩
  · exact Int64.lt_of_le_of_lt (hrec.bounds_of_mem_overlaid hf hsf).2.2 (hrec.last_lt f hf)
  · rw [toSpan_carriedOn]
    exact hlist o (mem_unclaimed.mp ho).1

theorem capped_replaceCandidates {d : Draft} {w : Workload} (hserves : Serves d w)
    (hlist : Capped d.tracked) {fates : List (TrackedSegment × Bool)}
    (hclose : w.close = .ok fates) : Capped (replaceCandidates d.tracked (fates.map (·.1))) := by
  intro s hs
  rcases mem_replaceCandidates hs with hs | hs
  · obtain ⟨t, -, hmem, -, short, heq⟩ := hserves.exists_target hclose hs
    rw [(Target.of_close heq).1]
    exact hlist t.segment hmem
  · exact hlist s hs

theorem capped_markListed {ready tracked tracked' : List TrackedSegment}
    (hvalid : ∀ s ∈ tracked, s.Valid) (hlist : Capped tracked)
    (h : Listing.markListed ready tracked = .ok tracked') : Capped tracked' := by
  intro s' hs'
  obtain ⟨s, hs, heq⟩ := exists_of_mem_mapM h hs'
  rcases eq_or_eq_of_markListed hvalid hs heq with ⟨-, rfl⟩ | rfl
  · exact hlist s hs
  · exact hlist s' hs

end

/-! ## The points of a cycle -/

/-- What is known at each point of the ends of segments, and of the layout that lists them. -/
def Bounded : Point → Prop
  | .drafted d | .copied d | .unlisted d | .settled d _ _ | .through d => Capped d.tracked
  | .listing d base _ => Capped d.tracked ∧ base.Valid
  | .working d _ | .lost d _ | .passed d _ => Capped d.tracked
  | .waiting (.checking d _ _ _) | .waiting (.copying d _ _ _ _) => Capped d.tracked
  | .waiting (.proposing d _ _ _ _) | .waiting (.refreshing d _) => Capped d.tracked
  | .waiting .readingLayout | .waiting (.readingTrimMark _) => True
  | .over (some tracked) _ => Capped tracked
  | .over none _ => True

section

variable {moments : List Moment} {c : Coordinator}

theorem bounded_stage {d : Draft} {w : Workload} {errand : Errand} :
    Bounded (.waiting (errand.stage d w)) ↔ Capped d.tracked := by
  cases errand <;> exact Iff.rfl

theorem Bounded.step {p q : Point} (hrep : Represented moments p) (hp : Bounded p)
    (h : Step c p q) : Bounded q := by
  cases h with
  | skip | copy | take | retire | replace | miss | stop | goOn | rest | skipMarks | conclude =>
    exact hp
  | exhaust | defer | reflect | propose => exact hp.1
  | turn h => exact bounded_stage.mpr hp
  | crash | refuse => trivial
  | close h hcrashed hclose => exact capped_replaceCandidates hrep.2 hp hclose
  | list h => exact ⟨hp, Faithful.valid_layout hrep⟩
  | mark h => exact capped_markListed (Faithful.tracks hrep).valid hp h

theorem Bounded.entry {s : Stage} {answer : s.query.Reply} {p : Point}
    (hlawful : (Happening.reply s answer).Lawful) (htidy : Tidy c.tracked)
    (hlist : Capped c.tracked) (hrep : Represented moments (.waiting s))
    (hp : Bounded (.waiting s)) (h : Entry c s answer p) : Bounded p := by
  cases h with
  | layoutUnread | layoutRead | trimMarkUnread | undrafted => trivial
  | drafted h => exact capped_draft hrep.2 htidy hlist h
  | unreadable | inverted | held | missing | written | uncopied | crashed => exact hp
  | accepted | stale | refused | unrefreshed => exact hp
  | refreshed => exact ⟨hp, hlawful⟩

theorem Bounded.shift {s : Stage} {p : Point} (hp : Bounded (.waiting s)) (h : Shift s p) :
    Bounded p := by
  cases h with
  | recancel f hs =>
    cases s with
    | checking | copying => exact hp
    | _ => cases hs
  | switch h => exact bounded_stage.mpr (bounded_stage.mp hp)
  | hire h => exact bounded_stage.mp hp
  | abandon h hcrashed => trivial

end

theorem invariant_bounded (node : NodeId) (settings : Settings) :
    Invariant { node, settings }
      (fun moments p =>
        ((Represented moments p ∧ Confined moments p) ∧ Tallied moments p) ∧ Bounded p)
      fun moments tracked =>
        (Tidy tracked ∧ Honest moments tracked tracked) ∧ Capped tracked := by
  have base := invariant_tallied node settings
  exact {
    list_start := ⟨base.list_start, fun _ hs => absurd hs List.not_mem_nil⟩
    stage_start := fun s hs => by cases hs
    list_cons := fun h => ⟨base.list_cons h.1, h.2⟩
    begun := fun hidle hlist => ⟨base.begun hidle hlist.1, trivial⟩
    aside := fun hm hp => ⟨base.aside hm hp.1, hp.2⟩
    shift := fun hp h => ⟨base.shift hp.1 h, hp.2.shift h⟩
    entry := fun task hlawful hlist hp h =>
      ⟨base.entry task hlawful hlist.1 hp.1 h,
        hp.2.entry hlawful hlist.1.1 hlist.2 hp.1.1.1 h⟩
    step := fun task hp h => ⟨base.step task hp.1 h, hp.2.step hp.1.1.1 h⟩
    publish := fun hp => ⟨base.publish hp.1, hp.2⟩ }

/-! ## What is reckoned at a moment -/

/-- The list that the cycle works on at the point, or has published. -/
def Point.list? : Point → Option (List TrackedSegment)
  | .drafted d | .copied d | .unlisted d | .listing d _ _ | .settled d _ _ | .through d =>
    some d.tracked
  | .working d _ | .lost d _ | .passed d _ => some d.tracked
  | .waiting (.checking d _ _ _) | .waiting (.copying d _ _ _ _) => some d.tracked
  | .waiting (.proposing d _ _ _ _) | .waiting (.refreshing d _) => some d.tracked
  | .waiting .readingLayout | .waiting (.readingTrimMark _) => none
  | .over published _ => published

/-- The workload of the point, if the cycle copies there. -/
def Point.workload? : Point → Option Workload
  | .working _ w | .lost _ w | .passed _ w => some w
  | .waiting s => s.workload?
  | .drafted _ | .copied _ | .unlisted _ | .listing _ _ _ | .settled _ _ _ | .through _
  | .over _ _ => none

/-- The layout is asked what it requires above the trim mark. -/
inductive Moment.Requires : Moment → Layout → Address → Prop
  | drafting {c : Coordinator} {layout : Layout} {trimMark : Address} :
      Requires ⟨c, .reply (.readingTrimMark layout) (.ok trimMark)⟩ layout trimMark
  | adapting {c : Coordinator} {layout : Layout} :
      Requires ⟨c, .announce layout⟩ layout c.trimMark

/-- The lengths of the segments come to what they come to with integers. -/
def Measured (tracked : List TrackedSegment) : Prop :=
  ∀ s ∈ tracked, Guarded.length s.toSpan = some s.length

/-- What is reckoned at the moment comes to what it comes to with integers, but for the bare address
after the highest trim mark. -/
structure Moment.Exact (m : Moment) : Prop where
  /-- The address after a trim mark that is not the highest; after the highest it is held at the
  highest address, which is not the next integer. What the regions of a layout require above any
  trim mark, the highest one too, and how many addresses that are. -/
  required : ∀ {layout trimMark}, m.Requires layout trimMark →
    (trimMark < Int64.maxValue → Guarded.add trimMark 1 = some (Address.advance trimMark 1)) ∧
      ∀ r ∈ layout.regions,
        Guarded.neededSpan trimMark r = some (
            if (Layout.neededSpan trimMark r).first ≤ (Layout.neededSpan trimMark r).last then
              some (Layout.neededSpan trimMark r)
            else none) ∧
          Guarded.length (Layout.neededSpan trimMark r) =
            some (Layout.neededSpan trimMark r).length
  /-- The pieces of the required segments, and the counts of those that are joined. -/
  merged : ∀ {layout trimMark},
    m.happening = .reply (.readingTrimMark layout) (.ok trimMark) → ∃ required,
      layout.requirement m.before.node trimMark = .ok required ∧ ∀ f ∈ required, ∃ pieces,
        overlay m.before.tracked f = .ok pieces ∧
          Guarded.overlay m.before.tracked f = some pieces ∧ Measured pieces
  /-- The tally of a worker with one more chunk. -/
  noted : ∀ {s answer i o w t}, m.happening = .reply s answer → s.ending? answer = some (i, o) →
    s.workload? = some w → w.targets[i]? = some t →
      Guarded.noteFor w.worker o t.tallies = some (Tally.noteFor w.worker o t.tallies)
  /-- The tallies of any workers of a target, in any order in which they end, and the total. -/
  tallied : ∀ {c p w}, m.Passes c p → p.workload? = some w → ∀ t ∈ w.targets,
    (∀ us : List Tally, us.Subperm (t.tallies.map (·.2)) →
        Guarded.ofWorkers us = some (Tally.ofWorkers us)) ∧
      Guarded.total t.tally = some t.tally.total
  /-- Whether the copied ranges cover what the regions of a layout require. -/
  covered : ∀ {c d base left}, m.Passes c (.listing d base left) → ∀ r ∈ base.regions,
    Guarded.covered d.trimMark (Layout.copiedSpans d.tracked) r =
      some (Span.covers (Layout.copiedSpans d.tracked) (Layout.neededSpan d.trimMark r))
  /-- The lengths of the published segments, and of those that the cycle works on. -/
  measured : Measured m.before.tracked ∧
    ∀ {c p tracked}, m.Passes c p → p.list? = some tracked → Measured tracked

section

variable {moments : List Moment} {m : Moment} {c : Coordinator} {p : Point}
  {tracked : List TrackedSegment}

theorem measured_of_capped (h : Capped tracked) (hvalid : ∀ s ∈ tracked, s.Valid) :
    Measured tracked :=
  fun s hs => Guarded.length_eq (hvalid s hs).first_nonneg (h s hs)

theorem Bounded.capped (h : Bounded p) (hlist : p.list? = some tracked) : Capped tracked := by
  cases p with
  | listing d base left =>
    cases hlist
    exact h.1
  | waiting s =>
    cases s with
    | readingLayout | readingTrimMark => cases hlist
    | _ =>
      cases hlist
      exact h
  | _ =>
    cases hlist
    exact h

theorem Represented.valid_list (h : Represented moments p) (hlist : p.list? = some tracked) :
    ∀ s ∈ tracked, s.Valid := by
  cases p with
  | drafted | copied | unlisted | listing | settled | through =>
    cases hlist
    exact (Faithful.tracks h).valid
  | working | lost | passed =>
    cases hlist
    exact h.1.tracks.valid
  | waiting s =>
    cases s with
    | readingLayout | readingTrimMark => cases hlist
    | checking | copying =>
      cases hlist
      exact h.1.tracks.valid
    | proposing | refreshing =>
      cases hlist
      exact (Faithful.tracks h).valid
  | _ =>
    cases hlist
    obtain ⟨layout, trimMark, -, -, htracks⟩ := h
    exact htracks.valid

/-- Where a cycle copies, no target weighs more than a word can say. -/
theorem weight_lt_of_tallied (hconfined : Confined moments p) (htallied : Tallied moments p)
    {w : Workload} (hw : p.workload? = some w) {t : Target} (ht : t ∈ w.targets) :
    t.weight < 2 ^ 64 := by
  cases p with
  | working | lost | passed =>
    cases hw
    exact htallied.2.weight_lt hconfined.2 ht
  | waiting s =>
    cases s with
    | checking | copying =>
      cases hw
      exact htallied.2.weight_lt hconfined.2 ht
    | _ => cases hw
  | _ => cases hw

theorem noteFor_eq_of_tallied {s : Stage} {answer : s.query.Reply} {i : Nat} {o : ChunkOutcome}
    (hconfined : Confined moments (.waiting s)) (htallied : Tallied moments (.waiting s))
    (hending : s.ending? answer = some (i, o)) {w : Workload} (hw : s.workload? = some w)
    {t : Target} (ht : w.targets[i]? = some t) :
    Guarded.noteFor w.worker o t.tallies = some (Tally.noteFor w.worker o t.tallies) := by
  obtain ⟨d, w', errand, rfl, rfl, hle⟩ := Stage.weight_ending_le hending
  rw [errand.workload?_stage] at hw
  cases hw
  have hlt := (tallied_stage.mp htallied).2.weight_add_lt (confined_stage.mp hconfined).2 ht
  have hweight : (t.tallies.map (·.2.weight)).sum = t.weight := rfl
  exact Guarded.noteFor_eq (by omega)

theorem exact_tallies {t : Target} (ht : t.weight < 2 ^ 64) :
    (∀ us : List Tally, us.Subperm (t.tallies.map (·.2)) →
        Guarded.ofWorkers us = some (Tally.ofWorkers us)) ∧
      Guarded.total t.tally = some t.tally.total :=
  ⟨fun _ hus => Guarded.ofWorkers_eq (Nat.lt_of_le_of_lt (Target.sum_weight_le hus) ht),
    Guarded.total_eq (Nat.lt_of_le_of_lt t.weight_tally_le ht)⟩

theorem exact_overlay {layout : Layout} (hl : layout.Valid) (htidy : Tidy c.tracked)
    (hlist : Capped c.tracked) (trimMark : Address) : ∃ required,
      layout.requirement c.node trimMark = .ok required ∧ ∀ f ∈ required, ∃ pieces,
        overlay c.tracked f = .ok pieces ∧ Guarded.overlay c.tracked f = some pieces ∧
          Measured pieces := by
  have hrequired := Layout.requirement_eq hl c.node trimMark
  have hrec := reconcilable hl htidy.ascending htidy.valid hrequired
  refine ⟨_, hrequired, fun f hf => ?_⟩
  refine ⟨_, hrec.overlay_eq hf, Guarded.overlay_eq hrec hlist hf, ?_⟩
  refine measured_of_capped (fun p hp => ?_) fun p => hrec.valid_of_mem_overlaid hf
  exact Int64.lt_of_le_of_lt (hrec.bounds_of_mem_overlaid hf hp).2.2 (hrec.last_lt f hf)

theorem Moment.Requires.valid {layout : Layout} {trimMark : Address}
    (h : m.Requires layout trimMark) (hlawful : m.happening.Lawful)
    (possible : m.happening.Possible m.before)
    (hstage : ∀ s, m.before.stage = some s → Represented moments (.waiting s)) :
    layout.Valid := by
  cases h with
  | drafting => exact (hstage _ possible).2
  | adapting => exact hlawful

end

/-- Whatever the history, the layouts, the trim marks and the batch size: what is reckoned with
words at a moment comes to what it comes to with integers. Only the bare address after the highest
trim mark is excepted, which is held at the highest address. The ranges that are required above that
trim mark, and their lengths, are those over the integers all the same. -/
theorem exact_of_run {node : NodeId} {settings : Settings} {moments : List Moment}
    {c : Coordinator} (hrun : Run { node, settings } moments c) (hlawful : Lawful moments) :
    ∀ m ∈ moments, m.Exact := by
  intro m hm
  obtain ⟨earlier, hsuffix, hnow⟩ := hrun.exists_of_mem hm
  have hlawful : Lawful (m :: earlier) := fun m' hm' => hlawful m' (hsuffix.subset hm')
  obtain ⟨hbefore, possible⟩ := hnow.before
  have inv := invariant_bounded node settings
  obtain ⟨⟨⟨htidy, -⟩, hcapped⟩, hstage⟩ := inv.run hbefore fun m' hm' =>
    hlawful m' (List.mem_cons_of_mem _ hm')
  have hpassed : ∀ {c p}, m.Passes c p → _ := fun h => inv.passes rfl hnow hlawful h
  have hrep := fun s hs => (hstage s hs).1.1.1
  refine ⟨?_, ?_, ?_, ?_, ?_, ?_, ?_⟩
  · intro layout trimMark hrequires
    have hvalid := hrequires.valid (hlawful m List.mem_cons_self) possible hrep
    refine ⟨fun hbelow => ?_, fun r hr => ?_⟩
    · rw [Guarded.add_one hbelow, Address.advance_one hbelow]
    · have hr := hvalid.region hr
      exact ⟨Guarded.neededSpan_eq hr trimMark, Guarded.length_neededSpan hr trimMark⟩
  · intro layout trimMark hreply
    rw [hreply] at possible
    exact exact_overlay (hrep _ possible).2 htidy hcapped trimMark
  · intro s answer i o w t hreply hending hw ht
    rw [hreply] at possible
    obtain ⟨⟨⟨-, hconfined⟩, htallied⟩, -⟩ := hstage s possible
    exact noteFor_eq_of_tallied hconfined htallied hending hw ht
  · intro c p w hp hw t ht
    obtain ⟨⟨⟨-, hconfined⟩, htallied⟩, -⟩ := hpassed hp
    exact exact_tallies (weight_lt_of_tallied hconfined htallied hw ht)
  · intro c d base left hp r hr
    obtain ⟨-, -, hbase⟩ := hpassed hp
    exact Guarded.covered_eq (hbase.region hr) d.trimMark _
  · exact measured_of_capped hcapped htidy.valid
  · intro c p tracked hp hlist
    obtain ⟨⟨⟨hrepresented, -⟩, -⟩, hbounded⟩ := hpassed hp
    exact measured_of_capped (hbounded.capped hlist) (hrepresented.valid_list hlist)

/-! ## The edge of the address space -/

/-- The second region goes on to the highest address. -/
def openEnded : Layout := ⟨1, [⟨0, 5, [⟨["a"]⟩]⟩, ⟨5, Int64.maxValue, [⟨["a"]⟩]⟩]⟩

/-- A cycle that reads this layout, and that all but its last address is trimmed. -/
def openMoments : List Moment :=
  readMoments { node := "n", settings := {} } openEnded (Int64.maxValue - 2)

theorem lawful_openMoments : Lawful openMoments := by
  have hvalid : openEnded.Valid := by decide +kernel
  have hlawful := lawful_readMoments lawful_nil { node := "n", settings := {} } hvalid
    (Int64.maxValue - 2)
  rwa [List.append_nil] at hlawful

theorem run_openMoments : ∃ c, Run { node := "n", settings := {} } openMoments c := by
  have hrun := run_readMoments (.nil : Run { node := "n", settings := {} } [] _) rfl rfl openEnded
    (Int64.maxValue - 2)
  rw [List.append_nil] at hrun
  exact ⟨_, hrun⟩

theorem exact_of_openEnded :
    (∃ c, Run { node := "n", settings := {} } openMoments c) ∧ Lawful openMoments ∧
      (∀ m ∈ openMoments, m.Exact) ∧
      ∃ r ∈ openEnded.regions, r.stop = Int64.maxValue ∧
        Guarded.neededSpan (Int64.maxValue - 2) r =
          some (some ⟨Int64.maxValue - 1, Int64.maxValue - 1⟩) := by
  obtain ⟨c, hrun⟩ := run_openMoments
  have hexact := exact_of_run hrun lawful_openMoments
  have hlast : (⟨5, Int64.maxValue, [⟨["a"]⟩]⟩ : Region) ∈ openEnded.regions :=
    List.mem_cons_of_mem _ List.mem_cons_self
  refine ⟨⟨c, hrun⟩, lawful_openMoments, hexact, _, hlast, rfl, ?_⟩
  have hneeded := (((hexact _ List.mem_cons_self).required .drafting).2 _ hlast).1
  rw [hneeded]
  decide +kernel

end Coordinator

end LogRepair
