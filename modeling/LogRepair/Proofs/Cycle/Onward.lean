import LogRepair.Proofs.Cycle.Questions

/-!
# Copies never fall back

As long as an address stays in the layout and above the trim mark, its copy only goes on.

* `CopyState.phase`: how far a copy has come. A failure comes before a copy here, for it is tried
  again, while a reconciliation ranks it higher.
* `TrackedSegment.Advances`: what becomes of a segment of a draft within a cycle.
* `Coordinator.Onward`: what is known at each point of a cycle of one address.
* `Coordinator.copied_stays_copied`: along every run from the end of a cycle on, what is copied
  stays copied and is not asked about again, what is restored stays restored, and no failure is
  forgotten.
-/

namespace LogRepair

open TrackedSegment

/-! ## How far a copy has come -/

namespace CopyState

def phase : CopyState → Nat
  | notTransferred => 0
  | failed => 1
  | transferred => 2
  | restored => 3

theorem phase_le_restored (a : CopyState) : a.phase ≤ restored.phase := by
  cases a <;> decide

theorem eq_restored_of_phase {a : CopyState} (h : restored.phase ≤ a.phase) : a = .restored := by
  cases a <;> first | rfl | exact absurd h (by decide)

theorem isComplete_iff_phase {a : CopyState} : a.isComplete = true ↔ 2 ≤ a.phase := by
  cases a <;> decide

theorem phase_lt_of_isDue {a : CopyState} (h : a.isDue = true) : a.phase < 2 := by
  cases a <;> first | decide | cases h

/-- A layout requires a range as missing or as restored, and neither takes a copy back. -/
theorem phase_le_higher (a : CopyState) {b : CopyState} (hb : b = .notTransferred ∨ b = .restored) :
    a.phase ≤ (a.higher b).phase := by
  rcases hb with rfl | rfl <;> cases a <;> decide

end CopyState

namespace TrackedSegment

/-- The segment `u` has the span of `s`, and its copy has come at least as far. -/
structure Advances (s u : TrackedSegment) : Prop where
  toSpan_eq : u.toSpan = s.toSpan
  phase_le : s.state.phase ≤ u.state.phase

theorem Advances.refl (s : TrackedSegment) : s.Advances s := ⟨rfl, Nat.le_refl _⟩

/-- In the tracked list the copy of the address has come as far as the phase `n`. -/
def Advanced (x : Address) (n : Nat) (tracked : List TrackedSegment) : Prop :=
  ∃ s ∈ tracked, x ∈ s.toSpan ∧ n ≤ s.state.phase

theorem Advanced.of_forall₂ {x : Address} {n : Nat} {tracked tracked' : List TrackedSegment}
    (h : Advanced x n tracked) (hadvances : List.Forall₂ Advances tracked tracked') :
    Advanced x n tracked' := by
  obtain ⟨s, hs, hx, hn⟩ := h
  induction hadvances with
  | nil => cases hs
  | @cons t u rest rest' htu _ ih =>
    rcases List.mem_cons.mp hs with rfl | hs
    · exact ⟨u, List.mem_cons_self, htu.toSpan_eq ▸ hx, Nat.le_trans hn htu.phase_le⟩
    · obtain ⟨v, hv, hxv⟩ := ih hs
      exact ⟨v, List.mem_cons_of_mem _ hv, hxv⟩

end TrackedSegment

theorem Target.advances_of_close {t : Target} {fate : TrackedSegment × Bool}
    (h : t.close = .ok fate) : t.segment.Advances fate.1 := by
  obtain ⟨hspan, -, hstate⟩ := Target.of_close h
  refine ⟨hspan, ?_⟩
  rcases hstate with hstate | ⟨hdue, hstate⟩
  · exact Nat.le_of_eq (congrArg CopyState.phase hstate.symm)
  · unfold isDue at hdue
    revert hdue
    rcases hstate with hstate | hstate <;> rw [hstate] <;> cases t.segment.state <;> decide

namespace Coordinator

/-! ## What a cycle makes of its draft -/

theorem advances_replaceCandidates {d : Draft} {w : Workload} (h : Serves d w)
    {fates : List (TrackedSegment × Bool)} (hclose : w.close = .ok fates) :
    List.Forall₂ Advances d.tracked (replaceCandidates d.tracked (fates.map (·.1))) := by
  refine (h.renewed hclose).forall₂ Advances.refl fun i s u hclosed => ?_
  obtain ⟨t, short, -, rfl, heq⟩ := hclosed
  exact Target.advances_of_close heq

theorem advances_markListed {ready tracked tracked' : List TrackedSegment}
    (hvalid : ∀ s ∈ tracked, s.Valid) (h : Listing.markListed ready tracked = .ok tracked') :
    List.Forall₂ Advances tracked tracked' := by
  refine (forall₂_of_mapM h).imp fun s s' hs => ?_
  rcases eq_or_eq_of_markListed hvalid hs.1 hs.2 with ⟨-, rfl⟩ | rfl
  · exact ⟨rfl, CopyState.phase_le_restored _⟩
  · exact .refl s'

/-- A reconciliation takes no copy back that the layout still has above the trim mark. -/
theorem advanced_draft {c : Coordinator} {layout : Layout} {trimMark : Address} {d : Draft}
    {x : Address} {n : Nat} (hl : layout.Valid) (hlist : Tidy c.tracked)
    (hcovers : layout.Covers x) (htrim : trimMark < x) (hx : Advanced x n c.tracked)
    (h : c.draft layout trimMark = .ok d) : Advanced x n d.tracked := by
  obtain ⟨required, hrequired, hrec, rfl⟩ := hlist.of_draft hl h
  obtain ⟨o, ho, hxo, hn⟩ := hx
  obtain ⟨f, hf, hxf⟩ := Layout.exists_mem_requirement hl hrequired hcovers htrim
  obtain ⟨s, hs, hxs⟩ := (hrec.tiles_overlaid hf).exists_mem hxf.1 hxf.2
  refine ⟨s, List.mem_filter.mpr ⟨mem_reconciled.mpr (Or.inl ⟨f, hf, hs⟩), ?_⟩, hxs, ?_⟩
  · exact decide_eq_true (Int64.lt_of_lt_of_le htrim hxs.2)
  · have hfresh : f.state = .notTransferred ∨ f.state = .restored := by
      obtain ⟨r, -, -, rfl⟩ := (Layout.mem_requirement_iff hl hrequired).mp hf
      exact Layout.state_need
    rcases hrec.state_of_mem_overlaid hf hs hxs with ⟨o', ho', hxo', heq⟩ | ⟨-, houtside⟩
    · obtain rfl := hlist.ascending.eq_of_mem ho ho' hxo hxo'
      rw [heq]
      exact Nat.le_trans hn (CopyState.phase_le_higher _ hfresh)
    · exact absurd hxo (houtside o ho)

/-! ## The points of a cycle -/

/-- A layout that the moment reads at the beginning of a cycle has the address, and a trim mark that
it reads lies below it. -/
def Moment.Keeps (m : Moment) (x : Address) : Prop :=
  match m.happening with
  | .reply .readingLayout (.ok layout) => layout.Covers x
  | .reply (.readingTrimMark _) (.ok trimMark) => trimMark < x
  | _ => True

/-- What is known at each point of an address whose copy has come as far as the phase `n`. -/
def Onward (x : Address) (n : Nat) : Point → Prop
  | .drafted d | .copied d | .unlisted d | .listing d _ _ | .settled d _ _ | .through d =>
    Advanced x n d.tracked
  | .working d _ | .lost d _ | .passed d _ => Advanced x n d.tracked
  | .waiting .readingLayout => True
  | .waiting (.readingTrimMark layout) => layout.Covers x
  | .waiting (.checking d _ _ _) | .waiting (.copying d _ _ _ _) => Advanced x n d.tracked
  | .waiting (.proposing d _ _ _ _) | .waiting (.refreshing d _) => Advanced x n d.tracked
  | .over (some tracked) _ => Advanced x n tracked
  | .over none _ => True

section

variable {x : Address} {n : Nat} {moments : List Moment} {c : Coordinator}

theorem onward_stage {d : Draft} {w : Workload} {errand : Errand} :
    Onward x n (.waiting (errand.stage d w)) ↔ Advanced x n d.tracked := by
  cases errand <;> exact Iff.rfl

theorem Onward.step {p q : Point} (hrep : Represented moments p) (hp : Onward x n p)
    (h : Step c p q) : Onward x n q := by
  cases h with
  | skip | copy | take | retire | replace | miss | stop | goOn | rest | list | exhaust | defer
  | reflect | propose | skipMarks | conclude => exact hp
  | crash | refuse => trivial
  | turn h => exact onward_stage.mpr hp
  | close h hcrashed hclose => exact hp.of_forall₂ (advances_replaceCandidates hrep.2 hclose)
  | mark h => exact hp.of_forall₂ (advances_markListed (Faithful.tracks hrep).valid h)

theorem Onward.entry {s : Stage} {answer : s.query.Reply} {p : Point}
    (hkeeps : Moment.Keeps ⟨c, .reply s answer⟩ x) (hlist : Tidy c.tracked)
    (hx : Advanced x n c.tracked) (hrep : Represented moments (.waiting s))
    (hp : Onward x n (.waiting s)) (h : Entry c s answer p) : Onward x n p := by
  cases h with
  | layoutUnread | trimMarkUnread | undrafted => trivial
  | layoutRead => exact hkeeps
  | drafted h => exact advanced_draft hrep.2 hlist hp hkeeps hx h
  | unreadable | inverted | held | missing | written | uncopied | crashed => exact hp
  | accepted | stale | refused | refreshed | unrefreshed => exact hp

theorem Onward.shift {s : Stage} {p : Point} (hp : Onward x n (.waiting s)) (h : Shift s p) :
    Onward x n p := by
  cases h with
  | recancel f hs =>
    cases s with
    | checking | copying => exact hp
    | _ => cases hs
  | switch h => exact onward_stage.mpr (onward_stage.mp hp)
  | hire h => exact onward_stage.mp hp
  | abandon h hcrashed => trivial

end

/-! ## Along a run -/

theorem invariant_onward {b : Coordinator} (hidle : b.stage = none) (htidy : Tidy b.tracked)
    {x : Address} {n : Nat} (hx : Advanced x n b.tracked) :
    Invariant b
      (fun moments p => (Represented moments p ∧ Confined moments p) ∧
        ((∀ m ∈ moments, m.Keeps x) → Onward x n p))
      (fun moments tracked => Tidy tracked ∧
        ((∀ m ∈ moments, m.Keeps x) → Advanced x n tracked)) := by
  have base := invariant_confined hidle htidy
  exact {
    list_start := ⟨base.list_start, fun _ => hx⟩
    stage_start := fun s hs => by
      rw [hidle] at hs
      cases hs
    list_cons := fun h => ⟨h.1, fun hkept => h.2 (List.forall_mem_cons.mp hkept).2⟩
    begun := fun _ _ => ⟨⟨trivial, trivial⟩, fun _ => trivial⟩
    aside := fun hm hp =>
      ⟨base.aside hm hp.1, fun hkept => hp.2 (List.forall_mem_cons.mp hkept).2⟩
    shift := fun hp h => ⟨base.shift hp.1 h, fun hkept => (hp.2 hkept).shift h⟩
    entry := fun task hlawful hlist hp h =>
      ⟨base.entry task hlawful hlist.1 hp.1 h, fun hkept => by
        obtain ⟨hkeeps, hkept⟩ := List.forall_mem_cons.mp hkept
        exact (hp.2 hkept).entry hkeeps hlist.1 (hlist.2 hkept) hp.1.1 h⟩
    step := fun task hp h =>
      ⟨base.step task hp.1 h, fun hkept => (hp.2 hkept).step hp.1.1 h⟩
    publish := fun hp => ⟨base.publish hp.1, hp.2⟩ }

/-- In a list that is in order the state of an address is as far on as was found of it. -/
theorem exists_stateAt?_of_advanced {tracked : List TrackedSegment} {x : Address} {n : Nat}
    (hascending : Ascending tracked) (h : Advanced x n tracked) :
    ∃ state, stateAt? tracked x = some state ∧ n ≤ state.phase := by
  obtain ⟨s, hs, hx, hn⟩ := h
  exact ⟨s.state, (stateAt?_eq_some_iff hascending).mpr ⟨s, hs, hx, rfl⟩, hn⟩

/-- A question about an address comes only from a cycle that has no copy of it. -/
theorem phase_lt_of_touches {moments : List Moment} {s : Stage} {x : Address} {n : Nat}
    (hrep : Represented moments (.waiting s)) (hconfined : Confined moments (.waiting s))
    (honward : Onward x n (.waiting s)) (hx : s.query.Touches x) : n < 2 := by
  obtain ⟨d, w, errand, rfl, hfaithful, o, ho, hdue, hxo⟩ :=
    exists_due_of_touches hrep hconfined hx
  obtain ⟨t, ht, hxt, hn⟩ := onward_stage.mp honward
  obtain rfl := hfaithful.tracks.ascending.eq_of_mem ho ht hxo hxt
  exact Nat.lt_of_le_of_lt hn (CopyState.phase_lt_of_isDue hdue)

/-- Let a cycle have ended, and let an address be tracked then. As long as the layouts that cycles
read afterwards have the address, and their trim marks lie below it, it stays tracked: copied if it
was copied, restored if it was restored, and not as if nothing was tried if it had failed. If it was
copied, no question is about it any more. -/
theorem copied_stays_copied {node : NodeId} {settings : Settings} {moments later : List Moment}
    {b c : Coordinator} (hrun : Run { node, settings } moments b) (hlawful : Lawful moments)
    (hidle : b.stage = none) (hlater : Run b later c) (hlawful' : Lawful later) {x : Address}
    (hkept : ∀ m ∈ later, m.Keeps x) {state : CopyState}
    (hstate : stateAt? b.tracked x = some state) :
    (∃ state', stateAt? c.tracked x = some state' ∧
        (state.isComplete = true → state'.isComplete = true) ∧
        (state = .restored → state' = .restored) ∧
        (state = .failed → state' ≠ .notTransferred)) ∧
      (state.isComplete = true →
        ∀ m ∈ later, ∀ s, m.after.stage = some s → ¬s.query.Touches x) := by
  have htidy : Tidy b.tracked := ((invariant_represented node settings).run hrun hlawful).1
  have hx : Advanced x state.phase b.tracked := by
    obtain ⟨s, hs, hxs, rfl⟩ := exists_mem_of_stateAt? hstate
    exact ⟨s, hs, hxs, Nat.le_refl _⟩
  have inv := invariant_onward hidle htidy hx
  constructor
  · obtain ⟨⟨hlist, hadvanced⟩, -⟩ := inv.run hlater hlawful'
    obtain ⟨state', hstate', hphase⟩ :=
      exists_stateAt?_of_advanced hlist.ascending (hadvanced hkept)
    refine ⟨state', hstate', fun hcomplete => ?_, ?_, ?_⟩
    · rw [CopyState.isComplete_iff_phase] at hcomplete ⊢
      exact Nat.le_trans hcomplete hphase
    · rintro rfl
      exact CopyState.eq_restored_of_phase hphase
    · rintro rfl rfl
      exact absurd hphase (by decide)
  · intro hcomplete m hm s hs htouches
    obtain ⟨earlier, hsuffix, hearlier⟩ := hlater.exists_of_mem hm
    obtain ⟨-, hstage⟩ := inv.run hearlier fun m hm => hlawful' m (hsuffix.subset hm)
    obtain ⟨⟨hrep, hconfined⟩, honward⟩ := hstage s hs
    have hphase := phase_lt_of_touches hrep hconfined
      (honward fun m hm => hkept m (hsuffix.subset hm)) htouches
    rw [CopyState.isComplete_iff_phase] at hcomplete
    omega

/-! ## A cycle that requires everything anew -/

/-- A later layout that does not list the node at all. -/
def unlistedLayout : Layout := ⟨5, [⟨0, 9, [⟨["a"]⟩]⟩]⟩

/-- The range that is restored stays so, though the layout that is read next asks for all of it, and
the cycle does not ask about it. -/
theorem copied_stays_copied_when_unlisted :
    ∃ metrics c,
      Run (halfFailed metrics) (readMoments (halfFailed metrics) unlistedLayout 3 ++ []) c ∧
      stateAt? (halfFailed metrics).tracked 7 = some .restored ∧
      stateAt? c.tracked 7 = some .restored ∧ ∀ s, c.stage = some s → ¬s.query.Touches 7 := by
  obtain ⟨metrics, hrun⟩ := run_failMoments
  have hnil : Run (halfFailed metrics) [] (halfFailed metrics) := .nil
  have hlater := run_readMoments hnil rfl rfl unlistedLayout 3
  have hvalid : unlistedLayout.Valid := by decide +kernel
  have hlawful := lawful_readMoments lawful_nil (halfFailed metrics) hvalid 3
  have hcovers : unlistedLayout.Covers 7 :=
    ⟨⟨0, 9, [⟨["a"]⟩]⟩, by decide +kernel, by decide +kernel⟩
  have hkept : ∀ m ∈ readMoments (halfFailed metrics) unlistedLayout 3 ++ [], m.Keeps 7 := by
    have htrim : (3 : Address) < 7 := by decide
    exact List.forall_mem_cons.mpr ⟨htrim, List.forall_mem_cons.mpr ⟨hcovers,
      List.forall_mem_cons.mpr ⟨trivial, fun _ hm => absurd hm List.not_mem_nil⟩⟩⟩
  have hstate : stateAt? (halfFailed metrics).tracked 7 = some .restored := by
    have htracked : (halfFailed metrics).tracked = [failedHalf, heldHalf] := rfl
    rw [htracked]
    decide +kernel
  obtain ⟨⟨state, hafter, -, hrestored, -⟩, hsilent⟩ :=
    copied_stays_copied hrun lawful_failMoments rfl hlater hlawful hkept hstate
  refine ⟨metrics, _, hlater, hstate, hrestored rfl ▸ hafter, ?_⟩
  exact hsilent rfl _ List.mem_cons_self

end Coordinator

end LogRepair
