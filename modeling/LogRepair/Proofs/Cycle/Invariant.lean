import LogRepair.Proofs.Cycle.Points

/-!
# Assertions along a run

An assertion about the points of a cycle, and one about the published list, hold along every run
once they hold at its start and each happening, entry and step keeps them.

* `Coordinator.Happening.holds_at_stage`: what one turn keeps.
* `Coordinator.Invariant`: what has to be checked.
* `Coordinator.Invariant.run`: that the assertions then hold of what a run has led to.
* `Coordinator.Invariant.reply`: that every reply leads to a point of which they hold.
-/

namespace LogRepair

namespace Coordinator

/-! ## Assertions that hold along every run -/

/-- The happening is not a reply. -/
def Happening.IsAside : Happening → Prop
  | .reply _ _ => False
  | .begin | .announce _ | .shutdown | .switch _ | .hire | .abandon => True

theorem Happening.isAside_or_reply (h : Happening) :
    h.IsAside ∨ ∃ s answer, h = .reply s answer := by
  cases h with
  | reply s answer => exact Or.inr ⟨s, answer, rfl⟩
  | _ => exact Or.inl trivial

/-- A happening that is not a reply shifts the cycle if it does not begin one. -/
theorem Happening.IsAside.shifts {h : Happening} (haside : h.IsAside) (c : Coordinator) :
    Shifts c (h.turn c) ∨ h = .begin ∧ c.stage = none := by
  cases h with
  | begin =>
    cases hstage : c.stage with
    | none => exact Or.inr ⟨rfl, rfl⟩
    | some s =>
      simp only [Happening.turn, Coordinator.begin, hstage, Option.isSome_some, if_true]
      exact Or.inl (Or.inl ⟨rfl, rfl⟩)
  | reply s answer => exact absurd haside id
  | announce layout => exact Or.inl (shifts_announce c layout)
  | shutdown => exact Or.inl (shifts_shutdown c)
  | switch k => exact Or.inl (shifts_switch c k)
  | hire => exact Or.inl (shifts_hire c)
  | abandon => exact Or.inl (shifts_abandon c)

/-- An assertion about points that shifts, entries and steps keep holds where a turn leaves the
cycle waiting. -/
theorem Happening.holds_at_stage {c : Coordinator} {h : Happening} (possible : h.Possible c)
    {P : Point → Prop} (hstage : ∀ s, c.stage = some s → P (.waiting s))
    (hbegun : P (.waiting .readingLayout)) (hshift : ∀ {s p}, P (.waiting s) → Shift s p → P p)
    (hentry : ∀ {s answer p}, h = .reply s answer → P (.waiting s) → Entry c s answer p → P p)
    (hstep : ∀ {p q}, P p → Step c p q → P q) {s : Stage}
    (hs : (h.turn c).coordinator.stage = some s) : P (.waiting s) := by
  have hfollows : ∀ {p}, P p → Follows c p (h.turn c) → P (.waiting s) := by
    intro p hp hfollows
    obtain ⟨q, hq, hends⟩ := hfollows.exists_ends hp hstep
    rwa [hends.eq_waiting hs] at hq
  rcases h.isAside_or_reply with haside | ⟨s₀, answer, rfl⟩
  · rcases haside.shifts c with (⟨hsame, -⟩ | ⟨s₀, p, hs₀, hp, hends⟩) | ⟨rfl, hidle⟩
    · exact hstage s (hsame ▸ hs)
    · exact hfollows (hshift (hstage s₀ hs₀) hp) hends
    · simp only [Happening.turn, Coordinator.begin, hidle, Option.isSome_none, Bool.false_eq_true,
        if_false] at hs
      split at hs
      · exact hstage s hs
      · cases hs
        exact hbegun
  · obtain ⟨p, hp, hends⟩ := follows_resume c s₀ answer
    exact hfollows (hentry rfl (hstage s₀ possible) hp) hends

/-- What has to be checked of an assertion about points and one about the published list, both
after the moments of a run from `start`. -/
structure Invariant (start : Coordinator) (atPoint : List Moment → Point → Prop)
    (onList : List Moment → List TrackedSegment → Prop) : Prop where
  list_start : onList [] start.tracked
  stage_start : ∀ s, start.stage = some s → atPoint [] (.waiting s)
  list_cons : ∀ {moments m}, onList moments m.before.tracked →
    onList (m :: moments) m.before.tracked
  begun : ∀ {moments c}, c.stage = none → onList moments c.tracked →
    atPoint (⟨c, .begin⟩ :: moments) (.waiting .readingLayout)
  aside : ∀ {moments m s}, m.happening.IsAside → atPoint moments (.waiting s) →
    atPoint (m :: moments) (.waiting s)
  shift : ∀ {moments s p}, atPoint moments (.waiting s) → Shift s p → atPoint moments p
  entry : ∀ {moments c s reply p}, SameTask start c → (Happening.reply s reply).Lawful →
    onList moments c.tracked → atPoint moments (.waiting s) → Entry c s reply p →
    atPoint (⟨c, .reply s reply⟩ :: moments) p
  step : ∀ {moments c p q}, SameTask start c → atPoint moments p → Step c p q → atPoint moments q
  publish : ∀ {moments tracked outcome}, atPoint moments (.over (some tracked) outcome) →
    onList moments tracked

namespace Invariant

variable {start : Coordinator} {atPoint : List Moment → Point → Prop}
  {onList : List Moment → List TrackedSegment → Prop}

/-- After a turn that ends at a point the published list and the stage are as asserted. -/
theorem of_ends (inv : Invariant start atPoint onList) {moments : List Moment}
    {tracked : List TrackedSegment} {p : Point} {t : Turn} (htracked : onList moments tracked)
    (hp : atPoint moments p) (hends : p.Ends tracked t) :
    onList moments t.coordinator.tracked ∧
      ∀ s, t.coordinator.stage = some s → atPoint moments (.waiting s) := by
  refine ⟨?_, fun s hs => hends.eq_waiting hs ▸ hp⟩
  match p, hends with
  | .waiting s, ⟨_, _, hlist⟩ => rwa [hlist]
  | .over none outcome, ⟨_, _, hlist⟩ => rwa [hlist]
  | .over (some list) outcome, ⟨_, _, hlist⟩ =>
    rw [hlist]
    exact inv.publish hp

/-- What is asserted of the coordinator that a run has led to. -/
def Holds (atPoint : List Moment → Point → Prop)
    (onList : List Moment → List TrackedSegment → Prop) (moments : List Moment)
    (c : Coordinator) : Prop :=
  onList moments c.tracked ∧ ∀ s, c.stage = some s → atPoint moments (.waiting s)

theorem holds_begin (inv : Invariant start atPoint onList) {moments : List Moment}
    {c : Coordinator} (h : Holds atPoint onList moments c) (hidle : c.stage = none) :
    Holds atPoint onList (⟨c, .begin⟩ :: moments) c.begin.coordinator := by
  obtain ⟨hlist, hstage⟩ := h
  unfold begin
  rw [hidle, Option.isSome_none, if_neg Bool.false_ne_true]
  split
  · exact ⟨inv.list_cons hlist, fun s hs => inv.aside trivial (hstage s hs)⟩
  · refine ⟨inv.list_cons hlist, fun s hs => ?_⟩
    cases hs
    exact inv.begun hidle hlist

/-- A turn without a reply stays where it is or leads to a point of which the assertion holds. -/
theorem shifts (inv : Invariant start atPoint onList) {moments : List Moment} {c : Coordinator}
    (task : SameTask start c) (h : Holds atPoint onList moments c) {happening : Happening}
    (haside : happening.IsAside) {t : Turn} (ht : Shifts c t) :
    (t.coordinator.stage = c.stage ∧ t.coordinator.tracked = c.tracked) ∨
      ∃ p, atPoint (⟨c, happening⟩ :: moments) p ∧ p.Ends c.tracked t := by
  refine ht.imp id ?_
  rintro ⟨s, p, hs, hshift, hfollows⟩
  exact hfollows.exists_ends (inv.shift (inv.aside haside (h.2 s hs)) hshift) (inv.step task)

theorem holds_aside (inv : Invariant start atPoint onList) {moments : List Moment}
    {c : Coordinator} (task : SameTask start c) (h : Holds atPoint onList moments c)
    {happening : Happening} (haside : happening.IsAside) :
    Holds atPoint onList (⟨c, happening⟩ :: moments) (happening.turn c).coordinator := by
  rcases haside.shifts c with hshifts | ⟨rfl, hidle⟩
  · rcases inv.shifts task h haside hshifts with ⟨hstage, htracked⟩ | ⟨p, hp, hends⟩
    · refine ⟨?_, fun s hs => inv.aside haside (h.2 s (hstage ▸ hs))⟩
      rw [htracked]
      exact inv.list_cons h.1
    · exact inv.of_ends (inv.list_cons h.1) hp hends
  · exact inv.holds_begin h hidle

/-- A reply leads to a point of which the assertion holds. -/
theorem reply (inv : Invariant start atPoint onList) {moments : List Moment} {c : Coordinator}
    (task : SameTask start c) (h : Holds atPoint onList moments c) {s : Stage}
    (hs : c.stage = some s) {answer : s.query.Reply} (hlawful : (Happening.reply s answer).Lawful) :
    ∃ p, atPoint (⟨c, .reply s answer⟩ :: moments) p ∧ p.Ends c.tracked (c.resume s answer) := by
  obtain ⟨p, hentry, hfollows⟩ := follows_resume c s answer
  exact hfollows.exists_ends (inv.entry task hlawful h.1 (h.2 s hs) hentry) (inv.step task)

/-- Along every run the assertions hold of the stage and of the published list. -/
theorem run (inv : Invariant start atPoint onList) {moments : List Moment} {c : Coordinator}
    (hrun : Run start moments c) (hlawful : Coordinator.Lawful moments) :
    Holds atPoint onList moments c := by
  induction hrun with
  | nil => exact ⟨inv.list_start, inv.stage_start⟩
  | @cons moments c hrun happening possible ih =>
    have hc := ih fun m hm => hlawful m (List.mem_cons_of_mem _ hm)
    rcases happening.isAside_or_reply with haside | ⟨s, answer, rfl⟩
    · exact inv.holds_aside hrun.sameTask hc haside
    · obtain ⟨p, hp, hends⟩ := inv.reply hrun.sameTask hc possible (hlawful _ List.mem_cons_self)
      exact inv.of_ends (inv.list_cons hc.1) hp hends

/-- The assertion holds where the turn of the latest reply ended. -/
theorem answered (inv : Invariant start atPoint onList) {moments : List Moment}
    {b c : Coordinator} {s : Stage} {answer : s.query.Reply}
    (hrun : Run start (⟨b, .reply s answer⟩ :: moments) c)
    (hlawful : Coordinator.Lawful (⟨b, .reply s answer⟩ :: moments)) :
    ∃ p, atPoint (⟨b, .reply s answer⟩ :: moments) p ∧
      p.Ends b.tracked (b.resume s answer) ∧ c = (b.resume s answer).coordinator := by
  cases hrun with
  | cons hrun _ possible =>
    have hheld := inv.run hrun fun m hm => hlawful m (List.mem_cons_of_mem _ hm)
    obtain ⟨p, hp, hends⟩ := inv.reply hrun.sameTask hheld possible (hlawful _ List.mem_cons_self)
    exact ⟨p, hp, hends, rfl⟩

/-- A happening that leaves no stage behind where there was one ended the cycle. -/
theorem ended (inv : Invariant start atPoint onList) {moments : List Moment} {m : Moment}
    {c : Coordinator} (hrun : Run start (m :: moments) c)
    (hlawful : Coordinator.Lawful (m :: moments)) (hbefore : m.before.stage.isSome = true)
    (hafter : c.stage = none) :
    ∃ published outcome, atPoint (m :: moments) (.over published outcome) ∧
      c.tracked = published.getD m.before.tracked := by
  cases hrun with
  | @cons _ b hrun happening possible =>
    have hheld := inv.run hrun fun m hm => hlawful m (List.mem_cons_of_mem _ hm)
    have hends : ∃ p, atPoint (⟨b, happening⟩ :: moments) p ∧
        p.Ends b.tracked (happening.turn b) := by
      rcases happening.isAside_or_reply with haside | ⟨s, answer, rfl⟩
      · have hshifts := (haside.shifts b).resolve_right fun hidle => by simp [hidle.2] at hbefore
        refine (inv.shifts hrun.sameTask hheld haside hshifts).resolve_left fun hkept => ?_
        simp [← hkept.1, hafter] at hbefore
      · exact inv.reply hrun.sameTask hheld possible (hlawful _ List.mem_cons_self)
    obtain ⟨p, hp, hends⟩ := hends
    obtain ⟨published, outcome, rfl, -, hlist⟩ := hends.eq_over hafter
    exact ⟨published, outcome, hp, hlist⟩

end Invariant

/-- The latest moment of a run was possible after the others. -/
theorem Run.before {start c : Coordinator} {moments : List Moment} {m : Moment}
    (hrun : Run start (m :: moments) c) :
    Run start moments m.before ∧ m.happening.Possible m.before := by
  cases hrun with
  | cons hrun h possible => exact ⟨hrun, possible⟩

/-- Every moment of a run ends a shorter run. -/
theorem Run.exists_of_mem {start c : Coordinator} {moments : List Moment}
    (hrun : Run start moments c) {m : Moment} (hm : m ∈ moments) :
    ∃ earlier, (m :: earlier) <:+ moments ∧ Run start (m :: earlier) m.after := by
  induction hrun with
  | nil => cases hm
  | @cons moments c hrun h possible ih =>
    rcases List.mem_cons.mp hm with rfl | hm
    · exact ⟨moments, List.suffix_refl _, hrun.cons h possible⟩
    · obtain ⟨earlier, hsuffix, hearlier⟩ := ih hm
      exact ⟨earlier, hsuffix.trans (List.suffix_cons _ _), hearlier⟩

end Coordinator

end LogRepair
