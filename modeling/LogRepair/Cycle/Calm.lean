import LogRepair.Cycle.Cluster

/-!
# Calm cycles

A cycle is calm if nothing goes wrong around it: the store answers for what it holds, the local
log tells which addresses it has, every address that is requested is written, nothing is cut short,
and nobody else writes to the store. Its workers still take turns as they like, and a layout may be
announced as long as it cuts nothing short.

* `Coordinator.Happening.Calm`: what may happen to a calm cycle.
* `Coordinator.CalmRun`: the runs of one calm cycle, from its beginning up to its end.
-/

namespace LogRepair.Coordinator

/-- Nothing goes wrong when this happens to the coordinator beside the store. -/
def Happening.Calm (store : LayoutStore) (c : Coordinator) : Happening → Prop
  | reply (.readingTrimMark _) answer => answer = .ok store.trimMark
  | reply (.checking _ _ _ _) answer => ∃ present, answer = .ok present
  | reply (.copying _ _ _ _ batch) answer =>
    ∃ addresses, answer = .written addresses ∧ batch.addresses ⊆ addresses
  | announce layout => (c.adaptTo layout).1 = c
  | shutdown => False
  | h => store.Answers h

/-- Each question has a calm answer. -/
theorem exists_calm_reply (store : LayoutStore) (c : Coordinator) (s : Stage) :
    ∃ answer, (Happening.reply s answer).Calm store c := by
  cases s with
  | readingLayout | readingTrimMark | refreshing => exact ⟨_, rfl⟩
  | checking => exact ⟨_, [], rfl⟩
  | copying _ _ _ _ batch => exact ⟨_, batch.addresses, rfl, List.Subset.refl _⟩
  | proposing => exact ⟨_, rfl⟩

/-- The moments of one calm cycle of the coordinator `b`, latest first, with the store and the
coordinator after them. They stop at the latest when the cycle ends. -/
inductive CalmRun (b : Coordinator) (store : LayoutStore) :
    List Moment → LayoutStore → Coordinator → Prop
  | begun : CalmRun b store [⟨b, .begin⟩] store b.begin.coordinator
  | cons {moments : List Moment} {store' : LayoutStore} {c : Coordinator}
      (run : CalmRun b store moments store' c) (running : c.stage.isSome = true) (h : Happening)
      (possible : h.Possible c) (calm : h.Calm store' c) :
      CalmRun b store (⟨c, h⟩ :: moments) (store'.after h) (h.turn c).coordinator

/-- A calm cycle continues the run that led to its beginning. -/
theorem CalmRun.run {start b c : Coordinator} {store store' : LayoutStore}
    {earlier moments : List Moment} (hcalm : CalmRun b store moments store' c)
    (hrun : Run start earlier b) : Run start (moments ++ earlier) c := by
  induction hcalm with
  | begun => exact hrun.cons .begin trivial
  | cons _ _ h possible _ ih => exact ih.cons h possible

/-- After these moments the cycle can be brought to its end. -/
def CanEnd (b : Coordinator) (store : LayoutStore) (moments : List Moment) : Prop :=
  ∃ later store' c, CalmRun b store (later ++ moments) store' c ∧ c.stage = none

/-- The replies among the moments. -/
def replies (moments : List Moment) : Nat := moments.countP fun m => m.happening matches .reply _ _

end LogRepair.Coordinator
