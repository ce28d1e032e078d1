import LogRepair.Cycle.Calm
import LogRepair.Proofs.Cycle.Points

/-!
# Assertions along a calm cycle

In a calm cycle no target is cut short and no worker dies, so its points are those of a cycle of
which nothing but replies, turns of the workers and new workers have to be considered.

* `Coordinator.CalmInvariant`: what has to be checked of an assertion about the points of a calm
  cycle.
* `Coordinator.CalmInvariant.run`: that it then holds where the cycle waits and where it ends.
-/

namespace LogRepair.Coordinator

theorem replies_cons_reply (c : Coordinator) (s : Stage) (answer : s.query.Reply)
    (moments : List Moment) :
    replies (⟨c, .reply s answer⟩ :: moments) = replies moments + 1 :=
  List.countP_cons_of_pos rfl

/-- What has to be checked of an assertion about the points of a calm cycle of `b`, after so many
replies and with the store as it is then. -/
structure CalmInvariant (b : Coordinator) (store : LayoutStore)
    (P : Nat → LayoutStore → Point → Prop) : Prop where
  begun : P 0 store (.waiting .readingLayout)
  alive : ∀ {n σ s w}, P n σ (.waiting s) → s.workload? = some w → w.crashed = false
  switch : ∀ {n σ d w k worker} {errand errand' : Errand}, P n σ (.waiting (errand.stage d w)) →
    w.others[k]? = some (worker, errand') →
    P n σ (.waiting (errand'.stage d
      { w with worker, others := w.others.set k (w.worker, errand) }))
  hire : ∀ {n σ d w} {errand : Errand}, P n σ (.waiting (errand.stage d w)) →
    w.spareWorkers ≠ 0 → P n σ (.working d (w.park errand).hire)
  entry : ∀ {n σ c s answer p}, SameOrders b c → c.tracked = b.tracked → P n σ (.waiting s) →
    (Happening.reply s answer).Calm σ c → Entry c s answer p →
    P (n + 1) (σ.after (.reply s answer)) p
  step : ∀ {n σ c p q}, SameOrders b c → P n σ p → Step c p q → P n σ q

/-- A calm cycle waits where the assertion holds, or has ended where it holds. -/
structure CalmInvariant.Holds (b : Coordinator) (P : Nat → LayoutStore → Point → Prop)
    (moments : List Moment) (store : LayoutStore) (c : Coordinator) : Prop where
  orders : SameOrders b c
  waits_or_ended :
    (c.tracked = b.tracked ∧ ∃ s, c.stage = some s ∧ P (replies moments) store (.waiting s)) ∨
      c.stage = none ∧ ∃ published outcome, (∃ m ∈ moments.head?, m.outcome = some outcome) ∧
        P (replies moments) store (.over published outcome) ∧
        c.tracked = published.getD b.tracked

namespace CalmInvariant

variable {b c : Coordinator} {store store' : LayoutStore} {moments : List Moment}
  {P : Nat → LayoutStore → Point → Prop}

theorem Holds.of_waits (h : Holds b P moments store c) {s : Stage} (hs : c.stage = some s) :
    c.tracked = b.tracked ∧ P (replies moments) store (.waiting s) := by
  rcases h.waits_or_ended with ⟨htracked, s', hs', hp⟩ | ⟨hended, -⟩
  · obtain rfl := Option.some.inj (hs.symm.trans hs')
    exact ⟨htracked, hp⟩
  · rw [hended] at hs
    cases hs

theorem Holds.of_ended (h : Holds b P moments store c) (hended : c.stage = none) :
    ∃ published outcome, (∃ m ∈ moments.head?, m.outcome = some outcome) ∧
      P (replies moments) store (.over published outcome) ∧
        c.tracked = published.getD b.tracked := by
  rcases h.waits_or_ended with ⟨-, s, hs, -⟩ | ⟨-, hover⟩
  · rw [hended] at hs
    cases hs
  · exact hover

/-- A turn that goes on from a point of which the assertion holds. -/
theorem holds_of_follows (inv : CalmInvariant b store P) (orders : SameOrders b c)
    (htracked : c.tracked = b.tracked) {h : Happening} (hgoing : h ≠ .shutdown) {p : Point}
    (hp : P (replies (⟨c, h⟩ :: moments)) store' p) (hfollows : Follows c p (h.turn c)) :
    Holds b P (⟨c, h⟩ :: moments) store' (h.turn c).coordinator := by
  refine ⟨orders.trans (sameOrders_turn c hgoing), ?_⟩
  obtain ⟨q, hq, hends⟩ := hfollows.exists_ends hp (inv.step orders)
  match q, hends with
  | .waiting s, ⟨_, hstage, hlist⟩ => exact Or.inl ⟨hlist.trans htracked, s, hstage, hq⟩
  | .over published outcome, ⟨houtcome, hstage, hlist⟩ =>
    rw [htracked] at hlist
    exact Or.inr ⟨hstage, published, outcome, ⟨_, rfl, houtcome⟩, hq, hlist⟩

/-- What happens besides replies may also leave everything as it is. -/
theorem holds_of_eq (h : Holds b P moments store c) (hrunning : c.stage.isSome = true)
    {happening : Happening} (hsame : (happening.turn c).coordinator = c)
    (haside : replies (⟨c, happening⟩ :: moments) = replies moments) :
    Holds b P (⟨c, happening⟩ :: moments) store (happening.turn c).coordinator := by
  obtain ⟨s, hs⟩ := Option.isSome_iff_exists.mp hrunning
  obtain ⟨htracked, hp⟩ := h.of_waits hs
  rw [hsame]
  refine ⟨h.orders, Or.inl ⟨htracked, s, hs, ?_⟩⟩
  rwa [haside]

theorem run (inv : CalmInvariant b store P) (hidle : b.stage = none) (hgoing : b.stopped = false)
    (hrun : CalmRun b store moments store' c) : Holds b P moments store' c := by
  induction hrun with
  | begun =>
    have hbegun : b.begin = b.wait .readingLayout := by simp [begin, hidle, hgoing]
    rw [hbegun]
    exact ⟨⟨⟨rfl, rfl⟩, rfl⟩, Or.inl ⟨rfl, _, rfl, inv.begun⟩⟩
  | @cons moments store' c hrun hrunning h possible calm ih =>
    obtain ⟨s, hs⟩ := Option.isSome_iff_exists.mp hrunning
    obtain ⟨htracked, hp⟩ := ih.of_waits hs
    cases h with
    | begin =>
      refine holds_of_eq ih hrunning ?_ rfl
      rw [Happening.turn, begin, if_pos hrunning]
    | reply s' answer =>
      obtain rfl := Option.some.inj (hs.symm.trans possible)
      obtain ⟨p, hentry, hfollows⟩ := follows_resume c s answer
      refine inv.holds_of_follows ih.orders htracked nofun ?_ hfollows
      rw [replies_cons_reply]
      exact inv.entry ih.orders htracked hp calm hentry
    | announce layout => exact holds_of_eq ih hrunning calm rfl
    | shutdown => exact absurd calm id
    | switch k =>
      rcases c.switch_cases k with heq | ⟨d, w, errand, worker, errand', hstage, hk, heq⟩
      · exact holds_of_eq ih hrunning (congrArg Turn.coordinator heq) rfl
      · obtain rfl := Option.some.inj (hs.symm.trans hstage)
        refine inv.holds_of_follows ih.orders htracked nofun (inv.switch hp hk) ?_
        rw [Happening.turn, heq]
        exact follows_wait c _
    | hire =>
      rcases c.hire_cases with heq | ⟨d, w, errand, hstage, hspare, heq⟩
      · exact holds_of_eq ih hrunning (congrArg Turn.coordinator heq) rfl
      · obtain rfl := Option.some.inj (hs.symm.trans hstage)
        refine inv.holds_of_follows ih.orders htracked nofun (inv.hire hp hspare) ?_
        rw [Happening.turn, heq]
        exact follows_nextChunk c d _
    | abandon =>
      rcases c.abandon_cases with heq | ⟨s', w, hstage, hw, hcrashed, -⟩
      · exact holds_of_eq ih hrunning (congrArg Turn.coordinator heq) rfl
      · obtain rfl := Option.some.inj (hs.symm.trans hstage)
        rw [inv.alive hp hw] at hcrashed
        cases hcrashed

/-- A bound on the replies after which the assertion holds bounds those of a run. -/
theorem replies_le (inv : CalmInvariant b store P) {bound : Nat}
    (hle : ∀ {n σ p}, P n σ p → n ≤ bound) (hidle : b.stage = none) (hgoing : b.stopped = false)
    (hrun : CalmRun b store moments store' c) : replies moments ≤ bound := by
  obtain ⟨-, ⟨-, s, -, hp⟩ | ⟨-, published, outcome, -, hp, -⟩⟩ := inv.run hidle hgoing hrun
  · exact hle hp
  · exact hle hp

end CalmInvariant

/-- Where no run takes more replies than a bound, one reply after another leads to the end. -/
theorem CalmRun.canEnd {b c : Coordinator} {store store' : LayoutStore} {moments : List Moment}
    {bound : Nat}
    (hbound : ∀ {moments store' c}, CalmRun b store moments store' c → replies moments ≤ bound)
    (hrun : CalmRun b store moments store' c) : CanEnd b store moments := by
  induction hleft : bound - replies moments using Nat.strongRecOn generalizing moments store' c with
  | ind left ih =>
    cases hstage : c.stage with
    | none => exact ⟨[], store', c, hrun, hstage⟩
    | some s =>
      obtain ⟨answer, hcalm⟩ := exists_calm_reply store' c s
      have hnext := hrun.cons (by rw [hstage]; rfl) (.reply s answer) hstage hcalm
      have hle := hbound hnext
      rw [replies_cons_reply] at hle
      obtain ⟨later, store'', c', hend, hidle⟩ := ih _ (by rw [replies_cons_reply]; omega) hnext rfl
      exact ⟨later ++ [⟨c, .reply s answer⟩], store'', c', by simpa using hend, hidle⟩

end LogRepair.Coordinator
