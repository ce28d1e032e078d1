import LogRepair.Cycle.CutShort
import LogRepair.Proofs.Cycle.Copying
import LogRepair.Proofs.Cycle.Needed

/-!
# Targets with nothing left to hand out

A target that is not queued any more is not asked whether it is cut short. So the same replies lead
to the same end, whether it is cut short or not.

* `Coordinator.Point.Carries`: what comes after the copying leaves the counts of the report alone.
* `Coordinator.Spent`: the target has nothing left to hand out.
* `Workload.take_flag`, `Workload.close_flag`: what workers do with a spent target that is cut short
  or not.
* `Coordinator.flagged_turn`: whatever happens, the same comes of it.
* `Coordinator.CycleRun.same_end`: the same for all that happens up to the end of the copying.
-/

namespace LogRepair

/-! ## After the copying -/

/-- The two reports count the same. -/
structure Report.SameCounts (r r' : Report) : Prop where
  candidates_eq : r'.candidates = r.candidates
  transferred_eq : r'.transferred = r.transferred
  failed_eq : r'.failed = r.failed
  cancelled_eq : r'.cancelled = r.cancelled

namespace Coordinator

/-- The copying is over at the point, and the report counts the same as this one. -/
def Point.Carries (r : Report) : Point → Prop
  | .copied d | .unlisted d | .listing d _ _ | .settled d _ _ | .through d =>
    r.SameCounts d.report
  | .waiting (.proposing d _ _ _ _) | .waiting (.refreshing d _) => r.SameCounts d.report
  | .over _ outcome => ∀ report, outcome = .ok report → r.SameCounts report
  | .waiting .readingLayout | .waiting (.readingTrimMark _) => False
  | .waiting (.checking _ _ _ _) | .waiting (.copying _ _ _ _ _) => False
  | .drafted _ | .working _ _ | .lost _ _ | .passed _ _ => False

/-- The same of the point at which the turn leaves the cycle. -/
structure Carries (r : Report) (t : Turn) : Prop where
  stage : ∀ s, t.coordinator.stage = some s → (Point.waiting s).Carries r
  outcome : ∀ report, t.outcome = some (.ok report) → r.SameCounts report

section

variable {c : Coordinator} {r : Report}

theorem Point.Carries.step {p q : Point} (hp : p.Carries r) (h : Step c p q) : q.Carries r := by
  cases h with
  | skip | copy | take | retire | replace | miss | turn | crash | refuse | close => exact hp.elim
  | stop =>
    intro report hreport
    cases hreport
  | goOn | rest | list | exhaust | defer | reflect | propose | skipMarks => exact hp
  | mark => exact ⟨hp.candidates_eq, hp.transferred_eq, hp.failed_eq, hp.cancelled_eq⟩
  | conclude =>
    intro report hreport
    cases hreport
    exact ⟨hp.candidates_eq, hp.transferred_eq, hp.failed_eq, hp.cancelled_eq⟩

theorem Point.Carries.entry {s : Stage} {answer : s.query.Reply} {p : Point}
    (hp : (Point.waiting s).Carries r) (h : Entry c s answer p) : p.Carries r := by
  cases h with
  | layoutUnread | layoutRead | trimMarkUnread | undrafted | drafted => exact hp.elim
  | unreadable | inverted | held | missing | written | uncopied | crashed => exact hp.elim
  | accepted | stale | refused | refreshed | unrefreshed => exact hp

theorem Point.Carries.workload?_eq_none {s : Stage} (hp : (Point.waiting s).Carries r) :
    s.workload? = none := by
  cases s with
  | checking | copying => exact hp.elim
  | _ => rfl

theorem Follows.carries {p : Point} {t : Turn} (h : Follows c p t) (hp : p.Carries r) :
    Carries r t := by
  obtain ⟨q, hq, hends⟩ := h.exists_ends hp Point.Carries.step
  refine ⟨fun s hs => ?_, fun report hreport => ?_⟩
  · rwa [hends.eq_waiting hs] at hq
  · obtain ⟨published, rfl, -⟩ := hends.eq_over_of_outcome hreport
    exact hq report rfl

theorem carries_afterCopying (c : Coordinator) (d : Draft) :
    Carries d.report (c.afterCopying d) :=
  ((leads_afterCopying c d).follows (.refl c) rfl).carries ⟨rfl, rfl, rfl, rfl⟩

theorem Carries.workload?_eq_none {t : Turn} (h : Carries r t) :
    t.coordinator.workload? = none := by
  cases hstage : t.coordinator.stage with
  | none => rw [workload?, hstage, Option.bind_none]
  | some s => rw [workload?, hstage, Option.bind_some, (h.stage s hstage).workload?_eq_none]

/-- The cycle goes on without copying anything. -/
theorem Carries.turn {t : Turn} (ht : Carries r t) (running : t.coordinator.stage.isSome = true)
    {h : Happening} (possible : h.Possible t.coordinator) : Carries r (h.turn t.coordinator) := by
  rcases h.isAside_or_reply with haside | ⟨s, answer, rfl⟩
  · refine ⟨fun s hs => ?_, fun report hreport => ?_⟩
    · rcases haside.shifts t.coordinator with (⟨hsame, -⟩ | ⟨s₀, p, hs₀, hshift, -⟩) | ⟨-, hidle⟩
      · exact ht.stage s (hsame ▸ hs)
      · obtain ⟨w, hw⟩ := hshift.exists_workload
        rw [(ht.stage s₀ hs₀).workload?_eq_none] at hw
        cases hw
      · rw [hidle] at running
        cases running
    · exact absurd hreport (outcome_ne_ok_of_isAside haside _ report)
  · obtain ⟨p, hentry, hfollows⟩ := follows_resume t.coordinator s answer
    exact hfollows.carries ((ht.stage s possible).entry hentry)

end

end Coordinator

/-! ## A workload with a target cut short, or not -/

theorem map_modify_of_eq {α β : Type} {f : α → α} {g : α → β} (h : ∀ a, g (f a) = g a)
    (l : List α) (i : Nat) : (l.modify i f).map g = l.map g := by
  refine List.ext_getElem? fun j => ?_
  simp only [List.getElem?_map, List.getElem?_modify]
  cases l[j]? with
  | none => rfl
  | some a => by_cases hij : i = j <;> simp [hij, h]

namespace Workload

section

variable {w w' : Workload} {i : Nat} {b : Bool}

theorem takeFrom_flag (worker : Nat) (targets : List Target) {queue : List Nat} (h : i ∉ queue) :
    takeFrom worker (targets.modify i ({ · with cancelled := b })) queue =
      ((takeFrom worker targets queue).1.modify i ({ · with cancelled := b }),
        (takeFrom worker targets queue).2) := by
  fun_induction takeFrom worker targets queue with
  | case1 => rfl
  | case2 targets j queue hnone ih =>
    obtain ⟨hij, hi⟩ := List.ne_and_not_mem_of_not_mem_cons h
    rw [takeFrom, List.getElem?_modify_ne _ _ hij, hnone]
    exact ih hi
  | case3 targets j queue t ht hcancelled ih =>
    obtain ⟨hij, hi⟩ := List.ne_and_not_mem_of_not_mem_cons h
    rw [takeFrom, List.getElem?_modify_ne _ _ hij, ht]
    simp only [if_pos hcancelled]
    rw [← ih hi, List.set_eq_modify, List.set_eq_modify, List.modify_modify_ne _ _ _ hij]
  | case4 targets j queue t ht hcancelled hnext ih =>
    obtain ⟨hij, hi⟩ := List.ne_and_not_mem_of_not_mem_cons h
    rw [takeFrom, List.getElem?_modify_ne _ _ hij, ht]
    simp only [if_neg hcancelled, hnext]
    exact ih hi
  | case5 targets j queue t ht hcancelled span cursor hnext =>
    obtain ⟨hij, hi⟩ := List.ne_and_not_mem_of_not_mem_cons h
    rw [takeFrom, List.getElem?_modify_ne _ _ hij, ht]
    simp only [if_neg hcancelled, hnext]
    rw [List.set_eq_modify, List.set_eq_modify, List.modify_modify_ne _ _ _ hij]

theorem take_flag (h : i ∉ w.queue) :
    (w.flag i b).take = (w.take.1.flag i b, w.take.2) := by
  have htaken := takeFrom_flag (b := b) w.worker w.targets h
  rw [take, flag]
  dsimp only
  rw [htaken, take]
  generalize takeFrom w.worker w.targets w.queue = taken
  obtain ⟨targets, _ | ⟨j, span, queue⟩⟩ := taken <;> rfl

/-- A target that has left the queue does not come back. -/
theorem not_mem_takeFrom (worker : Nat) (targets : List Target) {queue : List Nat}
    (h : i ∉ queue) :
    ∀ j span queue', (takeFrom worker targets queue).2 = some (j, span, queue') → i ∉ queue' := by
  fun_induction takeFrom worker targets queue with
  | case1 =>
    intro j span queue' htaken
    cases htaken
  | case2 targets j queue hnone ih => exact ih (List.not_mem_of_not_mem_cons h)
  | case3 targets j queue t ht hcancelled ih => exact ih (List.not_mem_of_not_mem_cons h)
  | case4 targets j queue t ht hcancelled hnext ih => exact ih (List.not_mem_of_not_mem_cons h)
  | case5 targets j queue t ht hcancelled span cursor hnext =>
    obtain ⟨hij, hi⟩ := List.ne_and_not_mem_of_not_mem_cons h
    intro j' span' queue' htaken
    cases htaken
    split
    · exact hi
    · rw [List.mem_append, List.mem_singleton, not_or]
      exact ⟨hi, hij⟩

theorem not_mem_take (h : i ∉ w.queue) {chunk : Option (Nat × Span)}
    (htake : w.take = (w', chunk)) : i ∉ w'.queue := by
  match chunk, htake with
  | some (j, span), htake =>
    obtain ⟨queue, heq, hw'⟩ := take_eq_some htake
    rw [hw']
    refine not_mem_takeFrom w.worker w.targets h j span queue ?_
    rw [heq]
  | none, htake =>
    rw [(take_eq_none htake).2]
    exact List.not_mem_nil

theorem note_flag (w : Workload) (i j : Nat) (o : ChunkOutcome) :
    (w.flag i b).note j o = (w.note j o).flag i b := by
  simp only [flag, note, mk.injEq, and_true]
  by_cases hij : i = j
  · rw [hij, List.modify_modify_eq, List.modify_modify_eq]
    rfl
  · rw [List.modify_modify_ne _ _ _ hij]

theorem sources_flag (w : Workload) (i j : Nat) : (w.flag i b).sources j = w.sources j := by
  rw [sources, sources, ← List.getElem?_map, ← List.getElem?_map]
  have hsources : (w.flag i b).targets.map (·.sources) = w.targets.map (·.sources) :=
    map_modify_of_eq (f := ({ · with cancelled := b })) (fun _ => rfl) w.targets i
  rw [hsources]

theorem retire_flag (w : Workload) (i : Nat) : (w.flag i b).retire = w.retire.flag i b := by
  simp only [flag, retire, mk.injEq, and_true]
  refine List.ext_getElem? fun j => ?_
  simp only [List.getElem?_map, List.getElem?_modify]
  cases w.targets[j]? with
  | none => rfl
  | some t => by_cases hij : i = j <;> simp [hij, Target.retire]

/-- What is cut short anew is the same, but for the target. -/
theorem exists_recancel_flag (f : Target → Bool) (w : Workload) (i : Nat) (b : Bool) :
    ∃ b', (w.flag i b).recancel f = (w.recancel f).flag i b' := by
  refine ⟨((w.flag i b).targets[i]?.map fun t => t.cancelled || f t).getD b, ?_⟩
  simp only [flag, recancel, mk.injEq, and_true]
  refine List.ext_getElem? fun j => ?_
  simp only [List.getElem?_map, List.getElem?_modify]
  by_cases hij : i = j
  · rw [hij]
    cases w.targets[j]? <;> simp
  · cases w.targets[j]? <;> simp [hij]

/-- Closing a target, one does not ask whether it is cut short. -/
theorem close_flag (w : Workload) (i : Nat) : (w.flag i b).close = w.close := by
  have hall : ∀ ts : List Target, ts.mapM Target.close = (ts.map Target.close).mapM id :=
    fun ts => (List.mapM_map (f := Target.close) (g := id) (l := ts)).symm
  have hclose : (w.flag i b).targets.map Target.close = w.targets.map Target.close :=
    map_modify_of_eq (f := ({ · with cancelled := b })) (fun _ => rfl) w.targets i
  rw [close, close, hall, hall, hclose]

end

end Workload

theorem Errand.flag_stage (errand : Errand) (d : Draft) (w : Workload) (i : Nat) (b : Bool) :
    (errand.stage d w).flag i b = errand.stage d (w.flag i b) := by
  cases errand <;> rfl

/-! ## The same comes of it -/

/-- The stage hands out no chunk of the target any more. -/
def Stage.Spent (i : Nat) : Stage → Prop
  | readingLayout | readingTrimMark _ => False
  | checking _ w _ _ | copying _ w _ _ _ => i ∉ w.queue
  | proposing _ _ _ _ _ | refreshing _ _ => True

namespace Coordinator

/-- The cycle hands out no chunk of the target any more. -/
def Spent (i : Nat) (c : Coordinator) : Prop := ∀ s, c.stage = some s → s.Spent i

/-- The turn `t'` is `t`, but for whether the target is cut short, and no chunk of the target is
handed out any more. -/
def Flagged (i : Nat) (t t' : Turn) : Prop := t.coordinator.Spent i ∧ ∃ b, t' = t.flag i b

section

variable {c : Coordinator} {d : Draft} {w : Workload} {errand : Errand} {i : Nat} {b : Bool}

theorem spent_stage : (errand.stage d w).Spent i ↔ i ∉ w.queue := by
  cases errand <;> exact Iff.rfl

theorem flag_of_idle (h : c.workload? = none) : c.flag i b = c := by
  obtain ⟨node, settings, tracked, trimMark, metrics, stopped, stage⟩ := c
  cases stage with
  | none => rfl
  | some s =>
    cases s with
    | checking | copying => cases h
    | _ => rfl

theorem flag_of_stage (h : c.stage = some (errand.stage d w)) :
    c.flag i b = { c with stage := some (errand.stage d (w.flag i b)) } := by
  rw [flag, h, Option.map_some, errand.flag_stage]

/-! ### What happens between two replies -/

theorem switch_of_stage (hstage : c.stage = some (errand.stage d w)) (k : Nat) :
    c.switch k = match w.others[k]? with
      | none => ⟨c, none⟩
      | some (worker, errand') =>
        c.wait (errand'.stage d
          { w with worker, others := w.others.set k (w.worker, errand) }) := by
  rw [switch, hstage]
  cases errand <;> rfl

theorem hire_of_stage (hstage : c.stage = some (errand.stage d w)) :
    c.hire = if w.spareWorkers = 0 then ⟨c, none⟩ else c.nextChunk d (w.park errand).hire := by
  rw [hire, hstage]
  cases errand <;> rfl

theorem abandon_of_stage (hstage : c.stage = some (errand.stage d w)) :
    c.abandon = if w.crashed then
        ({ c with metrics := c.metrics.set .segmentsInFlight 0 } : Coordinator).finish
          (.error .workerCrashed)
      else ⟨c, none⟩ := by
  rw [abandon, hstage]
  cases errand <;> rfl

theorem shutdown_of_stage (hstage : c.stage = some (errand.stage d w)) :
    c.shutdown = (({ c with stopped := true } : Coordinator).wait
      (errand.stage d (w.recancel fun _ => true))).coordinator := by
  rw [shutdown, hstage, ← Workload.cancelAll_eq]
  cases errand <;> rfl

theorem adaptTo_of_stage (hstage : c.stage = some (errand.stage d w)) {layout : Layout}
    {required : List TrackedSegment} (h : layout.requirement c.node c.trimMark = .ok required) :
    (c.adaptTo layout).1 = (c.wait (errand.stage d
      (w.recancel (Workload.isUnneeded (required.filter (·.isDue)))))).coordinator := by
  rw [adaptTo_copying h hstage (errand.workload?_stage d w), Workload.cancelUnneeded_eq]
  cases errand <;> rfl

/-! ### One turn -/

theorem flagged_wait (errand : Errand) (h : i ∉ w.queue) :
    Flagged i (c.wait (errand.stage d w)) (c.wait (errand.stage d (w.flag i b))) := by
  refine ⟨fun s hs => ?_, b, ?_⟩
  · cases hs
    exact spent_stage.mpr h
  · rw [Turn.flag, flag_of_stage rfl]
    rfl

theorem flagged_of_idle {t : Turn} (hspent : t.coordinator.Spent i)
    (h : t.coordinator.workload? = none) : Flagged i t t :=
  ⟨hspent, false, by rw [Turn.flag, flag_of_idle h]⟩

theorem flagged_finish (c : Coordinator) (outcome : Except Error Report) :
    Flagged i (c.finish outcome) (c.finish outcome) := by
  refine flagged_of_idle (fun s hs => ?_) rfl
  cases hs

/-- Nothing is copied after the turn. -/
theorem Carries.flagged {r : Report} {t : Turn} (h : Carries r t) : Flagged i t t := by
  refine flagged_of_idle (fun s hs => ?_) h.workload?_eq_none
  have hs' := h.stage s hs
  cases s with
  | proposing | refreshing => trivial
  | _ => exact hs'.elim

theorem flagged_closeWorkload (c : Coordinator) (d : Draft) (w : Workload) :
    Flagged i (c.closeWorkload d w) (c.closeWorkload d (w.flag i b)) := by
  have hsame : c.closeWorkload d (w.flag i b) = c.closeWorkload d w := by
    rw [closeWorkload, closeWorkload, w.close_flag i]
    rfl
  rw [hsame]
  unfold closeWorkload
  dsimp only
  split
  · exact flagged_finish _ _
  · split
    · exact flagged_finish _ _
    · exact (carries_afterCopying _ _).flagged

theorem flagged_passTurn (h : i ∉ w.queue) :
    Flagged i (c.passTurn d w) (c.passTurn d (w.flag i b)) := by
  cases hothers : w.others with
  | nil =>
    have hflag : (w.flag i b).others = [] := hothers
    simp only [passTurn, hothers, hflag]
    exact flagged_closeWorkload c d w
  | cons p others =>
    obtain ⟨worker, errand⟩ := p
    have hflag : (w.flag i b).others = (worker, errand) :: others := hothers
    have hwait : i ∉ ({ w with worker, others } : Workload).queue := h
    simp only [passTurn, hothers, hflag]
    exact flagged_wait _ hwait

theorem flagged_nextChunk (h : i ∉ w.queue) :
    Flagged i (c.nextChunk d w) (c.nextChunk d (w.flag i b)) := by
  rw [nextChunk, nextChunk, Workload.take_flag h]
  cases htake : w.take with
  | mk w' chunk =>
    have hqueue := Workload.not_mem_take h htake
    cases chunk with
    | some chunk =>
      obtain ⟨j, span⟩ := chunk
      exact flagged_wait (.checking j span) hqueue
    | none =>
      have hretire := w'.retire_flag (b := b) i
      have hpass : i ∉ w'.retire.queue := hqueue
      dsimp only
      rw [hretire]
      exact flagged_passTurn hpass

theorem flagged_noteChunk (h : i ∉ w.queue) (j : Nat) (o : ChunkOutcome) :
    Flagged i (c.noteChunk d w j o) (c.noteChunk d (w.flag i b) j o) := by
  have hnote : i ∉ (w.note j o).queue := h
  rw [noteChunk, noteChunk, w.note_flag]
  exact flagged_nextChunk hnote

theorem flagged_resumeChecking (h : i ∉ w.queue) {j : Nat} {span : Span}
    {answer : Except Error (List Address)}
    (halive : Stage.losesWorker (.checking d w j span) answer = false) :
    Flagged i (c.resumeChecking d w j span answer)
      (c.resumeChecking d (w.flag i b) j span answer) := by
  have hsources := w.sources_flag (b := b) i j
  cases answer with
  | error e =>
    simp only [resumeChecking, hsources]
    exact flagged_noteChunk h j _
  | ok present =>
    have hkept : ¬(decide (span.last < span.first) && !present.isEmpty) = true :=
      Bool.eq_false_iff.mp halive
    simp only [resumeChecking, if_neg hkept, hsources]
    split
    · exact flagged_noteChunk h j _
    · exact flagged_wait (.copying j _ _) h

theorem flagged_resumeCopying (h : i ∉ w.queue) {j : Nat} {present : UInt64} {batch : Batch}
    {answer : TransferReply}
    (halive : Stage.losesWorker (.copying d w j present batch) answer = false) :
    Flagged i (c.resumeCopying d w j present batch answer)
      (c.resumeCopying d (w.flag i b) j present batch answer) := by
  cases answer with
  | written returned => exact flagged_noteChunk h j _
  | failed e => exact flagged_noteChunk h j _
  | crashed => cases halive

/-- Every other happening brings the same, too. -/
theorem flagged_aside (hstage : c.stage = some (errand.stage d w)) (h : i ∉ w.queue)
    {happening : Happening} (haside : happening.IsAside) :
    Flagged i (happening.turn c) (happening.turn (c.flag i b)) := by
  have hflag : (c.flag i b).stage = some (errand.stage d (w.flag i b)) := by
    rw [flag_of_stage hstage]
  have hsame : ∀ outcome, Flagged i ⟨c, outcome⟩ ⟨c.flag i b, outcome⟩ := by
    intro outcome
    refine ⟨fun s hs => ?_, b, rfl⟩
    rw [hstage] at hs
    cases hs
    exact spent_stage.mpr h
  have hrecancel : ∀ (c' : Coordinator) (f : Target → Bool),
      Flagged i (c'.wait (errand.stage d (w.recancel f)))
        (c'.wait (errand.stage d ((w.flag i b).recancel f))) := by
    intro c' f
    obtain ⟨b', heq⟩ := w.exists_recancel_flag f i b
    have hwait : i ∉ (w.recancel f).queue := h
    rw [heq]
    exact flagged_wait _ hwait
  cases happening with
  | reply s answer => exact haside.elim
  | begin =>
    simp only [Happening.turn, begin, hflag, hstage, Option.isSome_some, if_true]
    exact hsame _
  | announce layout =>
    simp only [Happening.turn]
    cases hrequired : layout.requirement c.node c.trimMark with
    | error e =>
      have hkept : ∀ c' : Coordinator, layout.requirement c'.node c'.trimMark = .error e →
          (c'.adaptTo layout).1 = c' := by
        intro c' h
        simp only [adaptTo, h]
      rw [hkept c hrequired, hkept (c.flag i b) hrequired]
      exact hsame none
    | ok required =>
      have hrequired' : layout.requirement (c.flag i b).node (c.flag i b).trimMark =
        .ok required := hrequired
      rw [adaptTo_of_stage hstage hrequired, adaptTo_of_stage hflag hrequired']
      exact hrecancel c _
  | shutdown =>
    simp only [Happening.turn]
    rw [shutdown_of_stage hstage, shutdown_of_stage hflag]
    exact hrecancel { c with stopped := true } _
  | switch k =>
    simp only [Happening.turn]
    have hothers : (w.flag i b).others = w.others := rfl
    rw [switch_of_stage hstage, switch_of_stage hflag, hothers]
    cases w.others[k]? with
    | none => exact hsame none
    | some p =>
      obtain ⟨worker, errand'⟩ := p
      have hwait : i ∉ ({ w with worker, others := w.others.set k (w.worker, errand) } :
        Workload).queue := h
      exact flagged_wait _ hwait
  | hire =>
    simp only [Happening.turn]
    rw [hire_of_stage hstage, hire_of_stage hflag]
    change Flagged i _ (if w.spareWorkers = 0 then ⟨c.flag i b, none⟩
      else c.nextChunk d ((w.park errand).hire.flag i b))
    split
    · exact hsame none
    · have hnext : i ∉ (w.park errand).hire.queue := h
      exact flagged_nextChunk hnext
  | abandon =>
    simp only [Happening.turn]
    rw [abandon_of_stage hstage, abandon_of_stage hflag]
    change Flagged i _ (if w.crashed = true then _ else _)
    split
    · exact flagged_finish _ _
    · exact hsame none

theorem Happening.flag_of_aside {happening : Happening} (haside : happening.IsAside) :
    happening.flag i b = happening := by
  cases happening with
  | reply => exact haside.elim
  | _ => rfl

theorem Happening.flag_of_idle {happening : Happening} (possible : happening.Possible c)
    (hidle : c.workload? = none) : happening.flag i b = happening := by
  cases happening with
  | reply s answer =>
    rw [workload?, show c.stage = some s from possible] at hidle
    cases s with
    | checking | copying => cases hidle
    | _ => rfl
  | _ => rfl

/-- Whatever happens to a cycle that hands out no chunk of the target any more, the same comes of
it. -/
theorem flagged_turn (hspent : c.Spent i) (running : c.stage.isSome = true) {happening : Happening}
    (possible : happening.Possible c) (alive : ¬Moment.LosesWorker ⟨c, happening⟩) (b : Bool) :
    Flagged i (happening.turn c) ((happening.flag i b).turn (c.flag i b)) := by
  obtain ⟨s, hstage⟩ := Option.isSome_iff_exists.mp running
  have hs := hspent s hstage
  have hcarried : ∀ r, (Point.waiting s).Carries r →
      Flagged i (happening.turn c) ((happening.flag i b).turn (c.flag i b)) := by
    intro r hr
    have hcarries : Carries r ⟨c, none⟩ := by
      refine ⟨fun s' hs' => ?_, fun report hreport => ?_⟩
      · rw [hstage] at hs'
        cases hs'
        exact hr
      · cases hreport
    rw [Happening.flag_of_idle possible hcarries.workload?_eq_none,
      Coordinator.flag_of_idle hcarries.workload?_eq_none]
    exact (hcarries.turn running possible).flagged
  have hcopying : ∀ errand d w, s = Errand.stage d w errand → happening.IsAside →
      Flagged i (happening.turn c) ((happening.flag i b).turn (c.flag i b)) := by
    intro errand d w heq haside
    rw [heq, spent_stage] at hs
    rw [heq] at hstage
    rw [Happening.flag_of_aside haside]
    exact flagged_aside hstage hs haside
  cases s with
  | readingLayout | readingTrimMark => exact hs.elim
  | proposing d => exact hcarried d.report ⟨rfl, rfl, rfl, rfl⟩
  | refreshing d => exact hcarried d.report ⟨rfl, rfl, rfl, rfl⟩
  | checking d w j span =>
    rcases happening.isAside_or_reply with haside | ⟨s, answer, rfl⟩
    · exact hcopying (.checking j span) d w rfl haside
    · obtain rfl := Option.some.inj (hstage.symm.trans possible)
      exact flagged_resumeChecking hs (Bool.eq_false_iff.mpr alive)
  | copying d w j present batch =>
    rcases happening.isAside_or_reply with haside | ⟨s, answer, rfl⟩
    · exact hcopying (.copying j present batch) d w rfl haside
    · obtain rfl := Option.some.inj (hstage.symm.trans possible)
      exact flagged_resumeCopying hs (Bool.eq_false_iff.mpr alive)

/-! ### All that happens -/

theorem Happening.Possible.flag {happening : Happening} (possible : happening.Possible c) :
    (happening.flag i b).Possible (c.flag i b) := by
  cases happening with
  | reply s answer =>
    have hstage : c.stage = some s := possible
    have hflag : (c.flag i b).stage = some (s.flag i b) := by
      rw [Coordinator.flag, hstage]
      rfl
    cases s <;> exact hflag
  | _ => trivial

theorem losesWorker_flag {happening : Happening} :
    Moment.LosesWorker ⟨c.flag i b, happening.flag i b⟩ ↔ Moment.LosesWorker ⟨c, happening⟩ := by
  cases happening with
  | reply s answer =>
    cases s with
    | checking | copying => cases answer <;> exact Iff.rfl
    | _ => exact Iff.rfl
  | _ => exact Iff.rfl

theorem CycleRun.flag {start turn : Turn} {moments : List Moment}
    (run : CycleRun start moments turn) (hspent : start.coordinator.Spent i) (b : Bool) :
    turn.coordinator.Spent i ∧ ∃ b' moments',
      CycleRun (start.flag i b) moments' (turn.flag i b') ∧
        List.Forall₂ (Moment.SameBut i) moments moments' := by
  induction run with
  | refl => exact ⟨hspent, b, [], .refl, .nil⟩
  | @cons moments turn run running happening possible alive ih =>
    obtain ⟨hturn, b', moments', hrun', hsame⟩ := ih
    obtain ⟨hspent', b'', heq⟩ := flagged_turn hturn running possible alive b'
    have hrunning : (turn.flag i b').coordinator.stage.isSome = true := by
      rw [Turn.flag, Coordinator.flag, Option.isSome_map]
      exact running
    have hcons := hrun'.cons hrunning (happening.flag i b') possible.flag
      (mt losesWorker_flag.mp alive)
    have heq' : (happening.flag i b').turn (turn.flag i b').coordinator =
      (happening.turn turn.coordinator).flag i b'' := heq
    rw [heq'] at hcons
    exact ⟨hspent', b'', _, hcons, .cons ⟨b', b'', rfl, heq⟩ hsame⟩

/-- A target with nothing left to hand out ends in the same way, whether it is cut short or not. -/
theorem CycleRun.same_end {start turn : Turn} {moments : List Moment}
    (run : CycleRun start moments turn) (hspent : start.coordinator.Spent i)
    (hended : turn.coordinator.workload? = none) (b : Bool) :
    ∃ moments', CycleRun (start.flag i b) moments' turn ∧
      List.Forall₂ (Moment.SameBut i) moments moments' := by
  obtain ⟨-, b', moments', hrun', hsame⟩ := run.flag hspent b
  have hend : turn.flag i b' = turn := by rw [Turn.flag, flag_of_idle hended]
  rw [hend] at hrun'
  exact ⟨moments', hrun', hsame⟩

end

end Coordinator

end LogRepair
