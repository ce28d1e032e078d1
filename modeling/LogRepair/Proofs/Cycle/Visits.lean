import LogRepair.Proofs.Cycle.Rounds
import LogRepair.Proofs.Cycle.Traces
import Mathlib.Algebra.Order.BigOperators.Group.List
import Mathlib.Algebra.Order.Group.Nat

/-!
# What visits come to

* `Visit.credit_le`, `Visit.credit_of_complete`: a visit credits no more than its chunk, and a
  complete one credits all of it.
* `TrackedSegment.copiedBy_outcome`: a segment that was visited from its beginning to its end is
  closed as the visits say.
* `Plan.Has.asks`: what is asked for are the addresses of a chunk that are not held.
* `Workload.Advanced`: a workload after visits of one worker.
* `Workload.Advanced.take_cons`, `Workload.Advanced.note`, `Workload.Advanced.close_eq`: the next
  chunk is taken, a visit ends, and all targets are closed.
-/

namespace LogRepair

open TrackedSegment

/-! ## What one visit comes to -/

namespace Visit

/-- The outcome that the visit leaves in the tally of its target. -/
def outcome (v : Visit) : ChunkOutcome :=
  match v.answers with
  | .unreadable e => .unreadable v.sources e
  | .held _ => .held (.ofNat v.heldCount)
  | .written _ returned => .processed (.ofNat v.heldCount) (.ofWritten v.request returned)
  | .failed _ e => .processed (.ofNat v.heldCount) (.ofError v.request e)

theorem failure?_outcome (v : Visit) : v.outcome.failure? = v.cause? := by
  unfold outcome cause?
  cases v.answers <;> rfl

theorem outcome_ne_dropped (v : Visit) : v.outcome ≠ .dropped := by
  unfold outcome
  cases v.answers <;> exact nofun

theorem cause?_eq_none_iff (v : Visit) : v.cause? = none ↔ v.Complete := by
  unfold cause? Complete
  cases v.answers with
  | unreadable e | failed present e => simp
  | held present => simp
  | written present returned => exact BatchResult.failure_ofWritten_eq_none_iff

theorem amount_outcome (v : Visit) : v.outcome.amount = .ofNat v.credit := by
  unfold outcome credit
  cases h : v.answers with
  | unreadable e =>
    have hnone : v.heldCount = 0 := by simp [heldCount, h, Answers.present]
    rw [hnone]
    rfl
  | held present => rfl
  | written present returned =>
    rw [UInt64.ofNat_add]
    dsimp only
    rw [List.countP_eq_length_filter]
    exact congrArg (UInt64.ofNat v.heldCount + ·) (BatchResult.transferred_ofWritten _ _)
  | failed present e => exact add_zero _

theorem heldCount_add_size (v : Visit) :
    v.heldCount + v.request.size = v.span.length.toNat :=
  Batch.held_add_size v.span v.answers.present

theorem credit_le (v : Visit) : v.credit ≤ v.span.length.toNat := by
  have hparts := v.heldCount_add_size
  unfold credit
  cases v.answers with
  | written present returned =>
    have hle := List.countP_le_length (p := returned.contains) (l := v.request.addresses)
    rw [Batch.size] at hparts
    dsimp only
    omega
  | _ =>
    dsimp only
    omega

/-- After a complete visit all of the chunk is held. -/
theorem credit_of_complete {v : Visit} (hconsistent : v.Consistent) (h : v.Complete) :
    v.credit = v.span.length.toNat := by
  have hparts := v.heldCount_add_size
  unfold Consistent at hconsistent
  unfold Complete at h
  unfold credit
  rw [Batch.size] at hparts
  cases hanswers : v.answers with
  | unreadable e | failed present e =>
    rw [hanswers] at h
    exact h.elim
  | held present =>
    rw [hanswers] at hconsistent
    rw [List.isEmpty_iff.mp hconsistent] at hparts
    exact hparts
  | written present returned =>
    rw [hanswers] at h
    have hall : v.request.addresses.countP returned.contains = v.request.addresses.length :=
      List.countP_eq_length.mpr fun x hx => List.contains_iff_mem.mpr (h hx)
    dsimp only
    rw [hall, hparts]

end Visit

/-! ## What the visits to a target come to -/

namespace Tally

theorem failure_note_eq (t : Tally) (o : ChunkOutcome) :
    (t.note o).failure = t.failure.or o.failure? := by
  cases o with
  | processed present result => rfl
  | held | dropped => exact (Option.or_none).symm

theorem foldl_note (t : Tally) (os : List ChunkOutcome) :
    (os.foldl note t).total = t.total + (os.map ChunkOutcome.amount).sum ∧
      (os.foldl note t).failure = t.failure.or (os.findSome? ChunkOutcome.failure?) ∧
      ((os.foldl note t).cancelled = true ↔ t.cancelled = true ∨ .dropped ∈ os) := by
  induction os generalizing t with
  | nil => simp
  | cons o os ih =>
    obtain ⟨htotal, hfailure, hcancelled⟩ := ih (t.note o)
    refine ⟨?_, ?_, ?_⟩
    · rw [List.foldl_cons, htotal, total_note, List.map_cons, List.sum_cons, add_assoc]
    · rw [List.foldl_cons, hfailure, failure_note_eq, Option.or_assoc, List.findSome?_cons]
      cases o.failure? <;> rfl
    · rw [List.foldl_cons, hcancelled, cancelled_note, List.mem_cons, or_left_comm, or_assoc]
      grind

/-- The tally of a worker that visited a target alone. -/
theorem ofOutcomes_visits (visits : List Visit) :
    (ofOutcomes (visits.map Visit.outcome)).total = .ofNat (visits.map Visit.credit).sum ∧
      (ofOutcomes (visits.map Visit.outcome)).failure = visits.findSome? Visit.cause? ∧
      (ofOutcomes (visits.map Visit.outcome)).cancelled = false := by
  obtain ⟨htotal, hfailure, hcancelled⟩ := foldl_note {} (visits.map Visit.outcome)
  refine ⟨?_, ?_, ?_⟩
  · have hnone : total {} = 0 := rfl
    rw [ofOutcomes, htotal, hnone, zero_add, List.map_map]
    clear htotal hfailure hcancelled
    induction visits with
    | nil => rfl
    | cons v visits ih =>
      rw [List.map_cons, List.sum_cons, ih, List.map_cons, List.sum_cons, UInt64.ofNat_add]
      exact congrArg (· + _) v.amount_outcome
  · rw [ofOutcomes, hfailure, List.findSome?_map]
    exact congrArg (visits.findSome? ·) (funext Visit.failure?_outcome)
  · refine Bool.eq_false_iff.mpr fun h => ?_
    rcases hcancelled.mp h with h | h
    · cases h
    · obtain ⟨v, -, hv⟩ := List.mem_map.mp h
      exact v.outcome_ne_dropped hv

end Tally

/-- The tally of a target that one worker has served. -/
theorem Target.tally_eq {t : Target} {worker : Nat} {outcomes : List ChunkOutcome}
    (h : t.tallies = [] ∧ outcomes = [] ∨ t.tallies = [(worker, .ofOutcomes outcomes)]) :
    t.tally = .ofOutcomes outcomes := by
  rcases h with ⟨hnone, rfl⟩ | hone
  · rw [tally, hnone]
    rfl
  · simp [tally, hone, Tally.ofWorkers, Tally.append]

/-! ## What becomes of a target -/

namespace TrackedSegment

theorem toNat_creditFor {s : TrackedSegment} (hs : s.Valid) {n : Nat} (hn : n ≤ s.length.toNat) :
    (s.creditFor (.ofNat n)).toNat = max s.progress.copied.toNat n := by
  have hcopied := hs.copied_le
  have hword : (UInt64.ofNat n).toNat = n :=
    UInt64.toNat_ofNat_of_lt' (Nat.lt_of_le_of_lt hn s.length.toNat_lt)
  rw [UInt64.le_iff_toNat_le] at hcopied
  rw [creditFor, UInt64.toNat_min, UInt64.toNat_max, hword]
  omega

/-- A segment is attempted as the visits to it say. -/
theorem copiedBy_outcome {s : TrackedSegment} (hs : s.Valid) {visits : List Visit}
    (hconsistent : ∀ v ∈ visits, v.Consistent)
    (hsorted : (visits.map (·.place)).Pairwise Place.Before)
    (hwhole : (visits.map (·.span.length.toNat)).sum = s.length.toNat) :
    s.CopiedBy visits ⟨s.toSpan, s.outcome (.ofNat (visits.map Visit.credit).sum)
      (visits.findSome? Visit.cause?)⟩ := by
  have hcredit : (visits.map Visit.credit).sum ≤ s.length.toNat := by
    rw [← hwhole]
    exact List.sum_le_sum fun v _ => v.credit_le
  cases hcause : visits.findSome? Visit.cause? with
  | none =>
    have hcomplete : ∀ v ∈ visits, v.Complete := fun v hv =>
      v.cause?_eq_none_iff.mp (List.findSome?_eq_none_iff.mp hcause v hv)
    have htotal : UInt64.ofNat (visits.map Visit.credit).sum = s.length := by
      have hall : visits.map Visit.credit = visits.map (·.span.length.toNat) :=
        List.map_congr_left fun v hv => Visit.credit_of_complete (hconsistent v hv) (hcomplete v hv)
      rw [hall, hwhole, UInt64.ofNat_toNat]
    rw [htotal, outcome_length hs]
    exact ⟨rfl, iff_of_true rfl hcomplete, fun _ => rfl, fun h => absurd rfl h⟩
  | some f =>
    obtain ⟨before, v, after, rfl, hv, hbefore⟩ := List.findSome?_eq_some_iff.mp hcause
    have hmem : v ∈ before ++ v :: after := List.mem_append_right _ List.mem_cons_self
    have hincomplete : ¬v.Complete := fun h => by
      rw [← v.cause?_eq_none_iff, hv] at h
      cases h
    refine ⟨rfl, iff_of_false nofun fun h => hincomplete (h v hmem), nofun, fun _ =>
      ⟨v, hmem, f, hv, hincomplete, fun v' hv' hlt => ?_, rfl, rfl, toNat_creditFor hs hcredit⟩⟩
    -- What comes before it in the list comes before it in turn, and nothing else does.
    rw [List.map_append, List.map_cons] at hsorted
    obtain ⟨-, hrest, -⟩ := List.pairwise_append.mp hsorted
    rcases List.mem_append.mp hv' with hv' | hv'
    · exact v'.cause?_eq_none_iff.mp (hbefore v' hv')
    · exfalso
      rcases List.mem_cons.mp hv' with rfl | hv'
      · exact Place.Before.irrefl _ hlt
      · have hgt := (List.pairwise_cons.mp hrest).1 _ (List.mem_map_of_mem hv')
        exact Place.Before.irrefl _ (hlt.trans hgt)

end TrackedSegment

/-! ## What a plan asks for -/

/-- What is to be copied can be: segments without fault that need it, in chunks of a size at which
cursors walk upwards. -/
structure Plan.Sound (plan : Plan) : Prop where
  valid : ∀ s ∈ plan.segments, s.Valid
  due : ∀ s ∈ plan.segments, s.isDue = true
  batchSize_pos : 0 < plan.batchSize
  batchSize_lt : plan.batchSize < 2 ^ 63

namespace Plan

theorem visitsTo_append_singleton (visits : List Visit) (v : Visit) (i : Nat) :
    visitsTo (visits ++ [v]) i =
      visitsTo visits i ++ if v.place.target = i then [v] else [] := by
  by_cases hi : v.place.target = i <;> simp [visitsTo, hi]

end Plan

/-- What is visited are the addresses of a chunk, and what is asked for are those not held. -/
theorem Plan.Has.asks {plan : Plan} (hplan : plan.Sound) {v : Visit} (h : plan.Has v)
    (hround : v.place.round < plan.chunkCount v.place.target) : plan.Asks v := by
  obtain ⟨-, s, hs, hspan, -⟩ := h
  have hvalid := hplan.valid s (List.mem_of_getElem? hs)
  rw [Plan.chunkCount_eq hs] at hround
  obtain ⟨hnonneg, hle⟩ := Span.chunk_bounds hvalid.first_nonneg hvalid.first_le_last
    hplan.batchSize_pos hround
  rw [← hspan] at hnonneg hle
  refine ⟨s, hs, fun x => ?_, (Span.pairwise_toList hnonneg hle).filter _, fun x => ?_⟩
  · rw [hspan]
    exact Span.mem_chunk_iff hvalid.first_nonneg hvalid.first_le_last hplan.batchSize_pos hround
  · have hlist : x ∈ v.span.toList ↔ x ∈ v.span :=
      ⟨Span.mem_of_mem_toList, Span.mem_toList hnonneg⟩
    change x ∈ v.span.toList.filter (!v.answers.present.contains ·) ↔ _
    rw [List.mem_filter, hlist]
    simp

/-! ## How far a workload has come -/

/-- The target is as the places that were handed out and the visits to it leave it. -/
structure Target.Advanced (plan : Plan) (worker : Nat) (handed : List Place) (visits : List Visit)
    (i : Nat) (t : Target) : Prop where
  segment_eq : plan.segments[i]? = some t.segment
  sources_eq : t.sources = plan.sources t.segment
  cancelled_eq : t.cancelled = false
  cursor : t.cursor.Stands t.segment.toSpan plan.batchSize (Workload.upNext handed i).round
  tallies : t.tallies = [] ∧ (Plan.visitsTo visits i).map Visit.outcome = [] ∨
    t.tallies = [(worker, .ofOutcomes ((Plan.visitsTo visits i).map Visit.outcome))]

namespace Target

variable {plan : Plan} {worker i : Nat} {handed : List Place} {visits : List Visit} {t : Target}

theorem Advanced.note (h : t.Advanced plan worker handed visits i) {v : Visit}
    (hv : v.place.target = i) :
    (t.note worker v.outcome).Advanced plan worker handed (visits ++ [v]) i := by
  refine ⟨h.segment_eq, h.sources_eq, h.cancelled_eq, h.cursor, Or.inr ?_⟩
  rw [Plan.visitsTo_append_singleton, if_pos hv, List.map_append, Tally.ofOutcomes,
    List.foldl_append]
  rcases h.tallies with ⟨hnone, houtcomes⟩ | hone
  · simp [Target.note, hnone, houtcomes, Tally.noteFor]
  · simp [Target.note, hone, Tally.noteFor, Tally.ofOutcomes]

/-- Visits to other targets do not matter. -/
theorem Advanced.of_ne (h : t.Advanced plan worker handed visits i) {v : Visit}
    (hv : v.place.target ≠ i) : t.Advanced plan worker handed (visits ++ [v]) i := by
  refine ⟨h.segment_eq, h.sources_eq, h.cancelled_eq, h.cursor, ?_⟩
  rw [Plan.visitsTo_append_singleton, if_neg hv, List.append_nil]
  exact h.tallies

/-- The tally of the only worker stays where it is when another ends. -/
theorem Advanced.retire_eq (h : t.Advanced plan worker handed visits i) (worker' : Nat) :
    t.retire worker' = t := by
  have htallies : t.tallies.filter (·.1 != worker') ++ t.tallies.filter (·.1 == worker') =
      t.tallies := by
    rcases h.tallies with ⟨hnone, -⟩ | hone
    · rw [hnone]
      rfl
    · rw [hone]
      by_cases hw : worker = worker' <;> simp [hw]
  rw [retire, htallies]

end Target

namespace Workload

/-- The visit of the worker at its turn to a chunk, once it has these answers. -/
def visit (w : Workload) (p : Place) (span : Span) (answers : Answers) : Visit :=
  ⟨p, span, w.sources p.target, answers⟩

/-- The workload is as the places that were handed out and the visits of one worker leave it. -/
structure Advanced (plan : Plan) (worker : Nat) (handed : List Place) (visits : List Visit)
    (w : Workload) : Prop where
  crashed_eq : w.crashed = false
  length_eq : w.targets.length = plan.segments.length
  targets : ∀ (i : Nat) (t : Target), w.targets[i]? = some t →
    t.Advanced plan worker handed visits i
  inTurn : InTurn plan.chunkCount handed w.queue

section

variable {plan : Plan} {worker : Nat} {handed : List Place} {visits : List Visit}
  {w : Workload}

/-- It does not matter which worker is at its turn, and which others wait. -/
theorem Advanced.of_targets (h : w.Advanced plan worker handed visits) {w' : Workload}
    (htargets : w'.targets = w.targets) (hqueue : w'.queue = w.queue)
    (hcrashed : w'.crashed = w.crashed) : w'.Advanced plan worker handed visits := by
  refine ⟨hcrashed.trans h.crashed_eq, ?_, ?_, ?_⟩
  · rw [htargets]
    exact h.length_eq
  · rw [htargets]
    exact h.targets
  · rw [hqueue]
    exact h.inTurn

theorem Advanced.note (h : w.Advanced plan w.worker handed visits) (v : Visit) :
    (w.note v.place.target v.outcome).Advanced plan w.worker handed (visits ++ [v]) := by
  refine ⟨h.crashed_eq, ?_, fun i u hu => ?_, h.inTurn⟩
  · rw [Workload.note, List.length_modify, h.length_eq]
  · obtain ⟨t, ht, rfl⟩ := exists_of_note hu
    by_cases hi : v.place.target = i
    · rw [if_pos hi]
      exact (h.targets i t ht).note hi
    · rw [if_neg hi]
      exact (h.targets i t ht).of_ne hi

/-- A worker that begins and ends while another copies leaves the targets as they are. -/
theorem Advanced.map_retire (h : w.Advanced plan worker handed visits) (worker' : Nat) :
    w.targets.map (·.retire worker') = w.targets := by
  have heach : ∀ t ∈ w.targets, t.retire worker' = id t := fun t ht => by
    obtain ⟨i, hi⟩ := List.mem_iff_getElem?.mp ht
    exact (h.targets i t hi).retire_eq worker'
  rw [List.map_congr_left heach, List.map_id]

theorem Advanced.exists_target (h : w.Advanced plan worker handed visits) {i : Nat}
    {s : TrackedSegment} (hs : plan.segments[i]? = some s) :
    ∃ t, w.targets[i]? = some t ∧ t.segment = s := by
  have hi : i < w.targets.length := h.length_eq ▸ (List.getElem?_eq_some_iff.mp hs).1
  obtain ⟨t, ht⟩ : ∃ t, w.targets[i]? = some t := ⟨_, List.getElem?_eq_getElem hi⟩
  have hsegment := (h.targets i t ht).segment_eq
  rw [hs] at hsegment
  exact ⟨t, ht, (Option.some.inj hsegment).symm⟩

theorem Advanced.sources_eq (h : w.Advanced plan worker handed visits) {i : Nat}
    {s : TrackedSegment} (hs : plan.segments[i]? = some s) : w.sources i = plan.sources s := by
  obtain ⟨t, ht, rfl⟩ := h.exists_target hs
  rw [sources, ht]
  exact (h.targets i t ht).sources_eq

theorem take_nil (hqueue : w.queue = []) :
    w.take = (w, none) := by
  rw [take, hqueue, takeFrom, ← hqueue]

/-- The worker at its turn takes the chunk of the place that is next. -/
theorem Advanced.take_cons (hplan : plan.Sound) (h : w.Advanced plan worker handed visits) {i : Nat}
    {rest : List Nat} (hqueue : w.queue = i :: rest) :
    ∃ w' span, w.take = (w', some (i, span)) ∧
      plan.Locates (upNext handed i) span (w'.sources i) ∧
      (upNext handed i).round < plan.chunkCount i ∧
      w'.Advanced plan worker (handed ++ [upNext handed i]) visits ∧
      w'.others = w.others ∧ w'.worker = w.worker := by
  have hturn := h.inTurn
  rw [hqueue] at hturn
  have hround := (hturn.mem_queue i).mp List.mem_cons_self
  obtain ⟨s, hs⟩ := Plan.exists_of_lt_chunkCount hround
  obtain ⟨t, ht, rfl⟩ := h.exists_target hs
  have hi := h.targets i t ht
  have hvalid := hplan.valid t.segment (List.mem_of_getElem? hs)
  have hcount := Plan.chunkCount_eq hs
  obtain ⟨cursor, hnext, hstands⟩ := hi.cursor.next hvalid.first_nonneg hvalid.first_le_last
    hplan.batchSize_pos hplan.batchSize_lt (hcount ▸ hround)
  have hdone := hstands.isDone_iff hvalid.first_nonneg hvalid.first_le_last hplan.batchSize_pos
  have htake : w.take = ({ w with
        targets := w.targets.set i { t with cursor }
        queue := if cursor.isDone then rest else rest ++ [i] },
      some (i, t.segment.toSpan.chunk plan.batchSize (upNext handed i).round)) := by
    simp only [take, hqueue, takeFrom, ht, hi.cancelled_eq, hnext, Bool.false_eq_true, if_false]
  have hadvanced : Advanced plan worker (handed ++ [upNext handed i]) visits { w with
      targets := w.targets.set i { t with cursor }
      queue := if cursor.isDone then rest else rest ++ [i] } := by
    refine ⟨h.crashed_eq, List.length_set.trans h.length_eq, fun j u hu => ?_,
      hturn.take (hcount ▸ hdone)⟩
    by_cases hij : i = j
    · rw [← hij] at hu ⊢
      rw [List.getElem?_set_self (List.getElem?_eq_some_iff.mp ht).1] at hu
      cases hu
      refine ⟨hi.segment_eq, hi.sources_eq, hi.cancelled_eq, ?_, hi.tallies⟩
      rw [upNext_append]
      exact hstands
    · rw [List.getElem?_set_ne hij] at hu
      have hj := h.targets j u hu
      refine ⟨hj.segment_eq, hj.sources_eq, hj.cancelled_eq, ?_, hj.tallies⟩
      rw [upNext_append_of_ne handed hij]
      exact hj.cursor
  exact ⟨_, _, htake, ⟨t.segment, hs, rfl, hadvanced.sources_eq hs⟩, hround, hadvanced, rfl, rfl⟩

/-- At the end every target was visited from its beginning to its end. -/
theorem Advanced.whole (hplan : plan.Sound)
    (h : w.Advanced plan worker (visits.map (·.place)) visits) (hqueue : w.queue = [])
    (hhas : ∀ v ∈ visits, plan.Has v) {i : Nat} {s : TrackedSegment}
    (hs : plan.segments[i]? = some s) :
    ((Plan.visitsTo visits i).map (·.span.length.toNat)).sum = s.length.toNat := by
  have hvalid := hplan.valid s (List.mem_of_getElem? hs)
  have hturn := h.inTurn
  rw [hqueue] at hturn
  have hcount : (upNext (visits.map (·.place)) i).round = s.toSpan.chunkCount plan.batchSize := by
    rw [← Plan.chunkCount_eq hs]
    refine Nat.le_antisymm (hturn.le_count i) (Nat.not_lt.mp fun hlt => ?_)
    cases (hturn.mem_queue i).mpr hlt
  have hrounds := hturn.rounds i
  rw [hcount, List.filter_map, List.map_map] at hrounds
  have hspans : (Plan.visitsTo visits i).map (·.span.length.toNat) =
      ((Plan.visitsTo visits i).map (·.place.round)).map
        fun k => (s.toSpan.chunk plan.batchSize k).length.toNat := by
    rw [List.map_map]
    refine List.map_congr_left fun v hv => ?_
    obtain ⟨hv, htarget⟩ := List.mem_filter.mp hv
    obtain ⟨-, s', hs', hspan, -⟩ := hhas v hv
    rw [of_decide_eq_true htarget, hs] at hs'
    cases hs'
    rw [hspan]
    rfl
  have hall : (Plan.visitsTo visits i).map (·.place.round) =
      List.range (s.toSpan.chunkCount plan.batchSize) := hrounds
  rw [hspans, hall]
  exact Span.sum_length_chunks hvalid.first_nonneg hvalid.first_le_last hplan.batchSize_pos

/-- At the end every segment is closed as the visits to it say. -/
theorem Advanced.close_eq (hplan : plan.Sound)
    (h : w.Advanced plan worker (visits.map (·.place)) visits) (hqueue : w.queue = [])
    (hhas : ∀ v ∈ visits, plan.Has v) :
    ∃ segments : List TrackedSegment, w.close = .ok (segments.map (·, false)) ∧
      segments.length = plan.segments.length ∧
      ∀ (i : Nat) (s u : TrackedSegment), plan.segments[i]? = some s → segments[i]? = some u →
        s.CopiedBy (Plan.visitsTo visits i) u := by
  have htally : ∀ (i : Nat) (t : Target), w.targets[i]? = some t →
      t.tally = .ofOutcomes ((Plan.visitsTo visits i).map Visit.outcome) := fun i t ht =>
    Target.tally_eq (h.targets i t ht).tallies
  refine ⟨w.targets.map fun t =>
      ⟨t.segment.toSpan, t.segment.outcome t.tally.total t.tally.failure⟩,
    ?_, ?_, fun i s u hs hu => ?_⟩
  · rw [List.map_map]
    refine mapM_eq_ok_map fun t ht => ?_
    obtain ⟨i, hi⟩ := List.mem_iff_getElem?.mp ht
    have hsegment := List.mem_of_getElem? (h.targets i t hi).segment_eq
    have hkept : t.tally.cancelled = false := by
      rw [htally i t hi]
      exact (Tally.ofOutcomes_visits _).2.2
    rw [Target.close, hkept, if_neg Bool.false_ne_true,
      attempted_eq (hplan.valid _ hsegment) (hplan.due _ hsegment)]
    rfl
  · rw [List.length_map, h.length_eq]
  · obtain ⟨t, ht, rfl⟩ := h.exists_target hs
    rw [List.getElem?_map, ht] at hu
    cases hu
    obtain ⟨htotal, hfailure, -⟩ := Tally.ofOutcomes_visits (Plan.visitsTo visits i)
    beta_reduce
    rw [htally i t ht, htotal, hfailure]
    refine copiedBy_outcome (hplan.valid _ (List.mem_of_getElem? hs)) (fun v hv => ?_) ?_
      (h.whole hplan hqueue hhas hs)
    · exact (hhas v (List.mem_filter.mp hv).1).1
    · exact h.inTurn.sorted.sublist (List.filter_sublist.map _)

end

end Workload

end LogRepair
