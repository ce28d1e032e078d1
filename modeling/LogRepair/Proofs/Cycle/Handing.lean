import LogRepair.Cycle.CutShort
import LogRepair.Proofs.Batch.Splitting
import LogRepair.Proofs.Cycle.Visits

/-!
# What is handed out of a target

The errands of the workers and their replies tell of a target which of its chunks were handed out,
what is credited to it, and whether one of its chunks failed, whatever cuts it short.

* `Coordinator.Moment.Leaves`: what a moment does to the errands that wait.
* `Coordinator.Moment.Ends`: a reply that ends a chunk.
* `Target.Told`: the target is as errands and replies say.
* `Workload.Told.take`, `Workload.Told.retire`, `Workload.Told.note`: what workers do keeps this for
  all targets.
-/

namespace LogRepair

open Coordinator TrackedSegment

/-! ## Errands that wait -/

namespace Errand

/-- The addresses of the target of which the worker has yet to learn. -/
def pending (i : Nat) : Errand → Nat
  | checking j span => if j = i then span.length.toNat else 0
  | copying j _ batch => if j = i then batch.size else 0

/-- The addresses of the target that the worker has found to be held, and notes with its chunk. -/
def held (i : Nat) : Errand → UInt64
  | checking _ _ => 0
  | copying j present _ => if j = i then present else 0

end Errand

namespace Coordinator

section

variable {moments : List Moment} {waiting waiting' : List Errand} {m : Moment} {errand : Errand}
  {i : Nat}

theorem errands_of_stage {c : Coordinator} {d : Draft} {w : Workload}
    (hstage : c.stage = some (errand.stage d w)) :
    c.errands = errand :: w.others.map (·.2) := by
  rw [errands, hstage]
  cases errand <;> rfl

/-- A reply moves an errand from those that wait to those that were answered. -/
theorem given_reply (h : m.errand? = some errand) :
    (given (m :: moments) waiting).Perm (given moments (errand :: waiting)) := by
  rw [given, List.filterMap_cons, h]
  exact List.perm_middle

theorem given_aside (h : m.errand? = none) :
    given (m :: moments) waiting = given moments waiting := by
  rw [given, List.filterMap_cons, h]
  rfl

theorem started_cons (moments : List Moment) (errand : Errand) (waiting : List Errand) (i : Nat) :
    started moments (errand :: waiting) i =
      (errand.chunk? i).toList ++ started moments waiting i := by
  rw [started, given, List.cons_append, List.filterMap_cons]
  cases errand.chunk? i <;> rfl

theorem requested_cons (moments : List Moment) (errand : Errand) (waiting : List Errand) (i : Nat) :
    requested moments (errand :: waiting) i =
      (errand.request? i).toList ++ requested moments waiting i := by
  rw [requested, given, List.cons_append, List.filterMap_cons]
  cases errand.request? i <;> rfl

theorem started_perm (h : waiting'.Perm waiting) :
    (started moments waiting' i).Perm (started moments waiting i) :=
  (h.append_right _).filterMap _

theorem requested_perm (h : waiting'.Perm waiting) :
    (requested moments waiting' i).Perm (requested moments waiting i) :=
  (h.append_right _).filterMap _

/-! ## What a moment does to the errands -/

/-- After the moment these errands wait. No further chunk of the target was handed out, and what the
reply leaves to be copied of one is asked for. -/
structure Moment.Leaves (m : Moment) (waiting : List Errand) (i : Nat) : Prop where
  started_perm : ∀ moments,
    (started (m :: moments) waiting i).Perm (started moments m.before.errands i)
  requested_perm : ∀ moments, (requested (m :: moments) waiting i).Perm
    ((m.missing? i).toList ++ requested moments m.before.errands i)
  credit_le : m.credit i + (waiting.map (Errand.pending i)).sum ≤
    (m.before.errands.map (Errand.pending i)).sum

/-- The moment is a reply to the errand, and ends its chunk with the outcome. -/
structure Moment.Ends (m : Moment) (errand : Errand) (o : ChunkOutcome) : Prop where
  errand_eq : m.errand? = some errand
  kept : o ≠ .dropped
  missing_eq : ∀ i, m.missing? i = none
  credit_le : ∀ i, m.credit i ≤ errand.pending i
  amount_eq : ∀ i,
    (if errand.target = i then o.amount else 0) = errand.held i + .ofNat (m.credit i)
  failure_iff : ∀ i, (errand.target = i → o.failure? = none) ↔ ¬m.Fails i

theorem Moment.Ends.leaves {o : ChunkOutcome} (h : m.Ends errand o)
    (hwaiting : m.before.errands = errand :: waiting) (i : Nat) : m.Leaves waiting i := by
  refine ⟨fun moments => ?_, fun moments => ?_, ?_⟩
  · rw [hwaiting]
    exact (given_reply h.errand_eq).filterMap _
  · rw [hwaiting, h.missing_eq]
    exact (given_reply h.errand_eq).filterMap _
  · rw [hwaiting, List.map_cons, List.sum_cons]
    exact Nat.add_le_add_right (h.credit_le i) _

section

variable {c : Coordinator} {d : Draft} {w : Workload} {j : Nat} {span : Span} {present : UInt64}
  {batch : Batch}

theorem ends_unreadable (e : Error) :
    Moment.Ends ⟨c, .reply (.checking d w j span) (.error e)⟩ (.checking j span)
      (.unreadable (w.sources j) e) where
  errand_eq := rfl
  kept := nofun
  missing_eq _ := rfl
  credit_le _ := Nat.zero_le _
  amount_eq _ := ite_self _
  failure_iff i := by
    simp [Moment.Fails, Errand.target, ChunkOutcome.unreadable, ChunkOutcome.failure?,
      BatchResult.failed]

theorem ends_held {addresses : List Address}
    (hmissing : (Batch.missing span addresses).isEmpty = true) :
    Moment.Ends ⟨c, .reply (.checking d w j span) (.ok addresses)⟩ (.checking j span)
      (.held (.ofNat (span.toList.countP addresses.contains))) where
  errand_eq := rfl
  kept := nofun
  missing_eq i := if_neg fun h => by
    rw [hmissing] at h
    cases h.2
  credit_le i := by
    have hparts := Batch.held_add_size span addresses
    simp only [Moment.credit, Errand.pending]
    split
    · omega
    · exact Nat.le_refl _
  amount_eq i := by
    simp only [Moment.credit, Errand.target, Errand.held, ChunkOutcome.amount, zero_add]
    by_cases hi : j = i <;> simp [hi]
  failure_iff i := by simp [Moment.Fails, ChunkOutcome.failure?]

theorem ends_written (returned : List Address) :
    Moment.Ends ⟨c, .reply (.copying d w j present batch) (.written returned)⟩
      (.copying j present batch) (.processed present (.ofWritten batch returned)) where
  errand_eq := rfl
  kept := nofun
  missing_eq _ := rfl
  credit_le i := by
    simp only [Moment.credit, Errand.pending, Batch.size]
    split
    · exact List.countP_le_length
    · exact Nat.le_refl _
  amount_eq i := by
    simp only [Moment.credit, Errand.target, Errand.held, ChunkOutcome.amount,
      BatchResult.transferred_ofWritten, ← List.countP_eq_length_filter]
    split <;> rfl
  failure_iff i := by
    simp [Moment.Fails, Errand.target, ChunkOutcome.failure?,
      BatchResult.failure_ofWritten_eq_none_iff]

theorem ends_uncopied (e : Error) :
    Moment.Ends ⟨c, .reply (.copying d w j present batch) (.failed e)⟩
      (.copying j present batch) (.processed present (.ofError batch e)) where
  errand_eq := rfl
  kept := nofun
  missing_eq _ := rfl
  credit_le _ := Nat.zero_le _
  amount_eq i := by
    change (if j = i then present + (BatchResult.ofError batch e).transferred else 0) =
      (if j = i then present else 0) + .ofNat 0
    split <;> rfl
  failure_iff i := by
    simp [Moment.Fails, Errand.target, ChunkOutcome.failure?, BatchResult.ofError,
      BatchResult.failed]

/-- What is missing of a chunk is asked for next. -/
theorem leaves_missing {addresses : List Address} {rest : List Errand} (held : UInt64)
    (sources : List NodeId) (hmissing : (Batch.missing span addresses).isEmpty = false)
    (hwaiting : c.errands = .checking j span :: rest) (i : Nat) :
    Moment.Leaves ⟨c, .reply (.checking d w j span) (.ok addresses)⟩
      (.copying j held ((Batch.missing span addresses).withSources sources) :: rest) i := by
  have herrand : Moment.errand? ⟨c, .reply (.checking d w j span) (.ok addresses)⟩ =
      some (.checking j span) := rfl
  refine ⟨fun moments => ?_, fun moments => ?_, ?_⟩
  · rw [hwaiting, started_cons]
    exact (given_reply herrand).filterMap _
  · rw [hwaiting, requested_cons]
    have hasked : Errand.request? i (.copying j held
        ((Batch.missing span addresses).withSources sources)) =
        Moment.missing? i ⟨c, .reply (.checking d w j span) (.ok addresses)⟩ := by
      simp [Errand.request?, Moment.missing?, hmissing, Batch.withSources]
    rw [hasked]
    exact ((given_reply herrand).filterMap _).append_left _
  · have hparts := Batch.held_add_size span addresses
    rw [hwaiting]
    simp only [Moment.credit, Errand.pending, List.map_cons, List.sum_cons, Batch.withSources,
      Batch.size] at hparts ⊢
    split <;> omega

/-- What is no reply to a worker says nothing of the target. -/
theorem silent_aside (h : m.errand? = none) (i : Nat) :
    m.missing? i = none ∧ m.credit i = 0 ∧ ¬m.Fails i := by
  obtain ⟨c, happening⟩ := m
  cases happening with
  | reply s answer => cases s <;> first | exact ⟨rfl, rfl, id⟩ | cases h
  | _ => exact ⟨rfl, rfl, id⟩

theorem leaves_aside (h : m.errand? = none) (i : Nat) : m.Leaves m.before.errands i := by
  obtain ⟨hmissing, hcredit, -⟩ := silent_aside h i
  refine ⟨fun moments => ?_, fun moments => ?_, ?_⟩
  · rw [started, given_aside h]
    exact .refl _
  · rw [requested, given_aside h, hmissing]
    exact .refl _
  · rw [hcredit, Nat.zero_add]

end

/-! ## The chunks that are handed out -/

variable {c : Coordinator} {s : TrackedSegment}

theorem HandedOut.of_perm (h : HandedOut moments waiting i c s)
    (hstarted : (started moments waiting' i).Perm (started moments waiting i))
    (hrequested : (requested moments waiting' i).Perm (requested moments waiting i)) :
    HandedOut moments waiting' i c s := by
  refine ⟨?_, hrequested.trans h.requested_perm, fun hstopped => ?_,
    fun later m earlier hmoments hcut => hstarted.trans (h.frozen later m earlier hmoments hcut)⟩
  · rw [hstarted.length_eq]
    exact hstarted.trans h.started_perm
  · rw [h.unstarted hstopped] at hstarted
    exact hstarted.eq_nil

theorem HandedOut.cons (h : HandedOut moments m.before.errands i c s)
    (hm : m.Leaves waiting i) : HandedOut (m :: moments) waiting i c s := by
  have hstarted := hm.started_perm moments
  refine ⟨?_, ?_, fun hstopped => ?_, fun later m' earlier hmoments hcut => ?_⟩
  · rw [hstarted.length_eq]
    exact hstarted.trans h.started_perm
  · refine (hm.requested_perm moments).trans ((h.requested_perm.append_left _).trans (.of_eq ?_))
    rw [List.filterMap_cons]
    cases m.missing? i <;> rfl
  · rw [h.unstarted hstopped] at hstarted
    exact hstarted.eq_nil
  · cases later with
    | nil =>
      cases hmoments
      exact hstarted
    | cons m₀ later =>
      obtain ⟨-, hmoments⟩ := List.cons.inj hmoments
      exact hstarted.trans (h.frozen later m' earlier hmoments hcut)

theorem handedOut_nil : HandedOut [] [] i c s := by
  refine ⟨.refl [], .refl [], fun _ => rfl, fun later m earlier hnone => ?_⟩
  cases later <;> cases hnone

/-- The next chunk is handed out, if the target is not cut short. -/
theorem HandedOut.advance (h : HandedOut moments waiting i c s) {span : Span}
    (hspan : (c.cursorOf s).range? (started moments waiting i).length = some span)
    (hgoing : ¬WasCutShort moments i c) :
    HandedOut moments (.checking i span :: waiting) i c s := by
  have hstarted : started moments (.checking i span :: waiting) i =
      span :: started moments waiting i := by
    rw [started_cons, Errand.chunk?, if_pos rfl]
    rfl
  refine ⟨?_, ?_, fun hstopped => absurd (Or.inl hstopped) hgoing,
    fun later m earlier hmoments hcut => absurd (Or.inr ⟨m, ?_, hcut⟩) hgoing⟩
  · rw [hstarted, List.length_cons, List.range_succ, List.filterMap_append]
    have hlast : [(started moments waiting i).length].filterMap (c.cursorOf s).range? = [span] := by
      rw [List.filterMap_cons, hspan]
      rfl
    rw [hlast]
    exact (h.started_perm.cons span).trans (List.perm_append_singleton _ _).symm
  · rw [requested_cons]
    exact h.requested_perm
  · rw [hmoments]
    exact List.mem_append_right _ List.mem_cons_self

theorem WasCutShort.cons (h : WasCutShort moments i c) (m : Moment) :
    WasCutShort (m :: moments) i c := by
  refine h.imp_right ?_
  rintro ⟨m', hm', hcut⟩
  exact ⟨m', List.mem_cons_of_mem _ hm', hcut⟩

end

end Coordinator

/-! ## What is told of one target -/

/-- The target is as the errands and their replies say. -/
structure Target.Told (c : Coordinator) (moments : List Moment) (waiting : List Errand) (i : Nat)
    (t : Target) : Prop where
  handed : HandedOut moments waiting i c t.segment
  cursor_eq : t.cursor = (c.cursorOf t.segment).afterCalls (started moments waiting i).length
  credited_le : credited moments i + (waiting.map (Errand.pending i)).sum ≤
    ((started moments waiting i).map (·.length.toNat)).sum
  total_add : t.tally.total + (waiting.map (Errand.held i)).sum = .ofNat (credited moments i)
  failure_iff : t.tally.failure = none ↔ ∀ m ∈ moments, ¬m.Fails i
  going : t.cancelled = false → ¬WasCutShort moments i c
  cut : t.tally.cancelled = true → WasCutShort moments i c

namespace Target

section

variable {c : Coordinator} {moments : List Moment} {waiting waiting' : List Errand} {i : Nat}
  {t : Target}

/-- It does not matter in which order the errands wait. -/
theorem Told.of_perm (h : t.Told c moments waiting i) (hperm : waiting'.Perm waiting) :
    t.Told c moments waiting' i := by
  have hstarted : (started moments waiting' i).Perm (started moments waiting i) :=
    started_perm hperm
  refine ⟨h.handed.of_perm hstarted (requested_perm hperm), ?_, ?_, ?_, h.failure_iff, h.going,
    h.cut⟩
  · rw [hstarted.length_eq]
    exact h.cursor_eq
  · rw [(hperm.map _).sum_nat, (hstarted.map _).sum_nat]
    exact h.credited_le
  · rw [(hperm.map _).sum_eq]
    exact h.total_add

/-- An errand for another target does not matter. -/
theorem Told.beside (h : t.Told c moments waiting i) {j : Nat} (hj : j ≠ i) (span : Span) :
    t.Told c moments (.checking j span :: waiting) i := by
  have hstarted : started moments (.checking j span :: waiting) i = started moments waiting i := by
    rw [started_cons, Errand.chunk?, if_neg hj]
    rfl
  have hrequested : requested moments (.checking j span :: waiting) i =
      requested moments waiting i := requested_cons _ _ _ _
  refine ⟨h.handed.of_perm (.of_eq hstarted) (.of_eq hrequested), ?_, ?_, ?_, h.failure_iff,
    h.going, h.cut⟩
  · rw [hstarted]
    exact h.cursor_eq
  · rw [hstarted, List.map_cons, List.sum_cons, Errand.pending, if_neg hj, Nat.zero_add]
    exact h.credited_le
  · rw [List.map_cons, List.sum_cons, Errand.held, zero_add]
    exact h.total_add

/-- The next chunk of the target is handed out. -/
theorem Told.advance (h : t.Told c moments waiting i) (hgoing : t.cancelled = false) {span : Span}
    {cursor : Cursor} (hnext : t.cursor.next? = some (span, cursor)) :
    Target.Told c moments (.checking i span :: waiting) i { t with cursor } := by
  have hspan : (c.cursorOf t.segment).range? (started moments waiting i).length = some span := by
    rw [Cursor.range?, ← h.cursor_eq, hnext]
    rfl
  have hstarted : started moments (.checking i span :: waiting) i =
      span :: started moments waiting i := by
    rw [started_cons, Errand.chunk?, if_pos rfl]
    rfl
  refine ⟨h.handed.advance hspan (h.going hgoing), ?_, ?_, ?_, h.failure_iff, h.going, h.cut⟩
  · rw [hstarted, List.length_cons, Cursor.afterCalls, ← h.cursor_eq]
    exact (Cursor.rest_of_next? hnext).symm
  · have hle := h.credited_le
    simp only [hstarted, List.map_cons, List.sum_cons, Errand.pending, if_pos]
    omega
  · rw [List.map_cons, List.sum_cons, Errand.held, zero_add]
    exact h.total_add

/-- The target is cut short, so that no further chunk of it is handed out. -/
theorem Told.drop (h : t.Told c moments waiting i) (hcut : WasCutShort moments i c)
    (worker : Nat) : (t.note worker .dropped).Told c moments waiting i := by
  refine ⟨h.handed, h.cursor_eq, h.credited_le, ?_, ?_, h.going, fun _ => hcut⟩
  · rw [total_note, ← h.total_add]
    exact congrArg (· + _) (add_zero _)
  · rw [failure_note, h.failure_iff]
    exact and_iff_right rfl

theorem Told.retire (h : t.Told c moments waiting i) (worker : Nat) :
    (t.retire worker).Told c moments waiting i := by
  refine ⟨h.handed, h.cursor_eq, h.credited_le, ?_, ?_, h.going, ?_⟩
  · rw [total_retire]
    exact h.total_add
  · rw [failure_retire]
    exact h.failure_iff
  · rw [cancelled_retire]
    exact h.cut

theorem Told.recancel (h : t.Told c moments waiting i) (cut : Bool) :
    Target.Told c moments waiting i { t with cancelled := t.cancelled || cut } :=
  ⟨h.handed, h.cursor_eq, h.credited_le, h.total_add, h.failure_iff,
    fun hgoing => h.going (Bool.or_eq_false_iff.mp hgoing).1, h.cut⟩

variable {m : Moment}

/-- A moment tells of the target what it adds to the tally. -/
theorem Told.cons (h : t.Told c moments m.before.errands i) (hm : m.Leaves waiting i)
    (hcut : m.before.CutShort i → t.cancelled = true) {t' : Target}
    (hsegment : t'.segment = t.segment) (hcursor : t'.cursor = t.cursor)
    (hcancelled : t'.cancelled = t.cancelled)
    (htotal : t'.tally.total + (waiting.map (Errand.held i)).sum =
      t.tally.total + (m.before.errands.map (Errand.held i)).sum + .ofNat (m.credit i))
    (hfailure : t'.tally.failure = none ↔ ¬m.Fails i ∧ t.tally.failure = none)
    (hdropped : t'.tally.cancelled = t.tally.cancelled) :
    t'.Told c (m :: moments) waiting i := by
  have hstarted := hm.started_perm moments
  refine ⟨?_, ?_, ?_, ?_, ?_, fun hgoing => ?_, fun htally => ?_⟩
  · rw [hsegment]
    exact h.handed.cons hm
  · rw [hsegment, hcursor, hstarted.length_eq]
    exact h.cursor_eq
  · have hle := h.credited_le
    have hcredit := hm.credit_le
    rw [(hstarted.map _).sum_nat, credited, List.map_cons, List.sum_cons]
    rw [credited] at hle
    omega
  · rw [htotal, h.total_add, credited, credited, List.map_cons, List.sum_cons, UInt64.ofNat_add]
    exact add_comm _ _
  · rw [hfailure, h.failure_iff, List.forall_mem_cons]
  · rw [hcancelled] at hgoing
    rintro (hstopped | ⟨m', hm', hnow⟩)
    · exact h.going hgoing (Or.inl hstopped)
    · rcases List.mem_cons.mp hm' with rfl | hm'
      · rw [hcut hnow] at hgoing
        cases hgoing
      · exact h.going hgoing (Or.inr ⟨m', hm', hnow⟩)
  · rw [hdropped] at htally
    exact (h.cut htally).cons m

/-- A chunk ends, of this target or of another. -/
theorem Told.note {errand : Errand} {o : ChunkOutcome} (h : t.Told c moments m.before.errands i)
    (hm : m.Ends errand o) (hwaiting : m.before.errands = errand :: waiting)
    (hcut : m.before.CutShort i → t.cancelled = true) (worker : Nat) :
    Target.Told c (m :: moments) waiting i
      (if errand.target = i then t.note worker o else t) := by
  have hleaves := hm.leaves hwaiting i
  have hamount := hm.amount_eq i
  have hfailure := hm.failure_iff i
  by_cases hi : errand.target = i
  · rw [if_pos hi] at hamount ⊢
    refine h.cons hleaves hcut rfl rfl rfl ?_ ?_ (t.cancelled_note_of_ne worker hm.kept)
    · rw [total_note, hamount, hwaiting, List.map_cons, List.sum_cons]
      ac_rfl
    · rw [failure_note, ← hfailure, imp_iff_right hi]
  · rw [if_neg hi] at hamount ⊢
    refine h.cons hleaves hcut rfl rfl rfl ?_ ?_ rfl
    · rw [hwaiting, List.map_cons, List.sum_cons, add_assoc, add_right_comm, ← hamount, zero_add]
    · exact (and_iff_right (hfailure.mp fun h => absurd h hi)).symm

/-- What is missing of a chunk is asked for. -/
theorem Told.proceed (h : t.Told c moments m.before.errands i) (hm : m.Leaves waiting i)
    (hcut : m.before.CutShort i → t.cancelled = true)
    (hheld : (waiting.map (Errand.held i)).sum =
      (m.before.errands.map (Errand.held i)).sum + .ofNat (m.credit i))
    (hfails : ¬m.Fails i) : t.Told c (m :: moments) waiting i := by
  refine h.cons hm hcut rfl rfl rfl ?_ (and_iff_right hfails).symm rfl
  rw [hheld, add_assoc]

/-- Before anything is handed out. -/
theorem told_targetOf (c : Coordinator) (layout : Layout) (s : TrackedSegment) (i : Nat) :
    (c.targetOf layout s).Told c [] [] i where
  handed := handedOut_nil
  cursor_eq := rfl
  credited_le := Nat.le_refl 0
  total_add := rfl
  failure_iff := iff_of_true rfl fun _ hm => absurd hm List.not_mem_nil
  going hgoing := by
    rintro (hstopped | ⟨m, hm, -⟩)
    · rw [targetOf, hstopped] at hgoing
      cases hgoing
    · cases hm
  cut := nofun

/-- A target that no worker has to do with any more, and that is not queued, is left as told. -/
theorem Told.leftAs (h : t.Told c moments [] i) (hqueued : t.Queued False)
    (hvalid : t.segment.Valid) (hdue : t.segment.isDue = true) {fate : TrackedSegment × Bool}
    (hclose : t.close = .ok fate) :
    t.segment.LeftAs (c.cursorOf t.segment) moments i fate ∧
      (fate.2 = true → WasCutShort moments i c) := by
  have hcredited : credited moments i ≤ t.segment.length.toNat := by
    have hle := h.credited_le
    have hranges := Cursor.sum_length_ranges_le hvalid.first_nonneg c.settings.batchSize
      (started moments [] i).length
    rw [(h.handed.started_perm.map _).sum_nat] at hle
    exact Nat.le_trans (Nat.le_add_right _ _) (Nat.le_trans hle hranges)
  have htotal : t.tally.total = .ofNat (credited moments i) := by
    rw [← h.total_add]
    exact (add_zero _).symm
  obtain ⟨u, short⟩ := fate
  obtain ⟨hspan, hcopied, -⟩ := of_close hclose
  rw [htotal] at hcopied
  have hshort : short = t.tally.cancelled := by
    obtain ⟨progress, hclosed, -⟩ := close_eq hvalid hdue
    rw [hclose] at hclosed
    cases hclosed
    rfl
  refine ⟨⟨hspan, ?_, ?_, ?_, ?_⟩, ?_⟩
  · rw [hcopied]
    exact toNat_creditFor hvalid hcredited
  · have hleft := hqueued.cut_iff id
    rw [h.cursor_eq, ← Bool.not_eq_true, ← Cursor.range?_eq_none_iff, ← ne_eq,
      Option.ne_none_iff_isSome] at hleft
    rw [hshort]
    exact hleft
  · intro hcut
    rw [close, ← hshort, if_pos hcut, interrupted_eq hvalid] at hclose
    cases hclose
    exact ⟨rfl, rfl⟩
  · intro hwhole
    have hkept : ¬t.tally.cancelled = true := by
      rw [← hshort]
      exact Bool.eq_false_iff.mp hwhole
    rw [close, if_neg hkept, attempted_eq hvalid hdue, htotal] at hclose
    cases hclose
    exact ⟨t.tally.failure, rfl, h.failure_iff⟩
  · rw [hshort]
    exact h.cut

end

end Target

/-! ## What is told of all targets -/

/-- The fates of the targets of the draft are as the moments say. -/
structure Coordinator.Closed (c : Coordinator) (d : Draft) (moments : List Moment)
    (fates : List (TrackedSegment × Bool)) : Prop where
  length_eq : fates.length = d.tracked.countP (·.isDue)
  handed : ∀ (i : Nat) (s : TrackedSegment), (d.tracked.filter (·.isDue))[i]? = some s →
    HandedOut moments [] i c s
  left : ∀ (i : Nat) (s : TrackedSegment) (fate : TrackedSegment × Bool),
    (d.tracked.filter (·.isDue))[i]? = some s → fates[i]? = some fate →
      s.LeftAs (c.cursorOf s) moments i fate ∧ (fate.2 = true → WasCutShort moments i c)

namespace Workload

/-- The targets are as the errands and their replies say, and no worker died. -/
structure Told (c : Coordinator) (moments : List Moment) (waiting : List Errand) (w : Workload) :
    Prop where
  crashed_eq : w.crashed = false
  targets : ∀ (i : Nat) (t : Target), w.targets[i]? = some t → t.Told c moments waiting i
  queued : Queued w.targets w.queue

/-- Each target that is cut short was cut short when the copying began, or at one of the
moments. -/
def CutBy (c : Coordinator) (moments : List Moment) (w : Workload) : Prop :=
  ∀ (i : Nat) (t : Target), w.targets[i]? = some t → t.cancelled = true → WasCutShort moments i c

section

variable {c : Coordinator} {moments : List Moment} {waiting waiting' : List Errand}
  {w w' : Workload}

/-- Only the targets and their queue matter, and what errands wait. -/
theorem Told.of_targets (h : w.Told c moments waiting) (htargets : w'.targets = w.targets)
    (hqueue : w'.queue = w.queue) (hcrashed : w'.crashed = w.crashed)
    (hperm : waiting'.Perm waiting) : w'.Told c moments waiting' := by
  refine ⟨hcrashed.trans h.crashed_eq, fun i t ht => ?_, ?_⟩
  · rw [htargets] at ht
    exact (h.targets i t ht).of_perm hperm
  · rw [htargets, hqueue]
    exact h.queued

theorem Told.take (h : w.Told c moments waiting) (hcut : w.CutBy c moments) {i : Nat}
    {span : Span} (htake : w.take = (w', some (i, span))) :
    w'.Told c moments (.checking i span :: waiting) := by
  obtain ⟨⟨t, cursor, ⟨ht, -⟩, hgoing, hnext, hi⟩, hrest⟩ := forall_take_some
    (P := fun j t => t.Told c moments waiting j ∧ (t.cancelled = true → WasCutShort moments j c))
    (fun ht hcancelled worker => ⟨ht.1.drop (ht.2 hcancelled) worker, ht.2⟩)
    (fun j t ht => ⟨h.targets j t ht, hcut j t ht⟩) htake
  refine ⟨(crashed_take htake).trans h.crashed_eq, fun j u hu => ?_, h.queued.take htake⟩
  by_cases hji : j = i
  · rw [hji, hi] at hu
    cases hu
    rw [hji]
    exact ht.advance hgoing hnext
  · exact (hrest j u hji hu).1.beside (Ne.symm hji) span

/-- A worker that finds nothing to take leaves an empty queue. -/
theorem Told.retire (h : w.Told c moments waiting) (hcut : w.CutBy c moments)
    (htake : w.take = (w', none)) :
    w'.retire.Told c moments waiting ∧ w'.retire.queue = [] := by
  have htargets := forall_take_none
    (P := fun j t => t.Told c moments waiting j ∧ (t.cancelled = true → WasCutShort moments j c))
    (fun ht hcancelled worker => ⟨ht.1.drop (ht.2 hcancelled) worker, ht.2⟩)
    (fun j t ht => ⟨h.targets j t ht, hcut j t ht⟩) htake
  obtain ⟨hqueued, hempty⟩ := h.queued.retire htake
  refine ⟨⟨(crashed_take htake).trans h.crashed_eq, fun i u hu => ?_, hqueued⟩, hempty⟩
  obtain ⟨t, ht, rfl⟩ := exists_of_retire hu
  exact (htargets i t ht).1.retire _

theorem Told.recancel (h : w.Told c moments waiting) (f : Target → Bool) :
    (w.recancel f).Told c moments waiting := by
  refine ⟨h.crashed_eq, fun i u hu => ?_, h.queued.recancel f⟩
  obtain ⟨t, ht, rfl⟩ := exists_of_recancel hu
  exact (h.targets i t ht).recancel (f t)

variable {m : Moment}

/-- What is cut short in the workload is cut short at the moment. -/
theorem cutBy_cons (hflight : m.before.inFlight = w.targets) : w.CutBy c (m :: moments) := by
  intro i t ht hcancelled
  rw [← hflight] at ht
  exact Or.inr ⟨m, List.mem_cons_self, t, ht, hcancelled⟩

theorem CutBy.note (h : w.CutBy c moments) (i : Nat) (o : ChunkOutcome) :
    (w.note i o).CutBy c moments := by
  intro j u hu hcancelled
  obtain ⟨t, ht, rfl⟩ := exists_of_note hu
  refine h j t ht ?_
  split at hcancelled <;> exact hcancelled

/-- The target of the workload is cut short if it is so at the moment. -/
theorem cancelled_of_cutShort (hflight : m.before.inFlight = w.targets) {i : Nat} {t : Target}
    (ht : w.targets[i]? = some t) (h : m.before.CutShort i) : t.cancelled = true := by
  obtain ⟨t', ht', hcancelled⟩ := h
  rw [hflight, ht] at ht'
  cases ht'
  exact hcancelled

theorem Told.note (h : w.Told c moments m.before.errands) {errand : Errand} {o : ChunkOutcome}
    (hm : m.Ends errand o) (hwaiting : m.before.errands = errand :: waiting)
    (hflight : m.before.inFlight = w.targets) :
    (w.note errand.target o).Told c (m :: moments) waiting := by
  refine ⟨h.crashed_eq, fun i u hu => ?_, h.queued.note _ hm.kept⟩
  obtain ⟨t, ht, rfl⟩ := exists_of_note hu
  exact (h.targets i t ht).note hm hwaiting (cancelled_of_cutShort hflight ht) w.worker

/-- A moment that ends no chunk leaves the targets as they are. -/
theorem Told.proceed (h : w.Told c moments m.before.errands) (hm : ∀ i, m.Leaves waiting i)
    (hheld : ∀ i, (waiting.map (Errand.held i)).sum =
      (m.before.errands.map (Errand.held i)).sum + .ofNat (m.credit i))
    (hfails : ∀ i, ¬m.Fails i) (hflight : m.before.inFlight = w.targets) :
    w.Told c (m :: moments) waiting :=
  ⟨h.crashed_eq, fun i t ht => (h.targets i t ht).proceed (hm i)
    (cancelled_of_cutShort hflight ht) (hheld i) (hfails i), h.queued⟩

/-- What is no reply to a worker leaves the targets as they are. -/
theorem Told.aside (h : w.Told c moments m.before.errands) (hm : m.errand? = none)
    (hflight : m.before.inFlight = w.targets) : w.Told c (m :: moments) m.before.errands := by
  refine h.proceed (leaves_aside hm) (fun i => ?_) (fun i => (silent_aside hm i).2.2) hflight
  rw [(silent_aside hm i).2.1]
  exact (add_zero _).symm

/-- Before anything is handed out. -/
theorem told_targetOf {segments : List TrackedSegment}
    (hle : ∀ s ∈ segments, s.first ≤ s.last) (layout : Layout) (workers : Nat) :
    (ofTargets (segments.map (c.targetOf layout)) workers).Told c [] [] ∧
      (ofTargets (segments.map (c.targetOf layout)) workers).CutBy c [] := by
  refine ⟨⟨rfl, fun i t ht => ?_, queued_ofTargets ?_ ?_ ?_⟩, fun i t ht hcancelled => ?_⟩
  · rw [ofTargets, List.getElem?_map] at ht
    obtain ⟨s, -, rfl⟩ := Option.map_eq_some_iff.mp ht
    exact Target.told_targetOf c layout s i
  all_goals try
    intro t ht
    obtain ⟨s, hs, rfl⟩ := List.mem_map.mp ht
  · exact ⟨_, rfl⟩
  · exact hle s hs
  · rfl
  · rw [ofTargets, List.getElem?_map] at ht
    obtain ⟨s, -, rfl⟩ := Option.map_eq_some_iff.mp ht
    exact Or.inl hcancelled

/-- Once no worker waits and no target is queued, all targets are left as told. -/
theorem Told.exists_fates {d : Draft} (h : w.Told c moments []) (hqueue : w.queue = [])
    (hserves : Serves d w) (hvalid : ∀ s ∈ d.tracked, s.isDue = true → s.Valid) :
    ∃ fates, w.close = .ok fates ∧ Closed c d moments fates := by
  obtain ⟨fates, hclose⟩ := hserves.close hvalid
  obtain ⟨hlength, htargets⟩ := hserves.exists_closed hclose
  refine ⟨fates, hclose, ?_, fun i s hs => ?_, fun i s fate hs hfate => ?_⟩
  · rw [hlength, List.countP_eq_length_filter]
  · rw [← hserves, List.getElem?_map] at hs
    obtain ⟨t, ht, rfl⟩ := Option.map_eq_some_iff.mp hs
    exact (h.targets i t ht).handed
  · obtain ⟨t, ht, rfl, hclosed⟩ := htargets i s fate hs hfate
    have hqueued : t.Queued False := by
      refine (h.queued.targets i t ht).imp ?_
      rw [hqueue]
      exact (iff_false_intro List.not_mem_nil).symm
    obtain ⟨htvalid, hdue⟩ := hserves.valid_isDue hvalid (List.mem_of_getElem? ht)
    exact (h.targets i t ht).leftAs hqueued htvalid hdue hclosed

end

end Workload

end LogRepair
