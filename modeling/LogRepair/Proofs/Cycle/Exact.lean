import LogRepair.Proofs.Cycle.Ledger
import Mathlib.Algebra.BigOperators.Group.List.Basic
import Mathlib.Data.UInt

/-!
# What a workload counts if nothing goes wrong

As long as no target is cut short, no worker dies and no chunk fails, the addresses of a target are
those that its tallies count, those that workers wait for, and those that its cursor has yet to hand
out. The account is kept in words, in which sums may wrap without harm. At the end only the tallies
are left, so each target is copied in full.

* `Workload.take_cases`: taking a chunk off a queue of targets that are not cut short.
* `Workload.Exact`: every target is accounted for exactly.
* `Workload.Exact.take`, `Workload.Exact.note`, `Workload.Exact.retire`: what workers do keeps
  this.
* `Workload.cost`: a bound on the replies that a workload still waits for.
* `Workload.Exact.close_eq`: what becomes of the targets once all workers are gone.
-/

namespace LogRepair

open TrackedSegment

/-! ## What a chunk comes to -/

/-- What the outcome adds to the total of a tally. -/
def ChunkOutcome.amount : ChunkOutcome → UInt64
  | processed present result => present + result.transferred
  | held present => present
  | dropped => 0

/-- What is held of a chunk and what is missing make up the chunk. -/
theorem Batch.held_add_size (span : Span) (present : List Address) :
    span.toList.countP present.contains + (missing span present).size = span.length.toNat := by
  have hparts := List.length_eq_countP_add_countP present.contains (l := span.toList)
  have hall : span.toList.length = span.length.toNat := by
    rw [Span.toList, List.length_map, List.length_range]
  rw [← hall, hparts, size, missing, ← List.countP_eq_length_filter]
  simp only [Bool.not_eq_true, Bool.decide_eq_false]

/-- The same in words. -/
theorem Batch.held_add_missing (span : Span) (present : List Address) :
    UInt64.ofNat (span.toList.countP present.contains) + .ofNat (missing span present).size =
      span.length := by
  rw [← UInt64.ofNat_add, held_add_size]
  exact UInt64.ofNat_toNat

namespace BatchResult

/-- A batch that was written in full succeeded. -/
theorem ofWritten_eq {batch : Batch} {returned : List Address}
    (h : batch.addresses ⊆ returned) : ofWritten batch returned = .succeeded batch := by
  have hall : batch.addresses.filter returned.contains = batch.addresses :=
    List.filter_eq_self.mpr fun x hx => List.contains_iff_mem.mpr (h hx)
  rw [ofWritten, hall]
  exact if_pos rfl

theorem failure_ofWritten_eq_none_iff {batch : Batch} {returned : List Address} :
    (ofWritten batch returned).failure = none ↔ batch.addresses ⊆ returned := by
  constructor
  · intro h x hx
    exact mem_of_ofWritten h hx
  · intro h
    rw [ofWritten_eq h]
    rfl

theorem transferred_ofWritten (batch : Batch) (returned : List Address) :
    (ofWritten batch returned).transferred =
      .ofNat (batch.addresses.filter returned.contains).length := by
  unfold ofWritten
  dsimp only
  split
  · next hfull =>
    rw [hfull]
    rfl
  · rfl

end BatchResult

/-! ## What the tallies add up to -/

namespace Tally

theorem total_note (t : Tally) (o : ChunkOutcome) : (t.note o).total = t.total + o.amount := by
  cases o with
  | processed present result =>
    simp only [note, total, ChunkOutcome.amount]
    exact add_add_add_comm _ _ _ _
  | held present =>
    simp only [note, total, ChunkOutcome.amount]
    exact add_right_comm _ _ _
  | dropped => exact (add_zero _).symm

theorem total_append (t u : Tally) : (t.append u).total = t.total + u.total := by
  simp only [append, total]
  exact add_add_add_comm _ _ _ _

theorem total_foldl_append (t : Tally) (us : List Tally) :
    (us.foldl append t).total = t.total + (us.map total).sum := by
  induction us generalizing t with
  | nil => simp
  | cons u us ih => simp [ih, total_append, add_assoc]

theorem total_noteFor (worker : Nat) (o : ChunkOutcome) (ts : List (Nat × Tally)) :
    ((noteFor worker o ts).map (·.2.total)).sum = (ts.map (·.2.total)).sum + o.amount := by
  fun_induction noteFor worker o ts with
  | case1 =>
    have hfirst := total_note {} o
    have hnone : total {} = 0 := rfl
    simpa [hnone] using hfirst
  | case2 t rest => simp [total_note, add_right_comm]
  | case3 k t rest hk ih => simp [ih, add_assoc]

end Tally

namespace Target

theorem total_eq (t : Target) : t.tally.total = (t.tallies.map (·.2.total)).sum := by
  have hsum := Tally.total_foldl_append {} (t.tallies.map (·.2))
  have hnone : Tally.total {} = 0 := rfl
  rwa [hnone, zero_add, List.map_map] at hsum

theorem total_note (t : Target) (worker : Nat) (o : ChunkOutcome) :
    (t.note worker o).tally.total = t.tally.total + o.amount := by
  rw [total_eq, total_eq]
  exact Tally.total_noteFor worker o t.tallies

theorem total_retire (t : Target) (worker : Nat) :
    (t.retire worker).tally.total = t.tally.total := by
  rw [total_eq, total_eq]
  exact ((t.perm_tallies_retire worker).map _).sum_eq

end Target

/-! ## Taking a chunk -/

namespace Workload

/-- The chunk is the next one of some target, and nothing else changes. -/
theorem takeFrom_cases {targets : List Target} (h : ∀ t ∈ targets, t.cancelled = false)
    (worker : Nat) (queue : List Nat) :
    takeFrom worker targets queue = (targets, none) ∨
      ∃ i t span cursor queue', targets[i]? = some t ∧ t.cursor.next? = some (span, cursor) ∧
        takeFrom worker targets queue =
          (targets.set i { t with cursor }, some (i, span, queue')) := by
  fun_induction takeFrom worker targets queue with
  | case1 => exact Or.inl rfl
  | case2 targets i queue hnone ih => exact ih h
  | case3 targets i queue t ht hcancelled ih =>
    rw [h t (List.mem_of_getElem? ht)] at hcancelled
    cases hcancelled
  | case4 targets i queue t ht hcancelled hnext ih => exact ih h
  | case5 targets i queue t ht hcancelled span cursor hnext =>
    exact Or.inr ⟨i, t, span, cursor, _, ht, hnext, rfl⟩

theorem take_cases {w w' : Workload} {chunk : Option (Nat × Span)}
    (h : ∀ t ∈ w.targets, t.cancelled = false) (htake : w.take = (w', chunk)) :
    (chunk = none ∧ w' = { w with queue := [] }) ∨
      ∃ i t span cursor queue, chunk = some (i, span) ∧ w.targets[i]? = some t ∧
        t.cursor.next? = some (span, cursor) ∧
        w' = { w with targets := w.targets.set i { t with cursor }, queue } := by
  rcases takeFrom_cases h w.worker w.queue with
    hnone | ⟨i, t, span, cursor, queue, ht, hnext, hsome⟩
  · rw [take, hnone] at htake
    cases htake
    exact Or.inl ⟨rfl, rfl⟩
  · rw [take, hsome] at htake
    cases htake
    exact Or.inr ⟨i, t, span, cursor, queue, rfl, ht, hnext, rfl⟩

end Workload

/-! ## A segment that is copied in full -/

namespace TrackedSegment

/-- The segment once all of it is copied. -/
def asTransferred (s : TrackedSegment) : TrackedSegment :=
  { s with progress := .transferred s.length }

theorem outcome_length {s : TrackedSegment} (hs : s.Valid) :
    s.outcome s.length none = .transferred s.length := by
  have hcopied := hs.copied_le
  have hmax : max s.length s.progress.copied = s.length := by
    by_cases hle : s.length ≤ s.progress.copied
    · exact (if_pos hle).trans (UInt64.le_antisymm hcopied hle)
    · exact if_neg hle
  unfold outcome
  rw [creditFor, hmax, Std.min_self]
  exact if_pos rfl

end TrackedSegment

/-! ## What one target is accounted for -/

/-- What an errand is about: what it has found, and what it has yet to learn of. -/
def Errand.load : Errand → UInt64
  | .checking _ span => span.length
  | .copying _ present batch => present + .ofNat batch.size

/-- Nothing went wrong with the target, and its addresses are those that its tallies count, the
`load` of the workers that wait, and those that its cursor has left. -/
structure Target.Exact (t : Target) (load : UInt64) : Prop where
  cancelled_eq : t.cancelled = false
  whole : t.tally.cancelled = false
  failure_eq : t.tally.failure = none
  upward : t.cursor.Upward
  length_eq : t.tally.total + load + t.cursor.left = t.segment.length

namespace Target

variable {t : Target} {load : UInt64}

theorem Exact.note {o : ChunkOutcome} (h : t.Exact (load + o.amount)) (hfailure : o.failure? = none)
    (hkept : o ≠ .dropped) (worker : Nat) : (t.note worker o).Exact load := by
  refine ⟨h.cancelled_eq, ?_, (t.failure_note worker o).mpr ⟨hfailure, h.failure_eq⟩, h.upward, ?_⟩
  · rw [Bool.eq_false_iff, ne_eq, t.cancelled_note worker o, not_or, h.whole]
    exact ⟨hkept, Bool.false_ne_true⟩
  · have hlength := h.length_eq
    rw [← add_assoc] at hlength
    rw [total_note, add_right_comm t.tally.total]
    exact hlength

theorem Exact.retire (h : t.Exact load) (worker : Nat) : (t.retire worker).Exact load := by
  refine ⟨h.cancelled_eq, ?_, (t.failure_retire worker).mpr h.failure_eq, h.upward, ?_⟩
  · rw [t.cancelled_retire worker, h.whole]
  · rw [t.total_retire worker]
    exact h.length_eq

theorem Exact.advance (h : t.Exact load) {span : Span} {cursor : Cursor}
    (hnext : t.cursor.next? = some (span, cursor)) :
    Target.Exact { t with cursor } (load + span.length) := by
  obtain ⟨-, -, hupward, hparts⟩ := h.upward.next hnext
  have hleft : span.length + cursor.left = t.cursor.left := by
    rw [← UInt64.toNat_inj, UInt64.toNat_add, hparts]
    exact Nat.mod_eq_of_lt t.cursor.left.toNat_lt
  refine ⟨h.cancelled_eq, h.whole, h.failure_eq, hupward, ?_⟩
  have hlength := h.length_eq
  rw [← hleft, ← add_assoc, add_assoc t.tally.total] at hlength
  exact hlength

/-- A target that is through without loss is copied in full. -/
theorem Exact.close_eq (h : t.Exact 0) (hdone : t.cursor.isDone = true) (hvalid : t.segment.Valid)
    (hdue : t.segment.isDue = true) : t.close = .ok (t.segment.asTransferred, false) := by
  have htotal : t.tally.total = t.segment.length := by
    have hlength := h.length_eq
    rwa [Cursor.left_of_isDone hdone, add_zero, add_zero] at hlength
  rw [close, h.whole, if_neg Bool.false_ne_true, h.failure_eq, htotal, attempted_eq hvalid hdue,
    outcome_length hvalid]
  rfl

end Target

/-! ## What all targets are accounted for -/

/-- A chunk that is asked about is not empty. -/
def Errand.Upright : Errand → Prop
  | .checking _ span => span.first ≤ span.last
  | .copying _ _ _ => True

namespace Workload

/-- What the workers that wait are about, of one target. -/
def load (w : Workload) (i : Nat) : UInt64 :=
  ((w.others.filter (·.2.target = i)).map (·.2.load)).sum

/-- Nothing went wrong with the workload, and every target is accounted for exactly. -/
structure Exact (w : Workload) : Prop where
  crashed_eq : w.crashed = false
  targets : ∀ (i : Nat) (t : Target), w.targets[i]? = some t → t.Exact (w.load i)
  upright : ∀ p ∈ w.others, p.2.Upright
  served : w.Accounts fun _ => True

section

variable {w w' : Workload}

theorem load_park (w : Workload) (errand : Errand) (i : Nat) :
    (w.park errand).load i = w.load i + if errand.target = i then errand.load else 0 := by
  by_cases hi : errand.target = i <;> simp [load, park, hi]

theorem load_of_perm (h : w'.others.Perm w.others) (i : Nat) : w'.load i = w.load i :=
  ((h.filter _).map _).sum_eq

theorem Exact.not_cancelled (h : w.Exact) : ∀ t ∈ w.targets, t.cancelled = false := by
  intro t ht
  obtain ⟨i, hi⟩ := List.mem_iff_getElem?.mp ht
  exact (h.targets i t hi).cancelled_eq

theorem exact_ofTargets {targets : List Target} {workers : Nat}
    (htargets : ∀ t ∈ targets, t.Exact 0)
    (hcursor : ∀ t ∈ targets, ∃ size, t.cursor = .ofSpan t.segment.toSpan size)
    (hfirst : ∀ t ∈ targets, 0 ≤ t.segment.first) : (ofTargets targets workers).Exact :=
  ⟨rfl, fun _ t ht => htargets t (List.mem_of_getElem? ht), fun _ hp => absurd hp List.not_mem_nil,
    accounts_ofTargets hcursor hfirst⟩

/-- It does not matter which worker is at its turn, and in which order the others wait. -/
theorem Exact.of_perm (h : w.Exact) (htargets : w'.targets = w.targets)
    (hqueue : w'.queue = w.queue) (hcrashed : w'.crashed = w.crashed)
    (hperm : w'.others.Perm w.others) : w'.Exact := by
  refine ⟨hcrashed.trans h.crashed_eq, fun i t ht => ?_, fun p hp => ?_, ?_⟩
  · rw [load_of_perm hperm]
    exact h.targets i t (htargets ▸ ht)
  · exact h.upright p (hperm.mem_iff.mp hp)
  · exact h.served.of_others htargets hqueue hcrashed fun p => hperm.mem_iff.mpr

theorem Exact.take (h : w.Exact) {i : Nat} {span : Span} (htake : w.take = (w', some (i, span))) :
    (w'.park (.checking i span)).Exact := by
  have hserved := h.served.take htake
  rcases take_cases h.not_cancelled htake with ⟨hnone, -⟩ |
    ⟨i, t, span, cursor, queue, hsome, ht, hnext, rfl⟩
  · cases hnone
  cases hsome
  have hi := h.targets i t ht
  refine ⟨h.crashed_eq, fun j u hu => ?_, fun p hp => ?_, hserved⟩
  · rw [load_park]
    have hu' : (w.targets.set i { t with cursor })[j]? = some u := hu
    by_cases hij : (Errand.checking i span).target = j
    · have heq : i = j := hij
      rw [← heq, List.getElem?_set_self (List.getElem?_eq_some_iff.mp ht).1] at hu'
      cases hu'
      rw [if_pos hij, ← heq]
      exact hi.advance hnext
    · have hne : i ≠ j := hij
      rw [List.getElem?_set_ne hne] at hu'
      rw [if_neg hij, add_zero]
      exact h.targets j u hu'
  · rcases List.mem_append.mp hp with hp | hp
    · exact h.upright p hp
    · rw [List.mem_singleton.mp hp]
      exact (hi.upward.next hnext).1

theorem Exact.retire (h : w.Exact) (htake : w.take = (w', none)) :
    w'.retire.Exact ∧ w'.retire.queue = [] := by
  obtain ⟨hserved, hqueue⟩ := h.served.retire htake
  rcases take_cases h.not_cancelled htake with ⟨-, rfl⟩ | ⟨i, t, span, cursor, queue, hsome, -⟩
  · refine ⟨⟨h.crashed_eq, fun i u hu => ?_, h.upright, hserved⟩, hqueue⟩
    obtain ⟨t, ht, rfl⟩ := exists_of_retire hu
    exact (h.targets i t ht).retire w.worker
  · cases hsome

/-- A worker notes what it was about. -/
theorem Exact.note {errand : Errand} {o : ChunkOutcome} (h : (w.park errand).Exact)
    (hamount : o.amount = errand.load) (hfailure : o.failure? = none) (hkept : o ≠ .dropped) :
    (w.note errand.target o).Exact := by
  refine ⟨h.crashed_eq, fun i u hu => ?_, fun p hp => h.upright p (List.mem_append_left _ hp),
    h.served.note (fun _ => id) fun _ _ _ => trivial⟩
  obtain ⟨t, ht, rfl⟩ := exists_of_note hu
  have hi := h.targets i t ht
  rw [load_park] at hi
  by_cases htarget : errand.target = i
  · rw [if_pos htarget, ← hamount] at hi
    rw [if_pos htarget]
    exact hi.note hfailure hkept w.worker
  · rw [if_neg htarget, add_zero] at hi
    rw [if_neg htarget]
    exact hi

/-- A worker goes on to an errand that is about as much. -/
theorem Exact.proceed {errand errand' : Errand} (h : (w.park errand).Exact)
    (htarget : errand'.target = errand.target) (hload : errand'.load = errand.load)
    (hupright : errand'.Upright) : (w.park errand').Exact := by
  refine ⟨h.crashed_eq, fun i t ht => ?_, fun p hp => ?_,
    h.served.proceed htarget (fun _ => id) fun _ _ => Or.inl trivial⟩
  · have hi := h.targets i t ht
    rw [load_park] at hi ⊢
    rwa [htarget, hload]
  · rcases List.mem_append.mp hp with hp | hp
    · exact h.upright p (List.mem_append_left _ hp)
    · rwa [List.mem_singleton.mp hp]

/-- Once all workers are gone, every target is copied in full. -/
theorem Exact.close_eq (h : w.Exact) (hothers : w.others = []) (hqueue : w.queue = [])
    (hdue : ∀ t ∈ w.targets, t.segment.Valid ∧ t.segment.isDue = true) :
    w.close = .ok (w.targets.map fun t => (t.segment.asTransferred, false)) := by
  refine mapM_eq_ok_map fun t ht => ?_
  obtain ⟨i, hi⟩ := List.mem_iff_getElem?.mp ht
  have hexact := h.targets i t hi
  have hload : w.load i = 0 := by
    rw [load, hothers]
    rfl
  rw [hload] at hexact
  have hdone : t.cursor.isDone = true := by
    rcases (h.served h.crashed_eq i t hi).served with hqueued | hdropped | hdone
    · rw [hqueue] at hqueued
      cases hqueued
    · rw [hexact.whole] at hdropped
      cases hdropped
    · exact hdone
  obtain ⟨hvalid, hdue⟩ := hdue t ht
  exact hexact.close_eq hdone hvalid hdue

end

end Workload

/-! ## How many replies are left -/

/-- A bound on the replies that the rest of the target takes: two for each chunk, and no chunk is
empty. -/
def Target.cost (t : Target) : Nat := 2 * t.cursor.left.toNat

/-- A bound on the replies that the errand takes. -/
def Errand.cost : Errand → Nat
  | .checking _ _ => 2
  | .copying _ _ _ => 1

namespace Workload

/-- A bound on the replies that the workload takes. -/
def cost (w : Workload) : Nat :=
  (w.targets.map Target.cost).sum + (w.others.map (·.2.cost)).sum

variable {w w' : Workload}

theorem cost_park (w : Workload) (errand : Errand) :
    (w.park errand).cost = w.cost + errand.cost := by
  simp [cost, park, Nat.add_assoc]

theorem cost_of_perm (htargets : w'.targets = w.targets) (hperm : w'.others.Perm w.others) :
    w'.cost = w.cost := by
  rw [cost, cost, htargets, (hperm.map _).sum_nat]

theorem cost_note (w : Workload) (i : Nat) (o : ChunkOutcome) : (w.note i o).cost = w.cost := by
  have hcosts : (w.targets.modify i (·.note w.worker o)).map Target.cost =
      w.targets.map Target.cost := by
    refine List.ext_getElem? fun j => ?_
    simp only [List.getElem?_map, List.getElem?_modify]
    cases w.targets[j]? with
    | none => rfl
    | some t => by_cases hij : i = j <;> simp [hij, Target.note, Target.cost]
  simp only [cost, note, hcosts]

theorem cost_retire (w : Workload) : w.retire.cost = w.cost := by
  simp only [cost, retire, List.map_map]
  rfl

theorem sum_cost_set {targets : List Target} {i : Nat} {t : Target} (ht : targets[i]? = some t)
    (t' : Target) :
    ((targets.set i t').map Target.cost).sum + t.cost =
      (targets.map Target.cost).sum + t'.cost := by
  induction targets generalizing i with
  | nil => cases ht
  | cons u rest ih =>
    cases i with
    | zero =>
      cases ht
      simp only [List.set_cons_zero, List.map_cons, List.sum_cons]
      omega
    | succ i =>
      have hrest := ih ht
      simp only [List.set_cons_succ, List.map_cons, List.sum_cons]
      omega

/-- The replies about a chunk are paid for by what the cursor has left less. -/
theorem Exact.cost_take_le (h : w.Exact) {i : Nat} {span : Span}
    (htake : w.take = (w', some (i, span))) : (w'.park (.checking i span)).cost ≤ w.cost := by
  rcases take_cases h.not_cancelled htake with ⟨hnone, -⟩ |
    ⟨i, t, span, cursor, queue, hsome, ht, hnext, rfl⟩
  · cases hnone
  cases hsome
  obtain ⟨-, hpos, -, hparts⟩ := (h.targets i t ht).upward.next hnext
  have hset := sum_cost_set ht { t with cursor }
  rw [cost_park]
  simp only [cost, Target.cost, Errand.cost] at hset ⊢
  omega

theorem Exact.cost_none (h : w.Exact) (htake : w.take = (w', none)) : w'.cost = w.cost := by
  rcases take_cases h.not_cancelled htake with ⟨-, rfl⟩ | ⟨i, t, span, cursor, queue, hsome, -⟩
  · rfl
  · cases hsome

end Workload

end LogRepair
