import LogRepair.Cycle.Visits
import LogRepair.Proofs.Cycle.Exact
import Mathlib.Data.List.Perm.Subperm

/-!
# Chunks in their order

* `Span.mem_chunk_iff`, `Span.sum_length_chunks`: which addresses a chunk of a span has, and that
  the chunks are as long as the span.
* `Cursor.Stands.next`: a cursor hands out the next chunk of its span.
* `Plan.length_le_size`: there are no more places than chunks.
* `Workload.InTurn`: of several targets the chunks are handed out round by round, and the queue
  tells which are next.
* `Workload.InTurn.take`, `Workload.InTurn.mem_iff_of_nil`: one chunk is handed out, and at the end
  all are.
-/

namespace LogRepair

/-! ## The chunks of a span -/

namespace Span

section

variable {s : Span} (hfirst : 0 ≤ s.first) (hle : s.first ≤ s.last) {size k : Nat}

include hfirst hle

/-- The addresses of a span of positions are listed in ascending order. -/
theorem pairwise_toList : s.toList.Pairwise (· < ·) := by
  have hlength := length_eq hfirst hle
  have hlow := Int64.le_iff_toInt_le.mp hfirst
  have hzero : (0 : Int64).toInt = 0 := rfl
  have hhigh := s.last.toInt_lt
  have hoffset : ∀ i, i < s.length.toNat → (s.first + Int64.ofNat i).toInt = s.first.toInt + i := by
    intro i hi
    rw [Int64.toInt_add, Int64.toInt_ofNat_of_lt (by omega)]
    exact Int.bmod_eq_of_le (by omega) (by omega)
  rw [toList, List.pairwise_map]
  refine List.pairwise_lt_range.imp_of_mem fun {i j} hi hj hij => ?_
  rw [List.mem_range] at hi hj
  rw [Int64.lt_iff_toInt_lt, hoffset i hi, hoffset j hj]
  omega

theorem lt_chunkCount_iff (hsize : 0 < size) :
    k < s.chunkCount size ↔ s.first.toInt + k * size ≤ s.last.toInt := by
  have hlength := length_eq hfirst hle
  have hnext : (k + 1) * size = k * size + size := Nat.succ_mul k size
  have hcast : ((k * size : Nat) : Int) = k * size := Nat.cast_mul k size
  rw [chunkCount, Nat.lt_iff_add_one_le, Nat.le_div_iff_mul_le hsize]
  omega

/-- Where a chunk begins and ends. -/
theorem toInt_chunk (hsize : 0 < size) (hk : k < s.chunkCount size) :
    (s.chunk size k).first.toInt = s.first.toInt + k * size ∧
      (s.chunk size k).last.toInt = min (s.first.toInt + k * size + size - 1) s.last.toInt := by
  have hbegin := (lt_chunkCount_iff hfirst hle hsize).mp hk
  have hlow := Int64.le_iff_toInt_le.mp hfirst
  have hzero : (0 : Int64).toInt = 0 := rfl
  have hmax := s.last.toInt_lt
  have hoffset : (0 : Int) ≤ k * size := Int.natCast_nonneg (k * size)
  constructor
  · exact Int64.toInt_ofInt_of_le (by omega) (by omega)
  · exact Int64.toInt_ofInt_of_le (by omega) (by omega)

/-- Where a chunk reaches. -/
theorem mem_chunk_iff (hsize : 0 < size) (hk : k < s.chunkCount size) {x : Address} :
    x ∈ s.chunk size k ↔ x ∈ s ∧ s.first.toInt + k * size ≤ x.toInt ∧
      x.toInt < s.first.toInt + (k + 1) * size := by
  obtain ⟨hf, hl⟩ := toInt_chunk hfirst hle hsize hk
  have hnext : ((k : Int) + 1) * size = k * size + size := by rw [Int.add_mul, one_mul]
  have hoffset : (0 : Int) ≤ k * size := Int.natCast_nonneg (k * size)
  simp only [mem_iff, Int64.le_iff_toInt_le]
  omega

theorem chunk_bounds (hsize : 0 < size) (hk : k < s.chunkCount size) :
    0 ≤ (s.chunk size k).first ∧ (s.chunk size k).first ≤ (s.chunk size k).last := by
  have hbegin := (lt_chunkCount_iff hfirst hle hsize).mp hk
  obtain ⟨hf, hl⟩ := toInt_chunk hfirst hle hsize hk
  have hlow := Int64.le_iff_toInt_le.mp hfirst
  have hzero : (0 : Int64).toInt = 0 := rfl
  have hoffset : (0 : Int) ≤ k * size := Int.natCast_nonneg (k * size)
  rw [Int64.le_iff_toInt_le, Int64.le_iff_toInt_le]
  omega

/-- The first chunks reach as far as their number says, and not beyond the span. -/
theorem sum_length_chunk (hsize : 0 < size) (hk : k ≤ s.chunkCount size) :
    ((List.range k).map fun n => (s.chunk size n).length.toNat).sum =
      min (k * size) s.length.toNat := by
  induction k with
  | zero => simp
  | succ k ih =>
    have hlast : k < s.chunkCount size := hk
    have hbegin := (lt_chunkCount_iff hfirst hle hsize).mp hlast
    obtain ⟨hf, hl⟩ := toInt_chunk hfirst hle hsize hlast
    obtain ⟨hf', hl'⟩ := chunk_bounds hfirst hle hsize hlast
    have hlength := length_eq hfirst hle
    have hchunk := length_eq hf' hl'
    have hnext : (k + 1) * size = k * size + size := Nat.succ_mul k size
    have hcast : ((k * size : Nat) : Int) = k * size := Nat.cast_mul k size
    rw [List.range_succ, List.map_append, List.sum_append, ih (Nat.le_of_succ_le hk)]
    simp only [List.map_cons, List.map_nil, List.sum_cons, List.sum_nil]
    omega

/-- The chunks are as long as the span. -/
theorem sum_length_chunks (hsize : 0 < size) :
    ((List.range (s.chunkCount size)).map fun n => (s.chunk size n).length.toNat).sum =
      s.length.toNat := by
  rw [sum_length_chunk hfirst hle hsize (Nat.le_refl _)]
  have hend := mt (lt_chunkCount_iff hfirst hle hsize (k := s.chunkCount size)).mpr
    (Nat.lt_irrefl _)
  have hlength := length_eq hfirst hle
  have hcast : ((s.chunkCount size * size : Nat) : Int) = s.chunkCount size * size :=
    Nat.cast_mul _ size
  omega

end

end Span

/-! ## What a cursor hands out -/

namespace Cursor

/-- The cursor has handed out the first `n` chunks of a span, and no more. -/
structure Stands (c : Cursor) (s : Span) (size n : Nat) : Prop where
  last_eq : c.last = s.last
  batchSize_eq : c.batchSize.toNat = size
  position : n < s.chunkCount size →
    ∃ p, c.position = some p ∧ p.toInt = s.first.toInt + n * size
  isDone : s.chunkCount size ≤ n → c.isDone = true

theorem stands_ofSpan {s : Span} {batchSize : UInt64} (hpos : 0 < batchSize.toNat)
    (hcount : 0 < s.chunkCount batchSize.toNat) :
    (ofSpan s batchSize).Stands s batchSize.toNat 0 :=
  ⟨rfl, congrArg UInt64.toNat (batchSize_ofSpan s hpos), fun _ => ⟨s.first, rfl, by omega⟩,
    fun hdone => by omega⟩

section

variable {s : Span} (hfirst : 0 ≤ s.first) (hle : s.first ≤ s.last) {c : Cursor} {size n : Nat}

include hfirst hle

theorem Stands.isDone_iff (h : c.Stands s size n) (hsize : 0 < size) :
    c.isDone = true ↔ s.chunkCount size ≤ n := by
  refine ⟨fun hdone => Nat.not_lt.mp fun hn => ?_, h.isDone⟩
  obtain ⟨p, hp, hpos⟩ := h.position hn
  have hbegin := (Span.lt_chunkCount_iff hfirst hle hsize).mp hn
  simp only [Cursor.isDone, hp, decide_eq_true_eq] at hdone
  rw [h.last_eq, Int64.lt_iff_toInt_lt] at hdone
  omega

/-- The cursor hands out the next chunk, if there is one. -/
theorem Stands.next (h : c.Stands s size n) (hsize : 0 < size) (hsmall : size < 2 ^ 63)
    (hn : n < s.chunkCount size) :
    ∃ c', c.next? = some (s.chunk size n, c') ∧ c'.Stands s size (n + 1) := by
  obtain ⟨p, hp, hpos⟩ := h.position hn
  have hbegin := (Span.lt_chunkCount_iff hfirst hle hsize).mp hn
  have hmore := Span.lt_chunkCount_iff hfirst hle hsize (k := n + 1)
  have hnext : ((n + 1 : Nat) : Int) * size = n * size + size := by
    rw [Nat.cast_succ, Int.add_mul, one_mul]
  obtain ⟨hf, hl⟩ := Span.toInt_chunk hfirst hle hsize hn
  have hlast : p ≤ c.last := by
    rw [h.last_eq, Int64.le_iff_toInt_le]
    omega
  have hstep := toInt_step (h.batchSize_eq ▸ hsize) (h.batchSize_eq ▸ hsmall)
  have hzero : (0 : Int64).toInt = 0 := rfl
  rw [h.batchSize_eq] at hstep
  have hend := toInt_rangeEnd hlast (by rw [Int64.le_iff_toInt_le]; omega)
  rw [hstep, h.last_eq, ← Int.add_sub_assoc] at hend
  have hchunk : s.chunk size n = ⟨p, c.rangeEnd p⟩ := by
    have hstart : (s.chunk size n).first = p := Int64.toInt_inj.mp (hf.trans hpos.symm)
    have hstop : (s.chunk size n).last = c.rangeEnd p := by
      rw [← Int64.toInt_inj, hend, hl, hpos]
    exact congrArg₂ Span.mk hstart hstop
  refine ⟨{ c with position := after (c.rangeEnd p) }, ?_, h.last_eq, h.batchSize_eq,
    fun hk => ?_, fun hk => ?_⟩
  · rw [hchunk]
    exact next?_of_position hp hlast
  · have hinside := hmore.mp hk
    have hafter := after_of_lt (x := c.rangeEnd p) (y := s.last) (by
      rw [Int64.lt_iff_toInt_lt]
      omega)
    refine ⟨c.rangeEnd p + 1, hafter, ?_⟩
    rw [toInt_after hafter]
    omega
  · have houtside := mt hmore.mpr (Nat.not_lt.mpr hk)
    have hthrough : c.rangeEnd p = c.last := by
      rw [← Int64.toInt_inj, h.last_eq]
      omega
    exact isDone_after_last (congrArg after hthrough)

end

end Cursor

/-! ## The order of all chunks -/

namespace Place

theorem Before.irrefl (p : Place) : ¬p.Before p := by
  unfold Before
  omega

theorem Before.trans {p q r : Place} (h : p.Before q) (h' : q.Before r) : p.Before r := by
  unfold Before at *
  omega

theorem before_succ (n i : Nat) : Before ⟨n, i⟩ ⟨n + 1, i⟩ := Or.inl (Nat.lt_succ_self n)

/-- Each place has the same order as the next of its target. -/
theorem Before.succ {n m i j : Nat} (h : Before ⟨n, i⟩ ⟨m, j⟩) :
    Before ⟨n + 1, i⟩ ⟨m + 1, j⟩ :=
  h.imp Nat.succ_lt_succ (And.imp (congrArg Nat.succ) id)

end Place

namespace Plan

variable {plan : Plan} {i : Nat}

theorem chunkCount_eq {s : TrackedSegment} (h : plan.segments[i]? = some s) :
    plan.chunkCount i = s.toSpan.chunkCount plan.batchSize := by
  rw [chunkCount, h]
  rfl

theorem exists_of_lt_chunkCount {n : Nat} (h : n < plan.chunkCount i) :
    ∃ s, plan.segments[i]? = some s := by
  unfold chunkCount at h
  cases hi : plan.segments[i]? with
  | none =>
    rw [hi] at h
    cases h
  | some s => exact ⟨s, rfl⟩

/-- There are no more places than chunks. -/
theorem length_le_size (plan : Plan) {places : List Place} (hsorted : places.Pairwise Place.Before)
    (hmem : ∀ p ∈ places, p.round < plan.chunkCount p.target) : places.length ≤ plan.size := by
  have hnodup : places.Nodup := hsorted.imp fun hbefore heq => by
    rw [heq] at hbefore
    exact Place.Before.irrefl _ hbefore
  have hsubset : places ⊆ (List.range plan.segments.length).flatMap fun i =>
      (List.range (plan.chunkCount i)).map (Place.mk · i) := by
    intro p hp
    have hround := hmem p hp
    obtain ⟨s, hs⟩ := exists_of_lt_chunkCount hround
    have htarget := (List.getElem?_eq_some_iff.mp hs).1
    exact List.mem_flatMap.mpr ⟨p.target, List.mem_range.mpr htarget,
      List.mem_map.mpr ⟨p.round, List.mem_range.mpr hround, rfl⟩⟩
  refine Nat.le_trans (hnodup.subperm hsubset).length_le (Nat.le_of_eq ?_)
  have hcounts : (List.range plan.segments.length).map plan.chunkCount =
      plan.segments.map (·.toSpan.chunkCount plan.batchSize) := by
    refine List.ext_getElem (by simp) fun i hi hi' => ?_
    rw [List.length_map] at hi'
    rw [List.getElem_map, List.getElem_map, List.getElem_range]
    exact chunkCount_eq (List.getElem?_eq_getElem hi')
  rw [List.length_flatMap, size, ← hcounts]
  simp

end Plan

namespace Workload

/-- The next place of a target after those that were handed out. -/
def upNext (handed : List Place) (i : Nat) : Place := ⟨handed.countP (·.target = i), i⟩

/-- The places are handed out in turn: in their order, none is left out, and the queue has the
targets that have more, in the order of their next places. No target is a round ahead of another. -/
structure InTurn (count : Nat → Nat) (handed : List Place) (queue : List Nat) : Prop where
  sorted : handed.Pairwise Place.Before
  rounds : ∀ i, (handed.filter (·.target = i)).map (·.round) = List.range (upNext handed i).round
  le_count : ∀ i, (upNext handed i).round ≤ count i
  mem_queue : ∀ i, i ∈ queue ↔ (upNext handed i).round < count i
  ahead : ∀ p ∈ handed, ∀ i ∈ queue, p.Before (upNext handed i)
  queue_sorted : queue.Pairwise fun i j => (upNext handed i).Before (upNext handed j)
  spread : ∀ i ∈ queue, ∀ j ∈ queue,
    (upNext handed i).Before ⟨(upNext handed j).round + 1, j⟩

theorem upNext_append (handed : List Place) (i : Nat) :
    upNext (handed ++ [upNext handed i]) i = ⟨(upNext handed i).round + 1, i⟩ := by
  simp [upNext]

theorem upNext_append_of_ne (handed : List Place) {i j : Nat} (h : i ≠ j) :
    upNext (handed ++ [upNext handed i]) j = upNext handed j := by
  simp [upNext, h]

section

variable {count : Nat → Nat} {handed : List Place} {queue rest : List Nat} {i : Nat}

theorem inTurn_nil {n : Nat} (h : ∀ i, i < n ↔ 0 < count i) :
    InTurn count [] (List.range n) := by
  refine ⟨.nil, fun i => rfl, fun i => Nat.zero_le _, fun i => ?_, fun p hp => ?_, ?_, ?_⟩
  · rw [List.mem_range, h]
    rfl
  · cases hp
  · exact List.pairwise_lt_range.imp fun hij => Or.inr ⟨rfl, hij⟩
  · exact fun i _ j _ => Or.inl Nat.zero_lt_one

theorem InTurn.mem_handed_iff (h : InTurn count handed queue) (p : Place) :
    p ∈ handed ↔ p.round < (upNext handed p.target).round := by
  rw [← List.mem_range, ← h.rounds, List.mem_map]
  constructor
  · intro hp
    exact ⟨p, List.mem_filter.mpr ⟨hp, decide_eq_true rfl⟩, rfl⟩
  · rintro ⟨q, hq, hround⟩
    obtain ⟨hq, htarget⟩ := List.mem_filter.mp hq
    have heq : q = p := by
      cases q
      cases p
      simp_all
    rwa [← heq]

section

variable (h : InTurn count handed (i :: rest)) {j k : Nat}

include h

theorem InTurn.ne_of_mem (hj : j ∈ rest) : i ≠ j := by
  rintro rfl
  exact Place.Before.irrefl _ ((List.pairwise_cons.mp h.queue_sorted).1 i hj)

/-- Who waits behind the head does so for the same place as before. -/
theorem InTurn.upNext_taken (hj : j ∈ rest) :
    upNext (handed ++ [upNext handed i]) j = upNext handed j :=
  upNext_append_of_ne handed (h.ne_of_mem hj)

theorem InTurn.rounds_taken (j : Nat) :
    ((handed ++ [upNext handed i]).filter (·.target = j)).map (·.round) =
      List.range (upNext (handed ++ [upNext handed i]) j).round := by
  rw [List.filter_append, List.map_append, h.rounds]
  by_cases hij : i = j
  · rw [← hij, upNext_append, List.range_succ]
    simp [upNext]
  · rw [upNext_append_of_ne handed hij]
    simp [upNext, hij]

/-- Who waits behind the head has its turn before the head has its next. -/
theorem InTurn.before_taken (hj : j ∈ rest) :
    (upNext (handed ++ [upNext handed i]) j).Before (upNext (handed ++ [upNext handed i]) i) := by
  rw [upNext_append, h.upNext_taken hj]
  exact h.spread j (List.mem_cons_of_mem i hj) i List.mem_cons_self

theorem InTurn.ahead_taken {p : Place} (hp : p ∈ handed ++ [upNext handed i])
    (hj : j ∈ i :: rest) : p.Before (upNext (handed ++ [upNext handed i]) j) := by
  have hp' := List.mem_append.mp hp
  rw [List.mem_singleton] at hp'
  rcases List.mem_cons.mp hj with rfl | hj'
  · rw [upNext_append]
    rcases hp' with hp' | rfl
    · exact (h.ahead p hp' j hj).trans (Place.before_succ _ j)
    · exact Place.before_succ _ j
  · rw [h.upNext_taken hj']
    rcases hp' with hp' | rfl
    · exact h.ahead p hp' j hj
    · exact (List.pairwise_cons.mp h.queue_sorted).1 j hj'

theorem InTurn.spread_taken (hj : j ∈ i :: rest) (hk : k ∈ i :: rest) :
    (upNext (handed ++ [upNext handed i]) j).Before
      ⟨(upNext (handed ++ [upNext handed i]) k).round + 1, k⟩ := by
  rcases List.mem_cons.mp hj with rfl | hj' <;> rcases List.mem_cons.mp hk with rfl | hk'
  · exact Place.before_succ _ _
  · rw [upNext_append, h.upNext_taken hk']
    exact ((List.pairwise_cons.mp h.queue_sorted).1 k hk').succ
  · exact (h.before_taken hj').trans (Place.before_succ _ _)
  · rw [h.upNext_taken hj', h.upNext_taken hk']
    exact h.spread j hj k hk

/-- The place at the head of the queue is handed out, and its target goes to the end if it has
more. -/
theorem InTurn.take {done : Bool} (hdone : done = true ↔ count i ≤ (upNext handed i).round + 1) :
    InTurn count (handed ++ [upNext handed i]) (if done then rest else rest ++ [i]) := by
  have hcount := (h.mem_queue i).mp List.mem_cons_self
  have hrest : rest.Pairwise fun j k => (upNext (handed ++ [upNext handed i]) j).Before
      (upNext (handed ++ [upNext handed i]) k) :=
    (List.pairwise_cons.mp h.queue_sorted).2.imp_of_mem fun hj hk hjk => by
      rwa [h.upNext_taken hj, h.upNext_taken hk]
  have hmem : ∀ j, j ∈ (if done then rest else rest ++ [i]) ↔
      j ∈ rest ∨ j = i ∧ (upNext handed i).round + 1 < count i := by
    intro j
    rw [← Nat.not_le, ← hdone]
    cases done <;> simp
  have hwaited : ∀ {j}, j ∈ (if done then rest else rest ++ [i]) → j ∈ i :: rest := fun hj =>
    List.mem_cons.mpr (((hmem _).mp hj).symm.imp_left And.left)
  refine ⟨?_, h.rounds_taken, fun j => ?_, fun j => ?_,
    fun p hp j hj => h.ahead_taken hp (hwaited hj), ?_,
    fun j hj k hk => h.spread_taken (hwaited hj) (hwaited hk)⟩
  · refine List.pairwise_append.mpr ⟨h.sorted, List.pairwise_singleton _ _, fun p hp q hq => ?_⟩
    rw [List.mem_singleton.mp hq]
    exact h.ahead p hp i List.mem_cons_self
  · by_cases hij : i = j
    · rw [← hij, upNext_append]
      exact hcount
    · rw [upNext_append_of_ne handed hij]
      exact h.le_count j
  · rw [hmem]
    by_cases hij : i = j
    · rw [← hij, upNext_append]
      exact ⟨fun hi => hi.elim (fun hi => absurd rfl (h.ne_of_mem hi)) And.right,
        fun hi => Or.inr ⟨rfl, hi⟩⟩
    · rw [upNext_append_of_ne handed hij, ← h.mem_queue, List.mem_cons]
      grind
  · split
    · exact hrest
    · refine List.pairwise_append.mpr ⟨hrest, List.pairwise_singleton _ _, fun j hj k hk => ?_⟩
      rw [List.mem_singleton.mp hk]
      exact h.before_taken hj

end

/-- Once the queue is empty, every place was handed out. -/
theorem InTurn.mem_iff_of_nil (h : InTurn count handed []) (p : Place) :
    p ∈ handed ↔ p.round < count p.target := by
  have hle := h.le_count p.target
  have hmem := h.mem_queue p.target
  rw [h.mem_handed_iff]
  simp only [List.not_mem_nil, false_iff, Nat.not_lt] at hmem
  rw [Nat.le_antisymm hle hmem]

end

end Workload

end LogRepair
