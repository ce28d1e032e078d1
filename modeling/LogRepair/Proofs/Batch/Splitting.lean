import LogRepair.Proofs.Batch.Cursor
import Mathlib.Algebra.GroupWithZero.Nat
import Mathlib.Data.List.Chain

/-!
# Spans in ranges

What the calls of a cursor give, one after another, for every span that does not end at the first
word of all, and every batch size.

* `Cursor.exists_splits`: an upward cursor divides what is left of its span into ranges.
* `Cursor.Downward.rest`: a downward cursor goes on forever.
* `Cursor.sum_length_ranges_le`: the ranges of a span have no more addresses than the span.
* `Cursor.splits_or_endless`: a cursor comes to an end exactly if its batch size is positive as a
  signed word, and then its ranges divide its span.
-/

namespace LogRepair

/-- The number of addresses of a span that is not empty, however long it is. -/
def Span.size (s : Span) : Int := s.last.toInt - s.first.toInt + 1

/-! ## Spans that are divided -/

/-- The ranges divide the span: they follow upon each other without a gap from its first to its
last address. Each has `size` addresses, except that the last may have fewer. -/
structure Splits (s : Span) (size : Int) (ranges : List Span) : Prop where
  first_eq : ranges.head?.map (·.first) = some s.first
  last_eq : ranges.getLast?.map (·.last) = some s.last
  first_le_last : ∀ r ∈ ranges, r.first ≤ r.last
  ascending : ranges.Pairwise fun r t => r.last < t.first
  adjacent : ranges.IsChain fun r t => t.first.toInt = r.last.toInt + 1
  size_le : ∀ r ∈ ranges, r.size ≤ size
  size_eq : ∀ r ∈ ranges.dropLast, r.size = size

namespace Splits

variable {s r : Span} {size : Int} {ranges : List Span}

theorem singleton (hle : s.first ≤ s.last) (hsize : s.size ≤ size) : Splits s size [s] where
  first_eq := rfl
  last_eq := rfl
  first_le_last := by simpa using hle
  ascending := List.pairwise_singleton _ _
  adjacent := List.isChain_singleton _
  size_le := by simpa using hsize
  size_eq := by simp

theorem first_le (h : Splits s size ranges) (hr : r ∈ ranges) : s.first ≤ r.first := by
  have hfirst := h.first_eq
  cases ranges with
  | nil => cases hr
  | cons t rest =>
    simp only [List.head?_cons, Option.map_some, Option.some.injEq] at hfirst
    rcases List.mem_cons.mp hr with rfl | hr
    · rw [hfirst]
      exact Int64.le_refl _
    · have hafter := (List.pairwise_cons.mp h.ascending).1 r hr
      have hle := h.first_le_last t List.mem_cons_self
      grind

/-- A full range in front of ranges that divide the rest. -/
theorem cons (h : Splits s size ranges) (hle : r.first ≤ r.last) (hsize : r.size = size)
    (hnext : s.first.toInt = r.last.toInt + 1) : Splits ⟨r.first, s.last⟩ size (r :: ranges) := by
  have hfirst := h.first_eq
  cases ranges with
  | nil => cases hfirst
  | cons t rest =>
    simp only [List.head?_cons, Option.map_some, Option.some.injEq] at hfirst
    refine ⟨rfl, h.last_eq, ?_, ?_, ?_, ?_, ?_⟩
    · exact List.forall_mem_cons.mpr ⟨hle, h.first_le_last⟩
    · refine List.pairwise_cons.mpr ⟨fun u hu => ?_, h.ascending⟩
      have hlow := h.first_le hu
      rw [Int64.le_iff_toInt_le] at hlow
      rw [Int64.lt_iff_toInt_lt]
      omega
    · exact List.isChain_cons_cons.mpr ⟨hfirst ▸ hnext, h.adjacent⟩
    · exact List.forall_mem_cons.mpr ⟨Int.le_of_eq hsize, h.size_le⟩
    · exact List.forall_mem_cons.mpr ⟨hsize, h.size_eq⟩

end Splits

namespace Cursor

/-! ## One call after another -/

section

variable {c c' : Cursor} {range : Span}

theorem rest_of_next? (h : c.next? = some (range, c')) : c.rest = c' := by
  rw [rest, h]

theorem rest_of_isDone (h : c.isDone = true) : c.rest = c := by
  rw [rest, next?_eq_none_iff.mpr h]

theorem batchSize_rest (c : Cursor) : c.rest.batchSize = c.batchSize := by
  unfold rest
  split
  · rfl
  · next hnext =>
    obtain ⟨-, -, -, -, rfl⟩ := next?_eq_some hnext
    rfl

theorem last_rest (c : Cursor) : c.rest.last = c.last := by
  unfold rest
  split
  · rfl
  · next hnext =>
    obtain ⟨-, -, -, -, rfl⟩ := next?_eq_some hnext
    rfl

theorem batchSize_afterCalls (c : Cursor) (n : Nat) :
    (c.afterCalls n).batchSize = c.batchSize := by
  induction n with
  | zero => rfl
  | succ n ih => exact (batchSize_rest _).trans ih

theorem last_afterCalls (c : Cursor) (n : Nat) : (c.afterCalls n).last = c.last := by
  induction n with
  | zero => rfl
  | succ n ih => exact (last_rest _).trans ih

theorem afterCalls_succ (c : Cursor) (n : Nat) :
    c.afterCalls (n + 1) = c.rest.afterCalls n := by
  induction n with
  | zero => rfl
  | succ n ih => exact congrArg rest ih

theorem range?_zero (h : c.next? = some (range, c')) : c.range? 0 = some range := by
  rw [range?, afterCalls, h, Option.map_some]

theorem range?_succ (c : Cursor) (n : Nat) : c.range? (n + 1) = c.rest.range? n := by
  rw [range?, afterCalls_succ, range?]

theorem range?_eq_none_iff {n : Nat} :
    c.range? n = none ↔ (c.afterCalls n).isDone = true := by
  rw [range?, Option.map_eq_none_iff, next?_eq_none_iff]

/-- An exhausted cursor stays so. -/
theorem range?_of_isDone (h : c.isDone = true) (n : Nat) : c.range? n = none := by
  rw [range?_eq_none_iff]
  induction n with
  | zero => exact h
  | succ n ih => rwa [afterCalls, rest_of_isDone ih]

end

/-! ## Upwards -/

/-- The ranges that an upward cursor gives divide what is left of its span. -/
theorem exists_splits {c : Cursor} (hstep : 0 ≤ c.batchSize.toInt64 - 1) {p : Address}
    (hp : c.position = some p) (hle : p ≤ c.last) :
    ∃ ranges, Splits ⟨p, c.last⟩ ((c.batchSize.toInt64 - 1).toInt + 1) ranges ∧
      ∀ n, c.range? n = ranges[n]? := by
  -- Every call leaves fewer addresses.
  induction hleft : (c.last.toInt - p.toInt).toNat using Nat.strongRecOn generalizing c p with
  | ind left ih =>
    have hnext := next?_of_position hp hle
    have hend := toInt_rangeEnd hle hstep
    have hbegin := le_rangeEnd hle hstep
    by_cases hdone : c.rangeEnd p = c.last
    · have hrest : c.rest.isDone = true := by
        rw [rest_of_next? hnext]
        exact isDone_after_last (congrArg after hdone)
      refine ⟨[⟨p, c.last⟩], .singleton hle ?_, fun n => ?_⟩
      · rw [Span.size]
        rw [hdone] at hend
        dsimp only
        omega
      · cases n with
        | zero => rw [range?_zero hnext, hdone, List.getElem?_cons_zero]
        | succ n => rw [range?_succ, range?_of_isDone hrest, List.getElem?_cons_succ,
            List.getElem?_nil]
    · have hlast := rangeEnd_le_last c p
      have hmore : c.rangeEnd p < c.last := by grind
      have hq : c.rest.position = some (c.rangeEnd p + 1) := by
        rw [rest_of_next? hnext]
        exact after_of_lt hmore
      have hnumber := toInt_after (after_of_lt hmore)
      rw [Int64.le_iff_toInt_le] at hbegin
      have hfull : (c.rangeEnd p).toInt = p.toInt + (c.batchSize.toInt64 - 1).toInt := by
        rw [Int64.lt_iff_toInt_lt] at hmore
        omega
      have hqle : c.rangeEnd p + 1 ≤ c.rest.last := by
        rw [last_rest]
        grind
      have hstep' : 0 ≤ c.rest.batchSize.toInt64 - 1 := by
        rw [batchSize_rest]
        exact hstep
      have hfewer : (c.rest.last.toInt - (c.rangeEnd p + 1).toInt).toNat < left := by
        rw [last_rest, ← hleft]
        rw [Int64.lt_iff_toInt_lt] at hmore
        omega
      obtain ⟨ranges, hsplits, hranges⟩ := ih _ hfewer hstep' hq hqle rfl
      rw [last_rest, batchSize_rest] at hsplits
      refine ⟨⟨p, c.rangeEnd p⟩ :: ranges, hsplits.cons (r := ⟨p, c.rangeEnd p⟩)
        (le_rangeEnd hle hstep) ?_ hnumber, fun n => ?_⟩
      · rw [Span.size]
        dsimp only
        omega
      · cases n with
        | zero => rw [range?_zero hnext, List.getElem?_cons_zero]
        | succ n => rw [range?_succ, hranges, List.getElem?_cons_succ]

/-! ## Downwards -/

/-- The cursor stands in front of the end of its span and walks downwards. -/
structure Downward (c : Cursor) : Prop where
  step_neg : c.batchSize.toInt64 - 1 < 0
  minValue_lt : Int64.minValue < c.last
  exists_position : ∃ p, c.position = some p ∧ p ≤ c.last

theorem Downward.rangeEnd_lt_last {c : Cursor} (h : c.Downward) {p : Address} (hp : p ≤ c.last) :
    c.rangeEnd p < c.last := by
  have hbottom := h.minValue_lt
  by_cases hmin : Int64.minValue < p
  · have hend := rangeEnd_lt hp hmin h.step_neg
    grind
  · -- At the first word of all the range cannot go down any more.
    have hpmin : p = Int64.minValue := by
      have hlow := Int64.minValue_le p
      grind
    have hadvance := Address.toInt_advance p (c.batchSize.toInt64 - 1)
    have hstep := h.step_neg
    have hzero : (0 : Int64).toInt = 0 := rfl
    have hfull : Address.advance p (c.batchSize.toInt64 - 1) < c.last := by
      rw [Int64.lt_iff_toInt_lt] at hbottom hstep ⊢
      rw [hpmin] at hadvance ⊢
      omega
    unfold rangeEnd
    dsimp only
    split <;> grind

theorem Downward.isDone_eq {c : Cursor} (h : c.Downward) : c.isDone = false := by
  obtain ⟨p, hp, hle⟩ := h.exists_position
  unfold isDone
  rw [hp]
  exact decide_eq_false (by grind)

theorem Downward.rest {c : Cursor} (h : c.Downward) : c.rest.Downward := by
  obtain ⟨p, hp, hle⟩ := h.exists_position
  have hend := h.rangeEnd_lt_last hle
  refine ⟨by rw [batchSize_rest]; exact h.step_neg, by rw [last_rest]; exact h.minValue_lt,
    c.rangeEnd p + 1, ?_, by rw [last_rest]; grind⟩
  rw [rest_of_next? (next?_of_position hp hle)]
  exact after_of_lt hend

theorem Downward.afterCalls {c : Cursor} (h : c.Downward) (n : Nat) :
    (c.afterCalls n).Downward := by
  induction n with
  | zero => exact h
  | succ n ih => exact ih.rest

/-! ## What the calls give together -/

theorem Upward.afterCalls {c : Cursor} (h : c.Upward) (n : Nat) : (c.afterCalls n).Upward := by
  induction n with
  | zero => exact h
  | succ n ih =>
    change (c.afterCalls n).rest.Upward
    unfold rest
    split
    · exact ih
    · next hnext => exact (ih.next hnext).2.2.1

theorem Within.afterCalls {c : Cursor} {s : Span} (h : c.Within s) (hfirst : 0 ≤ s.first)
    (n : Nat) : (c.afterCalls n).Within s := by
  induction n with
  | zero => exact h
  | succ n ih =>
    change (c.afterCalls n).rest.Within s
    unfold rest
    split
    · exact ih
    · next hnext => exact (ih.next hfirst hnext).2

/-- What an upward cursor has given in some calls, and what it has left after them, is what it had
left before. -/
theorem Upward.sum_length_ranges {c : Cursor} (h : c.Upward) (n : Nat) :
    (((List.range n).filterMap c.range?).map (·.length.toNat)).sum +
      (c.afterCalls n).left.toNat = c.left.toNat := by
  induction n with
  | zero => exact Nat.zero_add _
  | succ n ih =>
    rw [List.range_succ, List.filterMap_append, List.map_append, List.sum_append, ← ih,
      Nat.add_assoc, Nat.add_left_cancel_iff]
    cases hnext : (c.afterCalls n).next? with
    | none =>
      have hrest : c.afterCalls (n + 1) = c.afterCalls n :=
        rest_of_isDone (isDone_of_next?_eq_none hnext)
      simp [range?, hnext, hrest]
    | some call =>
      obtain ⟨range, rest⟩ := call
      have hrest : c.afterCalls (n + 1) = rest := rest_of_next? hnext
      obtain ⟨-, -, -, hparts⟩ := (h.afterCalls n).next hnext
      simpa [range?, hnext, hrest] using hparts

/-- The ranges of a span of the log have no more addresses than the span, for every batch size. -/
theorem sum_length_ranges_le {s : Span} (hfirst : 0 ≤ s.first) (size : UInt64) (n : Nat) :
    (((List.range n).filterMap (ofSpan s size).range?).map (·.length.toNat)).sum ≤
      s.length.toNat := by
  by_cases hstep : 0 ≤ (ofSpan s size).batchSize.toInt64 - 1
  · have hupward : (ofSpan s size).Upward := ⟨hstep, fun p hp => by cases hp; exact hfirst⟩
    have hparts := hupward.sum_length_ranges n
    have hleft : (ofSpan s size).left = s.length := rfl
    rw [hleft] at hparts
    omega
  · -- Downwards every range ends before it begins.
    have hwithin : (ofSpan s size).Within s :=
      ⟨rfl, fun p hp => by cases hp; exact Or.inl (Int64.le_refl _)⟩
    have hempty : ∀ r ∈ (List.range n).filterMap (ofSpan s size).range?, r.length.toNat = 0 := by
      intro r hr
      obtain ⟨k, -, hk⟩ := List.mem_filterMap.mp hr
      obtain ⟨⟨_, rest⟩, hnext, rfl⟩ := Option.map_eq_some_iff.mp hk
      obtain ⟨p, hp, hle, rfl, -⟩ := next?_eq_some hnext
      have hend := rangeEnd_lt hle ((hwithin.afterCalls hfirst k).minValue_lt hfirst hp) (by
        rw [batchSize_afterCalls]
        exact Int64.not_le.mp hstep)
      rw [Span.length, if_pos hend]
      rfl
    rw [List.map_congr_left hempty, List.map_const', List.sum_replicate_nat, Nat.mul_zero]
    exact Nat.zero_le _

/-! ## Batch sizes as signed words -/

theorem toInt64_max_one_ne_zero (size : UInt64) : (max size 1).toInt64 ≠ 0 := by
  intro hzero
  have hword : max size 1 = 0 := by
    rw [← UInt64.toUInt64_toInt64 (max size 1), hzero]
    rfl
  change (if size ≤ 1 then 1 else size) = 0 at hword
  split at hword
  · cases hword
  · next hsize =>
    rw [hword] at hsize
    exact hsize (by decide)

theorem toInt_sub_one {b : Int64} (h : b ≠ Int64.minValue) : (b - 1).toInt = b.toInt - 1 := by
  have hone : (1 : Int64).toInt = 1 := rfl
  have hlow := Int64.minValue_le b
  have hlt : Int64.minValue < b := by grind
  have hhigh := b.toInt_lt
  rw [Int64.lt_iff_toInt_lt, Int64.toInt_minValue] at hlt
  rw [Int64.toInt_sub, hone]
  exact Int.bmod_eq_of_le (by omega) (by omega)

/-- The words of a call at a position come to what the same calculation gives in integers. -/
structure Unwrapped (c : Cursor) (p : Address) : Prop where
  step_eq : (c.batchSize.toInt64 - 1).toInt = c.batchSize.toInt64.toInt - 1
  rangeEnd_eq : (c.rangeEnd p).toInt =
    min (p.toInt + (c.batchSize.toInt64.toInt - 1)) c.last.toInt
  after_iff : ∀ q, after (c.rangeEnd p) = some q ↔ q.toInt = (c.rangeEnd p).toInt + 1

theorem unwrapped {c : Cursor} {p : Address} (hsize : 0 < c.batchSize.toInt64)
    (hp : p ≤ c.last) : c.Unwrapped p := by
  have hmin : Int64.minValue < 0 := by decide
  have hstep := toInt_sub_one (b := c.batchSize.toInt64) (by grind)
  refine ⟨hstep, ?_, fun q => ⟨toInt_after, fun hq => ?_⟩⟩
  · rw [toInt_rangeEnd hp (by grind), hstep]
  · have hlt : c.rangeEnd p < q := by
      rw [Int64.lt_iff_toInt_lt]
      omega
    have hafter := after_of_lt hlt
    have hnext := toInt_after hafter
    rw [hafter, Option.some.injEq, ← Int64.toInt_inj, hnext, hq]

section

variable {s : Span} {size : UInt64} (hle : s.first ≤ s.last)

include hle

theorem exists_splits_ofSpan (hpos : 0 < (max size 1).toInt64) :
    ∃ ranges, Splits s (max size 1).toInt64.toInt ranges ∧
      ∀ n, (ofSpan s size).range? n = ranges[n]? := by
  have hmin : Int64.minValue < 0 := by decide
  have hstep := toInt_sub_one (b := (max size 1).toInt64) (by grind)
  have hsum : ((ofSpan s size).batchSize.toInt64 - 1).toInt + 1 = (max size 1).toInt64.toInt := by
    rw [ofSpan, hstep]
    omega
  rw [← hsum]
  exact exists_splits (c := ofSpan s size) (by rw [ofSpan]; grind) rfl hle

theorem downward_ofSpan (hlast : Int64.minValue < s.last)
    (hsize : (max size 1).toInt64 ≠ Int64.minValue) (hneg : (max size 1).toInt64 < 0) :
    (ofSpan s size).Downward := by
  have hmin := Int64.minValue_le (max size 1).toInt64
  refine ⟨?_, hlast, s.first, rfl, hle⟩
  rw [ofSpan]
  grind

/-- The cursor of a span, with a batch size of `b` as a signed word. It comes to an end exactly if
`b` is positive. Then its calls give ranges of `b` addresses that divide the span, it is exhausted
after the last of them and not before, and no call wraps, not even at the last word of all. If `b`
is negative, every call gives a range. -/
theorem splits_or_endless (hlast : Int64.minValue < s.last)
    (hsize : (max size 1).toInt64 ≠ Int64.minValue) :
    ((∃ n, (ofSpan s size).range? n = none) ↔ 0 < (max size 1).toInt64) ∧
    (0 < (max size 1).toInt64 →
      ∃ ranges, Splits s (max size 1).toInt64.toInt ranges ∧
        (∀ n, (ofSpan s size).range? n = ranges[n]?) ∧
        (∀ n, ((ofSpan s size).afterCalls n).isDone = true ↔ ranges.length ≤ n) ∧
        ∀ n p, ((ofSpan s size).afterCalls n).position = some p → p ≤ s.last →
          ((ofSpan s size).afterCalls n).Unwrapped p) ∧
    ((max size 1).toInt64 < 0 →
      ∀ n, ((ofSpan s size).afterCalls n).isDone = false ∧
        ∃ range, (ofSpan s size).range? n = some range) := by
  have hendless : (max size 1).toInt64 < 0 →
      ∀ n, ((ofSpan s size).afterCalls n).isDone = false := fun hneg n =>
    ((downward_ofSpan hle hlast hsize hneg).afterCalls n).isDone_eq
  refine ⟨⟨?_, fun hpos => ?_⟩, fun hpos => ?_, fun hneg n => ⟨hendless hneg n, ?_⟩⟩
  · rintro ⟨n, hn⟩
    rw [range?_eq_none_iff] at hn
    have hzero := toInt64_max_one_ne_zero size
    by_cases hneg : (max size 1).toInt64 < 0
    · rw [hendless hneg n] at hn
      cases hn
    · grind
  · obtain ⟨ranges, -, hranges⟩ := exists_splits_ofSpan hle hpos
    exact ⟨ranges.length, by rw [hranges, List.getElem?_eq_none (Nat.le_refl _)]⟩
  · obtain ⟨ranges, hsplits, hranges⟩ := exists_splits_ofSpan hle hpos
    refine ⟨ranges, hsplits, hranges, fun n => ?_, fun n p _ hp => ?_⟩
    · rw [← range?_eq_none_iff, hranges, List.getElem?_eq_none_iff]
    · exact unwrapped (by rw [batchSize_afterCalls]; exact hpos) (by rw [last_afterCalls]; exact hp)
  · rw [← Option.ne_none_iff_exists', ne_eq, range?_eq_none_iff, hendless hneg n]
    exact Bool.false_ne_true

end

example : (ofSpan ⟨Int64.maxValue - 5, Int64.maxValue⟩ 4).walk 9 =
    [(false, some ⟨Int64.maxValue - 5, Int64.maxValue - 2⟩),
      (false, some ⟨Int64.maxValue - 1, Int64.maxValue⟩), (true, none)] := by
  decide

/-- A span that ends at the last word of all is divided, and with a batch size that is read as `-1`
it never ends. -/
theorem splits_or_endless_at_maxValue :
    (∃ ranges, Splits ⟨Int64.maxValue - 5, Int64.maxValue⟩ 4 ranges ∧
      ∀ n, (ofSpan ⟨Int64.maxValue - 5, Int64.maxValue⟩ 4).range? n = ranges[n]?) ∧
    ∀ n, ((ofSpan ⟨Int64.maxValue - 5, Int64.maxValue⟩ 18446744073709551615).afterCalls n).isDone =
      false := by
  have hle : Int64.maxValue - 5 ≤ Int64.maxValue := by decide
  have hlast : Int64.minValue < Int64.maxValue := by decide
  obtain ⟨ranges, hsplits, hranges, -⟩ :=
    (@splits_or_endless ⟨_, _⟩ 4 hle hlast (by decide)).2.1 (by decide)
  have hendless :=
    (@splits_or_endless ⟨_, _⟩ 18446744073709551615 hle hlast (by decide)).2.2 (by decide)
  exact ⟨⟨ranges, hsplits, hranges⟩, fun n => (hendless n).1⟩

end Cursor

end LogRepair
