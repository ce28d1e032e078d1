import LogRepair.Guarded
import LogRepair.Proofs.Cycle.Ledger
import LogRepair.Proofs.Layout.Requirement

/-!
# Where words do not wrap

Guarded arithmetic comes to what the words come to as long as no span ends at the highest address
and no more addresses are counted than words reach.

* `Guarded.length_eq`: the length of such a span.
* `Guarded.neededSpan_eq`, `Guarded.covered_eq`: what a valid region asks above any trim mark, and
  whether it is covered.
* `Guarded.overlay_eq`: the pieces of a fresh segment, and what they add up to as they are joined.
* `Guarded.noteFor_eq`, `Guarded.ofWorkers_eq`, `Guarded.total_eq`: the tallies of a target.
-/

namespace LogRepair.Guarded

open TrackedSegment

/-! ## Sums of words -/

theorem address?_toInt (x : Address) : address? x.toInt = some x := by
  have hhigh := Int64.le_iff_toInt_le.mp (Int64.le_maxValue x)
  rw [address?, if_pos ⟨x.minValue_le_toInt, hhigh⟩, Int64.ofInt_toInt]

theorem add_eq {x y : Address} (h : (x + y).toInt = x.toInt + y.toInt) :
    add x y = some (x + y) := by
  rw [add, ← h, address?_toInt]

theorem sub_eq {x y : Address} (h : (x - y).toInt = x.toInt - y.toInt) :
    sub x y = some (x - y) := by
  rw [sub, ← h, address?_toInt]

theorem add_one {x : Address} (hx : x < Int64.maxValue) : add x 1 = some (x + 1) :=
  add_eq (Address.toInt_add_one hx)

theorem sub_one {x : Address} (hx : Int64.minValue < x) : sub x 1 = some (x - 1) := by
  refine sub_eq ?_
  have hback := Address.toInt_add_one (x := x - 1) (by grind)
  have hone : (1 : Int64).toInt = 1 := rfl
  have hsame : x - 1 + 1 = x := by grind
  rw [hsame] at hback
  omega

theorem addCounts_eq {m n : UInt64} (h : m.toNat + n.toNat < 2 ^ 64) :
    addCounts m n = some (m + n) := by
  have hsize : m.toNat + n.toNat < UInt64.size := h
  rw [addCounts, count?, if_pos hsize, UInt64.ofNat_add, UInt64.ofNat_toNat, UInt64.ofNat_toNat]

/-! ## Spans -/

section

variable {s : Span}

theorem length_eq (hfirst : 0 ≤ s.first) (hlast : s.last < Int64.maxValue) :
    length s = some s.length := by
  unfold length Span.length
  split
  · rfl
  · next hle =>
    have hzero : (0 : Int64).toInt = 0 := rfl
    rw [Int64.le_iff_toInt_le, hzero] at hfirst
    rw [Int64.lt_iff_toInt_lt, Int64.toInt_maxValue] at hlast
    rw [Int64.lt_iff_toInt_lt] at hle
    have hdistance : (s.last - s.first).toInt = s.last.toInt - s.first.toInt := by
      rw [Int64.toInt_sub]
      apply Int.bmod_eq_of_le
      · omega
      · omega
    have hnumber : s.last - s.first < Int64.maxValue := by
      rw [Int64.lt_iff_toInt_lt, hdistance, Int64.toInt_maxValue]
      omega
    rw [sub_eq hdistance, Option.bind_eq_bind, Option.bind_some, add_one hnumber]
    rfl

/-- From zero to the highest address there is one address more than the highest. -/
example : length ⟨0, Int64.maxValue⟩ = none := by decide

/-- A span that does not end at the highest address is at most half as long as words reach. -/
theorem toNat_length_lt (hfirst : 0 ≤ s.first) (hlast : s.last < Int64.maxValue) :
    s.length.toNat < 2 ^ 63 := by
  by_cases hle : s.first ≤ s.last
  · have hlength := Span.length_eq hfirst hle
    simp only [Int64.lt_iff_toInt_lt, Int64.le_iff_toInt_le, Int64.toInt_maxValue] at hfirst hlast
    have hzero : (0 : Int64).toInt = 0 := rfl
    omega
  · rw [Span.length, if_pos (Int64.not_le.mp hle)]
    decide

end

/-- The sweep steps beyond a span only if that ends before another address. -/
theorem coversFrom_eq (from_ last : Address) (spans : List Span) :
    coversFrom from_ last spans = some (Span.coversFrom from_ last spans) := by
  fun_induction Span.coversFrom from_ last spans with
  | case1 => rfl
  | case2 from_ s rest hbefore ih => rw [coversFrom, if_pos hbefore, ih]
  | case3 from_ s rest hbefore hgap => rw [coversFrom, if_neg hbefore, if_pos hgap]
  | case4 from_ s rest hbefore hgap hend =>
    rw [coversFrom, if_neg hbefore, if_neg hgap, if_pos hend]
  | case5 from_ s rest hbefore hgap hend ih =>
    have hlast : s.last < Int64.maxValue :=
      Int64.lt_of_lt_of_le (Int64.not_le.mp hend) (Int64.le_maxValue last)
    rw [coversFrom, if_neg hbefore, if_neg hgap, if_neg hend, add_one hlast, Option.bind_eq_bind,
      Option.bind_some, ih]

/-! ## What a region asks -/

section

variable {r : Region}

theorem last_eq (hr : r.Valid) : sub r.stop 1 = some r.last := by
  have hstart := hr.start_nonneg
  have hstop := hr.start_lt_stop
  exact sub_one (by grind)

/-- The beginning of what a region asks, held at the highest address. -/
theorem toInt_first_neededSpan (trimMark : Address) (r : Region) :
    (Layout.neededSpan trimMark r).first.toInt =
      min Int64.maxValue.toInt (max r.start.toInt (max 0 (trimMark.toInt + 1))) := by
  have hhigh : r.start.toInt ≤ Int64.maxValue.toInt :=
    Int64.le_iff_toInt_le.mp (Int64.le_maxValue r.start)
  have hneeded := toInt_firstAbove trimMark
  have hmax : 0 ≤ Int64.maxValue.toInt := by decide
  simp only [Layout.neededSpan, Int64.lt_iff_toInt_lt]
  split
  · omega
  · omega

/-- Nothing is asked above the highest trim mark, though there is no address after it: the
beginning that is held at the highest address lies behind the end of every region. -/
theorem neededSpan_eq (hr : r.Valid) (trimMark : Address) :
    neededSpan trimMark r = some (
      if (Layout.neededSpan trimMark r).first ≤ (Layout.neededSpan trimMark r).last then
        some (Layout.neededSpan trimMark r)
      else none) := by
  have hfirst := toInt_first_neededSpan trimMark r
  have hlast := Int64.lt_iff_toInt_lt.mp hr.last_lt_maxValue
  have hend : (Layout.neededSpan trimMark r).last = r.last := rfl
  rw [neededSpan, last_eq hr, Option.bind_eq_bind, Option.bind_some, hend]
  dsimp only
  generalize hneeded : max r.start.toInt (max 0 (trimMark.toInt + 1)) = first at hfirst ⊢
  by_cases hempty : r.last.toInt < first
  · have hnone : ¬(Layout.neededSpan trimMark r).first ≤ r.last := by
      rw [Int64.le_iff_toInt_le]
      omega
    rw [if_pos hempty, if_neg hnone]
    rfl
  · have hsome : (Layout.neededSpan trimMark r).first ≤ r.last := by
      rw [Int64.le_iff_toInt_le]
      omega
    have hword : first = (Layout.neededSpan trimMark r).first.toInt := by omega
    rw [if_neg hempty, if_pos hsome, hword, address?_toInt]
    rfl

theorem length_neededSpan (hr : r.Valid) (trimMark : Address) :
    length (Layout.neededSpan trimMark r) = some (Layout.neededSpan trimMark r).length :=
  length_eq (Layout.first_neededSpan_nonneg hr trimMark) hr.last_lt_maxValue

theorem covered_eq (hr : r.Valid) (trimMark : Address) (spans : List Span) :
    covered trimMark spans r = some (Span.covers spans (Layout.neededSpan trimMark r)) := by
  rw [covered, neededSpan_eq hr, Option.bind_eq_bind, Option.bind_some, Span.covers]
  split
  · next h =>
    split at h
    · cases h
    · next hempty =>
      rw [decide_eq_true (Int64.not_le.mp hempty)]
      rfl
  · next s h =>
    split at h
    · next hsome =>
      cases h
      rw [coversFrom_eq, decide_eq_false (Int64.not_lt.mpr hsome), Bool.false_or]
    · cases h

end

/-! ## The pieces of a fresh segment -/

/-- The segment ends at a position below the highest address, and two such counts make a word. -/
structure Fits (s : TrackedSegment) : Prop where
  first_nonneg : 0 ≤ s.first
  last_lt : s.last < Int64.maxValue
  copied_lt : s.progress.copied.toNat < 2 ^ 63

section

variable {old fresh : List TrackedSegment} {f p next : TrackedSegment}

theorem fits_of_valid (hp : p.Valid) (hlast : p.last < Int64.maxValue) : Fits p :=
  ⟨hp.first_nonneg, hlast, Nat.lt_of_le_of_lt (UInt64.le_iff_toNat_le.mp hp.copied_le)
    (toNat_length_lt hp.first_nonneg hlast)⟩

theorem fits_restate (span : Span) (hfirst : 0 ≤ span.first) (hlast : span.last < Int64.maxValue)
    (progress : Progress) (copied : UInt64) :
    Fits ⟨span, progress.restate copied span.length⟩ := by
  have hcopied := UInt64.le_iff_toNat_le.mp (progress.copied_restate_le copied span.length)
  exact ⟨hfirst, hlast, Nat.lt_of_le_of_lt hcopied (toNat_length_lt hfirst hlast)⟩

theorem Fits.restated (hp : Fits p) : Fits p.restated :=
  fits_restate p.toSpan hp.first_nonneg hp.last_lt p.progress p.progress.copied

theorem Fits.extendBy (hp : Fits p) (hnext : Fits next) : Fits (p.extendBy next) :=
  fits_restate ⟨p.first, next.last⟩ hp.first_nonneg hnext.last_lt p.progress _

theorem cut_eq (hlast : f.last < Int64.maxValue) (cursor : Address) (olds : List TrackedSegment) :
    cut f cursor olds = some (TrackedSegment.cut f cursor olds) := by
  induction olds generalizing cursor with
  | nil => rfl
  | cons o rest ih =>
    have hend : (if o.last < f.last then o.last else f.last) < Int64.maxValue := by
      split
      · next hle => exact Int64.lt_trans hle hlast
      · exact hlast
    rw [cut, TrackedSegment.cut]
    generalize (if f.first < o.first then o.first else f.first) = first
    generalize (if o.last < f.last then o.last else f.last) = last at hend ⊢
    simp only [add_one hend, ih, Option.bind_eq_bind, Option.bind_some]
    split
    · next hgap =>
      have hbegin := Int64.lt_of_le_of_lt (Int64.minValue_le cursor) hgap
      rw [sub_one hbegin]
      rfl
    · rfl

theorem restated_eq (hp : Fits p) : restated p = some p.restated := by
  rw [restated, length_eq hp.first_nonneg hp.last_lt]
  rfl

theorem extendBy_eq (hp : Fits p) (hnext : Fits next) :
    extendBy p next = some (p.extendBy next) := by
  have hcopied := hp.copied_lt
  have hadded := hnext.copied_lt
  have hlength : length ⟨p.first, next.last⟩ = _ := length_eq hp.first_nonneg hnext.last_lt
  rw [extendBy, addCounts_eq (by omega), hlength]
  rfl

theorem joinAfter_eq {rest : List TrackedSegment} (hp : Fits p) (hrest : ∀ o ∈ rest, Fits o) :
    joinAfter p rest = some (TrackedSegment.joinAfter p rest) := by
  induction rest generalizing p with
  | nil => rfl
  | cons next rest ih =>
    obtain ⟨hnext, hrest⟩ := List.forall_mem_cons.mp hrest
    rw [joinAfter, TrackedSegment.joinAfter, add_one hp.last_lt, Option.bind_eq_bind,
      Option.bind_some, continuedBy]
    split
    · rw [extendBy_eq hp hnext, Option.bind_eq_bind, Option.bind_some]
      exact ih (hp.extendBy hnext) hrest
    · rw [restated_eq hnext, Option.bind_eq_bind, Option.bind_some, ih hnext.restated hrest]
      rfl

theorem joinNeighbours_eq {pieces : List TrackedSegment} (h : ∀ p ∈ pieces, Fits p) :
    joinNeighbours pieces = some (TrackedSegment.joinNeighbours pieces) := by
  cases pieces with
  | nil => rfl
  | cons p rest =>
    obtain ⟨hp, hrest⟩ := List.forall_mem_cons.mp h
    rw [joinNeighbours, restated_eq hp, Option.bind_eq_bind, Option.bind_some]
    exact joinAfter_eq hp.restated hrest

/-- A piece lies in the fresh segment and counts what that or an old one counts. -/
theorem fits_of_mem_pieces (h : Reconcilable old fresh) (hold : ∀ o ∈ old, o.last < Int64.maxValue)
    (hf : f ∈ fresh) (hp : p ∈ pieces old f) : Fits p := by
  have hlast := h.last_lt f hf
  have hfresh := fits_of_valid (h.valid_fresh f hf) hlast
  have hbounds := (h.tiles_pieces hf).bounds hlast hp
  refine ⟨Int64.le_trans hfresh.first_nonneg hbounds.1, Int64.lt_of_le_of_lt hbounds.2.2 hlast, ?_⟩
  have hfirst : p.first ∈ p.toSpan := ⟨Int64.le_refl _, hbounds.2.1⟩
  rcases h.progress_of_mem_pieces hf hp hfirst with ⟨o, ho, -, heq⟩ | ⟨heq, -⟩
  · rw [heq]
    rcases o.progress.join_eq_or f.progress with hjoin | hjoin
    · rw [hjoin]
      exact (fits_of_valid (h.valid_old o ho) (hold o ho)).copied_lt
    · rw [hjoin]
      exact hfresh.copied_lt
  · rw [heq]
    exact hfresh.copied_lt

theorem overlay_eq (h : Reconcilable old fresh) (hold : ∀ o ∈ old, o.last < Int64.maxValue)
    (hf : f ∈ fresh) : overlay old f = some (overlaid old f) := by
  rw [overlay, cut_eq (h.last_lt f hf), Option.bind_eq_bind, Option.bind_some]
  exact joinNeighbours_eq fun p hp => fits_of_mem_pieces h hold hf hp

end

/-! ## The tallies of a target -/

theorem note_eq {t : Tally} {o : ChunkOutcome} (h : t.weight + o.weight < 2 ^ 64) :
    note t o = some (t.note o) := by
  cases o with
  | processed present result =>
    simp only [Tally.weight, ChunkOutcome.weight] at h
    rw [note, addCounts_eq (by omega), addCounts_eq (by omega)]
    rfl
  | held present =>
    simp only [Tally.weight, ChunkOutcome.weight] at h
    rw [note, addCounts_eq (by omega)]
    rfl
  | dropped => rfl

theorem noteFor_eq {worker : Nat} {o : ChunkOutcome} {ts : List (Nat × Tally)}
    (h : (ts.map (·.2.weight)).sum + o.weight < 2 ^ 64) :
    noteFor worker o ts = some (Tally.noteFor worker o ts) := by
  fun_induction Tally.noteFor worker o ts with
  | case1 =>
    have hnone : Tally.weight {} = 0 := rfl
    rw [noteFor, note_eq (by omega)]
    rfl
  | case2 t rest =>
    simp only [List.map_cons, List.sum_cons] at h
    rw [noteFor, if_pos rfl, note_eq (by omega)]
    rfl
  | case3 k t rest hk ih =>
    simp only [List.map_cons, List.sum_cons] at h
    rw [noteFor, if_neg hk, ih (by omega)]
    rfl

theorem append_eq {t u : Tally} (h : t.weight + u.weight < 2 ^ 64) :
    append t u = some (t.append u) := by
  simp only [Tally.weight] at h
  rw [append, addCounts_eq (by omega), addCounts_eq (by omega)]
  rfl

theorem appendAll_eq {t : Tally} {us : List Tally}
    (h : t.weight + (us.map Tally.weight).sum < 2 ^ 64) :
    appendAll t us = some (us.foldl Tally.append t) := by
  induction us generalizing t with
  | nil => rfl
  | cons u us ih =>
    simp only [List.map_cons, List.sum_cons] at h
    have hjoined := t.weight_append_le u
    rw [appendAll, append_eq (by omega), Option.bind_eq_bind, Option.bind_some, ih (by omega)]
    rfl

theorem ofWorkers_eq {us : List Tally} (h : (us.map Tally.weight).sum < 2 ^ 64) :
    ofWorkers us = some (Tally.ofWorkers us) := by
  have hnone : Tally.weight {} = 0 := rfl
  exact appendAll_eq (by omega)

theorem total_eq {t : Tally} (h : t.weight < 2 ^ 64) : total t = some t.total := addCounts_eq h

end LogRepair.Guarded
