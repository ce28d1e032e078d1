import LogRepair.Address
import Mathlib.Algebra.Group.Nat.Defs

/-!
# Trim marks and spans

* `firstAbove_le_iff`: the addresses that matter above a trim mark.
* `Span.exists_mem_of_covers`: a span that is covered has each of its addresses in one of the
  covering spans.
* `Span.covers_iff`: spans in the order of their beginnings cover one exactly if they miss none of
  its addresses.
* `Span.mem_toList`: the list of a span of positions misses none of its addresses.
* `Span.mem_of_mem_toList`, `Span.nodup_toList`: the list of any span has no other address, and
  none twice.
-/

namespace LogRepair

/-! ## Trim marks -/

theorem Address.toInt_advance (x : Address) (d : Int64) :
    (Address.advance x d).toInt =
      max Int64.minValue.toInt (min Int64.maxValue.toInt (x.toInt + d.toInt)) := by
  have hle : Int64.minValue.toInt ≤ Int64.maxValue.toInt := by decide
  unfold Address.advance Int64.ofIntClamp
  split
  · split
    · rw [Int64.toInt_ofIntLE]
      omega
    · omega
  · omega

/-- Only the highest word has none after it. -/
theorem Address.toInt_add_one {x : Address} (hx : x < Int64.maxValue) :
    (x + 1).toInt = x.toInt + 1 := by
  have hlow := x.minValue_le_toInt
  rw [Int64.lt_iff_toInt_lt] at hx
  have hone : (1 : Int64).toInt = 1 := rfl
  rw [Int64.toInt_add, hone]
  apply Int.bmod_eq_of_le
  all_goals
    simp only [Int64.toInt_minValue, Int64.toInt_maxValue] at hx hlow
    omega

theorem Address.advance_one {x : Address} (hx : x < Int64.maxValue) :
    Address.advance x 1 = x + 1 := by
  have hlow := x.minValue_le_toInt
  have hone : (1 : Int64).toInt = 1 := rfl
  have hsum := Address.toInt_add_one hx
  rw [Int64.lt_iff_toInt_lt] at hx
  rw [← Int64.toInt_inj, Address.toInt_advance, hone, hsum]
  omega

theorem firstAbove_nonneg (trimMark : Address) : 0 ≤ firstAbove trimMark := by
  unfold firstAbove
  dsimp only
  split <;> grind

/-- The first address that matters is held at the ends of the positions. -/
theorem toInt_firstAbove (trimMark : Address) :
    (firstAbove trimMark).toInt = min Int64.maxValue.toInt (max 0 (trimMark.toInt + 1)) := by
  have hlow := trimMark.minValue_le_toInt
  have hone : (1 : Int64).toInt = 1 := rfl
  have hzero : (0 : Int64).toInt = 0 := rfl
  have hmin : Int64.minValue.toInt ≤ 0 := by decide
  have hmax : 0 ≤ Int64.maxValue.toInt := by decide
  have hnext := Address.toInt_advance trimMark 1
  rw [hone] at hnext
  unfold firstAbove
  dsimp only
  split
  · next hbelow =>
    rw [Int64.lt_iff_toInt_lt, hzero] at hbelow
    rw [hzero]
    omega
  · next hbelow =>
    rw [Int64.lt_iff_toInt_lt, hzero] at hbelow
    omega

theorem firstAbove_le_iff {trimMark x : Address} (hx : x < Int64.maxValue) :
    firstAbove trimMark ≤ x ↔ 0 ≤ x ∧ trimMark < x := by
  unfold firstAbove
  dsimp only
  by_cases ht : trimMark < Int64.maxValue
  · rw [Address.advance_one ht]
    split <;> grind
  · have hadv : Int64.maxValue ≤ Address.advance trimMark 1 := by
      have hone : (1 : Int64).toInt = 1 := rfl
      rw [Int64.lt_iff_toInt_lt] at ht
      rw [Int64.le_iff_toInt_le, Address.toInt_advance, hone]
      omega
    split <;> grind

/-! ## Covered spans -/

namespace Span

theorem exists_mem_of_coversFrom {spans : List Span} {first last : Address}
    (h : coversFrom first last spans = true) {x : Address} (hfirst : first ≤ x)
    (hlast : x ≤ last) : ∃ s ∈ spans, x ∈ s := by
  fun_induction coversFrom first last spans with
  | case1 => simp at h
  | case2 from_ s rest _ ih =>
    obtain ⟨t, ht, hxt⟩ := ih h hfirst
    exact ⟨t, List.mem_cons_of_mem _ ht, hxt⟩
  | case3 => simp at h
  | case4 from_ s rest _ hstart hend =>
    exact ⟨s, List.mem_cons_self, by rw [mem_iff]; grind⟩
  | case5 from_ s rest _ hstart hend ih =>
    by_cases hx : x ≤ s.last
    · exact ⟨s, List.mem_cons_self, by rw [mem_iff]; grind⟩
    · obtain ⟨t, ht, hxt⟩ := ih h (by grind)
      exact ⟨t, List.mem_cons_of_mem _ ht, hxt⟩

theorem exists_mem_of_covers {spans : List Span} {target : Span}
    (h : covers spans target = true) {x : Address} (hx : x ∈ target) : ∃ s ∈ spans, x ∈ s := by
  rw [mem_iff] at hx
  simp only [covers, Bool.or_eq_true, decide_eq_true_eq] at h
  rcases h with hempty | hfrom
  · exact absurd hempty (by grind)
  · exact exists_mem_of_coversFrom hfrom hx.1 hx.2

/-- Spans in the order of their beginnings that miss none of the addresses in between leave no gap,
however they overlap. -/
theorem coversFrom_of_forall_mem {spans : List Span}
    (hsorted : spans.Pairwise fun s t => s.first ≤ t.first) {first last : Address}
    (hle : first ≤ last) (h : ∀ x, first ≤ x → x ≤ last → ∃ s ∈ spans, x ∈ s) :
    coversFrom first last spans = true := by
  fun_induction coversFrom first last spans with
  | case1 from_ =>
    obtain ⟨s, hs, -⟩ := h from_ (Int64.le_refl _) hle
    cases hs
  | case2 from_ s rest hbefore ih =>
    obtain ⟨-, hrest⟩ := List.pairwise_cons.mp hsorted
    refine ih hrest hle fun x hfirst hlast => ?_
    obtain ⟨t, ht, hx⟩ := h x hfirst hlast
    rcases List.mem_cons.mp ht with rfl | ht
    · rw [mem_iff] at hx
      grind
    · exact ⟨t, ht, hx⟩
  | case3 from_ s rest hreached hstart =>
    -- No later span begins before this one.
    obtain ⟨t, ht, hx⟩ := h from_ (Int64.le_refl _) hle
    rw [mem_iff] at hx
    rcases List.mem_cons.mp ht with rfl | ht
    · grind
    · have hlater := (List.pairwise_cons.mp hsorted).1 t ht
      grind
  | case4 => rfl
  | case5 from_ s rest hreached hstart hend ih =>
    obtain ⟨-, hrest⟩ := List.pairwise_cons.mp hsorted
    refine ih hrest (by grind) fun x hfirst hlast => ?_
    obtain ⟨t, ht, hx⟩ := h x (by grind) hlast
    rcases List.mem_cons.mp ht with rfl | ht
    · rw [mem_iff] at hx
      grind
    · exact ⟨t, ht, hx⟩

/-- The sweep over spans in the order of their beginnings finds a gap exactly if there is one. -/
theorem covers_iff {spans : List Span} (hsorted : spans.Pairwise fun s t => s.first ≤ t.first)
    {target : Span} : covers spans target = true ↔ ∀ x ∈ target, ∃ s ∈ spans, x ∈ s := by
  refine ⟨fun h x hx => exists_mem_of_covers h hx, fun h => ?_⟩
  unfold covers
  by_cases hempty : target.last < target.first
  · simp [hempty]
  · have hfrom := coversFrom_of_forall_mem hsorted (Int64.not_lt.mp hempty)
      fun x hfirst hlast => h x ⟨hfirst, hlast⟩
    simp [hfrom]

theorem pairwise_mergeSort_le (spans : List Span) :
    (spans.mergeSort le).Pairwise fun s t => s.first ≤ t.first := by
  have hsorted : (spans.mergeSort le).Pairwise fun s t => le s t = true := by
    apply List.pairwise_mergeSort
    · intro s t u hst htu
      simp only [le, Bool.or_eq_true, Bool.and_eq_true, decide_eq_true_eq, beq_iff_eq] at hst htu ⊢
      grind
    · intro s t
      simp only [le, Bool.or_eq_true, Bool.and_eq_true, decide_eq_true_eq, beq_iff_eq]
      grind
  refine hsorted.imp fun {s t} hle => ?_
  simp only [le, Bool.or_eq_true, Bool.and_eq_true, decide_eq_true_eq, beq_iff_eq] at hle
  grind

/-! ## The addresses of a span -/

/-- A span of positions is at most half as long as the words reach, so its length does not wrap. -/
theorem toNat_length {s : Span} (hfirst : 0 ≤ s.first) (hle : s.first ≤ s.last) :
    s.length.toNat = s.last.toNatClampNeg - s.first.toNatClampNeg + 1 := by
  have hne : ¬s.last < s.first := by grind
  have hlast := s.last.toNatClampNeg_lt
  have hone : (1 : Int64).toUInt64.toNat = 1 := rfl
  have hdistance : (s.last - s.first).toUInt64.toNat =
      s.last.toNatClampNeg - s.first.toNatClampNeg := by
    rw [Int64.toNat_toUInt64_of_le (by grind), Int64.toNatClampNeg_sub_of_le hfirst hle]
  rw [length, if_neg hne, Int64.toUInt64_add, UInt64.toNat_add, hdistance, hone]
  omega

theorem length_eq {s : Span} (hfirst : 0 ≤ s.first) (hle : s.first ≤ s.last) :
    (s.length.toNat : Int) = s.last.toInt - s.first.toInt + 1 := by
  have hlow := Int64.le_iff_toInt_le.mp hfirst
  have hhigh := Int64.le_iff_toInt_le.mp hle
  have hzero : (0 : Int64).toInt = 0 := rfl
  rw [toNat_length hfirst hle]
  simp only [Int64.toNatClampNeg]
  omega

/-- The parts of a span are as long as the span. -/
theorem toNat_length_add {first mid last : Address} (hfirst : 0 ≤ first) (hmid : first ≤ mid)
    (hlast : mid < last) :
    (⟨first, mid⟩ : Span).length.toNat + (⟨mid + 1, last⟩ : Span).length.toNat =
      (⟨first, last⟩ : Span).length.toNat := by
  have hle : mid + 1 ≤ last := by grind
  have hnext : (mid + 1).toNatClampNeg = mid.toNatClampNeg + 1 := by
    have hone : (1 : Int64).toNatClampNeg = 1 := rfl
    have hback : mid + 1 - 1 = mid := by grind
    have hlow : (1 : Int64).toNatClampNeg ≤ (mid + 1).toNatClampNeg :=
      Int64.toNatClampNeg_le (by grind)
    have hsub := Int64.toNatClampNeg_sub_of_le (a := mid + 1) (b := 1) (by decide) (by grind)
    rw [hback, hone] at hsub
    omega
  have hbelow := Int64.toNatClampNeg_le hmid
  have habove := Int64.toNatClampNeg_le hle
  rw [toNat_length (s := ⟨first, mid⟩) hfirst hmid,
    toNat_length (s := ⟨mid + 1, last⟩) (by grind) hle,
    toNat_length (s := ⟨first, last⟩) hfirst (by grind)]
  dsimp only
  omega

theorem mem_toList {s : Span} (hfirst : 0 ≤ s.first) {x : Address} (hx : x ∈ s) :
    x ∈ s.toList := by
  obtain ⟨hlow, hhigh⟩ := hx
  refine List.mem_map.mpr ⟨(x - s.first).toNatClampNeg, List.mem_range.mpr ?_, ?_⟩
  · have hmono := Int64.toNatClampNeg_le hhigh
    rw [toNat_length hfirst (Int64.le_trans hlow hhigh), Int64.toNatClampNeg_sub_of_le hfirst hlow]
    omega
  · rw [Int64.ofNat_toNatClampNeg _ (by grind)]
    grind

/-- A word read with its sign and without. -/
theorem toInt_eq (x : Address) :
    x.toInt = if 2 * x.toUInt64.toNat < 2 ^ 64 then (x.toUInt64.toNat : Int)
      else x.toUInt64.toNat - (2 ^ 64 : Nat) := by
  rw [← Int64.toInt_toBitVec, BitVec.toInt_eq_toNat_cond, Int64.toNat_toBitVec]

theorem toNat_offset (x : Address) (i : Nat) :
    (x + Int64.ofNat i).toUInt64.toNat = (x.toUInt64.toNat + i) % 2 ^ 64 := by
  rw [Int64.toUInt64_add, UInt64.toNat_add, Int64.toUInt64_ofNat', UInt64.toNat_ofNat']
  omega

theorem mem_of_mem_toList {s : Span} {x : Address} (hx : x ∈ s.toList) : x ∈ s := by
  obtain ⟨i, hi, rfl⟩ := List.mem_map.mp hx
  rw [List.mem_range, length] at hi
  split at hi
  · cases hi
  · next hle =>
    -- Without their signs the words leave it to arithmetic that the sum stays below the end.
    have hone : (1 : Int64).toUInt64.toNat = 1 := rfl
    have hfirst := toInt_eq s.first
    have hlast := toInt_eq s.last
    have hx := toInt_eq (s.first + Int64.ofNat i)
    have hfirst' := s.first.toUInt64.toNat_lt
    have hlast' := s.last.toUInt64.toNat_lt
    rw [toNat_offset] at hx
    rw [Int64.toUInt64_add, UInt64.toNat_add, Int64.toUInt64_sub, UInt64.toNat_sub, hone] at hi
    rw [Int64.lt_iff_toInt_lt] at hle
    rw [mem_iff, Int64.le_iff_toInt_le, Int64.le_iff_toInt_le]
    omega

theorem nodup_toList (s : Span) : s.toList.Nodup := by
  have hlength := s.length.toNat_lt
  rw [toList, List.Nodup, List.pairwise_map]
  refine List.nodup_range.imp_of_mem fun {i j} hi hj hij heq => hij ?_
  rw [List.mem_range] at hi hj
  have hoffset := congrArg (·.toUInt64.toNat) heq
  simp only [toNat_offset] at hoffset
  have hfirst := s.first.toUInt64.toNat_lt
  omega

end Span

end LogRepair
