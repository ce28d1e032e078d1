import LogRepair.Batch.Cursor
import LogRepair.Proofs.Address

/-!
# Calls of a cursor

* `Cursor.toInt_rangeEnd`: where the range that begins at a position ends.
* `Cursor.passed_or_mem`: an address of a span that a cursor has left behind was left behind
  before, or is in the range that was just handed out.
* `Cursor.Within.next`: a cursor hands out no address outside its span.
* `Cursor.Upward.next`: an upward cursor hands out a range that is not empty, and has the rest left.
-/

namespace LogRepair

namespace Cursor

/-! ## One call -/

theorem next?_eq_some {c c' : Cursor} {range : Span} (h : c.next? = some (range, c')) :
    ∃ p, c.position = some p ∧ p ≤ c.last ∧ range = ⟨p, c.rangeEnd p⟩ ∧
      c' = { c with position := after (c.rangeEnd p) } := by
  unfold next? at h
  split at h
  · cases h
  · next p hp =>
    split at h
    · cases h
    · next hle =>
      cases h
      exact ⟨p, hp, by grind, rfl, rfl⟩

theorem isDone_of_next?_eq_none {c : Cursor} (h : c.next? = none) : c.isDone = true := by
  unfold next? at h
  unfold isDone
  split at h
  · rfl
  · split at h
    · next hlt => exact decide_eq_true hlt
    · cases h

theorem next?_eq_none_iff {c : Cursor} : c.next? = none ↔ c.isDone = true := by
  refine ⟨isDone_of_next?_eq_none, fun h => ?_⟩
  unfold isDone at h
  unfold next?
  split at h
  · rfl
  · exact if_pos (of_decide_eq_true h)

theorem next?_of_position {c : Cursor} {p : Address} (hp : c.position = some p) (hle : p ≤ c.last) :
    c.next? = some (⟨p, c.rangeEnd p⟩, { c with position := after (c.rangeEnd p) }) := by
  unfold next?
  rw [hp]
  exact if_neg (by grind)

theorem batchSize_ofSpan (s : Span) {batchSize : UInt64} (hpos : 0 < batchSize.toNat) :
    (ofSpan s batchSize).batchSize = batchSize := by
  have hone : (1 : UInt64) ≤ batchSize := UInt64.le_iff_toNat_le.mpr hpos
  change (if batchSize ≤ 1 then 1 else batchSize) = batchSize
  split
  · next h => exact UInt64.le_antisymm hone h
  · rfl

/-- How much further on a chunk ends than it begins. Below half of the words the sign does not
matter. -/
theorem toInt_step {batchSize : UInt64} (hpos : 0 < batchSize.toNat)
    (hsmall : batchSize.toNat < 2 ^ 63) :
    (batchSize.toInt64 - 1).toInt = batchSize.toNat - 1 := by
  have hsigned := Span.toInt_eq batchSize.toInt64
  rw [UInt64.toUInt64_toInt64, if_pos (by omega)] at hsigned
  have hone : (1 : Int64).toInt = 1 := rfl
  rw [Int64.toInt_sub, hsigned, hone]
  exact Int.bmod_eq_of_le (by omega) (by omega)

/-- An upward range reaches its full length, or the end of the span. -/
theorem toInt_rangeEnd {c : Cursor} {p : Address} (hp : p ≤ c.last)
    (hstep : 0 ≤ c.batchSize.toInt64 - 1) :
    (c.rangeEnd p).toInt = min (p.toInt + (c.batchSize.toInt64 - 1).toInt) c.last.toInt := by
  have hadvance := Address.toInt_advance p (c.batchSize.toInt64 - 1)
  have hzero : (0 : Int64).toInt = 0 := rfl
  have hlow := p.minValue_le_toInt
  have hhigh := c.last.toInt_le
  rw [Int64.le_iff_toInt_le] at hp hstep
  unfold rangeEnd
  dsimp only
  split
  · next hlt =>
    rw [Int64.lt_iff_toInt_lt] at hlt
    omega
  · next hge =>
    rw [Int64.lt_iff_toInt_lt] at hge
    omega

theorem rangeEnd_le_last (c : Cursor) (p : Address) : c.rangeEnd p ≤ c.last := by
  unfold rangeEnd
  dsimp only
  split <;> grind

theorem le_rangeEnd {c : Cursor} {p : Address} (hp : p ≤ c.last)
    (hstep : 0 ≤ c.batchSize.toInt64 - 1) : p ≤ c.rangeEnd p := by
  have hzero : (0 : Int64).toInt = 0 := rfl
  have hend := toInt_rangeEnd hp hstep
  rw [Int64.le_iff_toInt_le] at hp hstep ⊢
  omega

/-- A range reaches no further than the positions below zero if it begins there. -/
theorem rangeEnd_neg {c : Cursor} {p : Address} (hp : p < 0) (hstep : c.batchSize.toInt64 - 1 < 0) :
    c.rangeEnd p < 0 := by
  have hadvance := Address.toInt_advance p (c.batchSize.toInt64 - 1)
  have hzero : (0 : Int64).toInt = 0 := rfl
  have hmin : Int64.minValue.toInt < 0 := by decide
  have hfull : Address.advance p (c.batchSize.toInt64 - 1) < 0 := by
    rw [Int64.lt_iff_toInt_lt] at hp hstep ⊢
    omega
  unfold rangeEnd
  dsimp only
  split <;> grind

/-- Each step of a walk downwards ends before it begins. -/
theorem rangeEnd_lt {c : Cursor} {p : Address} (hp : p ≤ c.last) (hmin : Int64.minValue < p)
    (hstep : c.batchSize.toInt64 - 1 < 0) : c.rangeEnd p < p := by
  have hadvance := Address.toInt_advance p (c.batchSize.toInt64 - 1)
  have hzero : (0 : Int64).toInt = 0 := rfl
  have hfull : Address.advance p (c.batchSize.toInt64 - 1) < p := by
    rw [Int64.lt_iff_toInt_lt] at hmin hstep ⊢
    omega
  unfold rangeEnd
  dsimp only
  split <;> grind

theorem lt_after {x y p : Address} (hx : x ≤ y) (hp : after y = some p) : x < p := by
  simp only [after] at hp
  split at hp
  · cases hp
  · cases hp
    grind

theorem after_of_lt {x y : Address} (h : x < y) : after x = some (x + 1) := by
  have hmax := Int64.le_maxValue y
  exact if_neg (by grind)

/-- The number of a position that comes after another does not wrap. -/
theorem toInt_after {x q : Address} (h : after x = some q) : q.toInt = x.toInt + 1 := by
  unfold after at h
  split at h
  · cases h
  · next hx =>
    cases h
    have hmax := Int64.le_maxValue x
    rw [← Address.advance_one (by grind), Address.toInt_advance]
    have hone : (1 : Int64).toInt = 1 := rfl
    have hlow := x.minValue_le_toInt
    have hlt : x < Int64.maxValue := by grind
    rw [Int64.lt_iff_toInt_lt] at hlt
    omega

theorem isDone_after_last {c : Cursor} (h : c.position = after c.last) : c.isDone = true := by
  unfold isDone
  split
  · rfl
  · next q hq => exact decide_eq_true (lt_after (Int64.le_refl _) (h.symm.trans hq))

/-! ## What a cursor leaves behind -/

/-- The cursor has left an address behind. -/
def Passed (c : Cursor) (x : Address) : Prop := ∀ p, c.position = some p → x < p

/-- The cursor stands at a position of the log, unless it walks downwards. -/
def Steady (c : Cursor) : Prop :=
  ∀ p, c.position = some p → 0 ≤ p ∨ c.batchSize.toInt64 - 1 < 0

theorem passed_of_isDone {c : Cursor} (h : c.isDone = true) {x : Address} (hx : x ≤ c.last) :
    c.Passed x := by
  intro p hp
  simp only [isDone, hp, decide_eq_true_eq] at h
  grind

theorem le_of_passed_after {x y : Address} {c : Cursor} (hc : c.position = after y)
    (h : c.Passed x) : x ≤ y := by
  unfold after at hc
  split at hc
  · next hy =>
    rw [hy]
    exact Int64.le_maxValue x
  · next hy =>
    have hlt := h _ hc
    grind

/-- A position that the cursor has just left behind is in the range that it handed out. -/
theorem passed_or_mem {c c' : Cursor} {range : Span} (h : c.next? = some (range, c'))
    (hsteady : c.Steady) {x : Address} (hx : 0 ≤ x) (hpassed : c'.Passed x) :
    c.Passed x ∨ x ∈ range ∧ 0 ≤ range.first := by
  obtain ⟨p, hp, hle, rfl, rfl⟩ := next?_eq_some h
  have hend : x ≤ c.rangeEnd p := le_of_passed_after rfl hpassed
  by_cases hxp : x < p
  · refine Or.inl fun q hq => ?_
    rw [hp] at hq
    cases hq
    exact hxp
  · -- A range that begins below zero ends there, so it does not reach a position.
    have hfirst : 0 ≤ p := by
      rcases hsteady p hp with hfirst | hstep
      · exact hfirst
      · by_cases hneg : p < 0
        · have := rangeEnd_neg hneg hstep
          grind
        · grind
    exact Or.inr ⟨⟨by grind, hend⟩, hfirst⟩

theorem Steady.next {c c' : Cursor} {range : Span} (h : c.next? = some (range, c'))
    (hsteady : c.Steady) : c'.Steady := by
  obtain ⟨p, hp, hle, rfl, rfl⟩ := next?_eq_some h
  by_cases hstep : c.batchSize.toInt64 - 1 < 0
  · exact fun q hq => Or.inr hstep
  · have hfirst : 0 ≤ p := (hsteady p hp).resolve_right hstep
    have hend : p ≤ c.rangeEnd p := le_rangeEnd hle (by grind)
    intro q hq
    have hlt := lt_after hend hq
    exact Or.inl (by grind)

/-- The cursor walks upwards and has left the address behind. -/
def Left (c : Cursor) (x : Address) : Prop := 0 ≤ c.batchSize.toInt64 - 1 ∧ c.Passed x

/-- What was left behind is not handed out again, and stays left behind. -/
theorem Left.next {c c' : Cursor} {range : Span} {x : Address} (h : c.Left x)
    (hnext : c.next? = some (range, c')) : x ∉ range ∧ c'.Left x := by
  obtain ⟨p, hp, hle, rfl, rfl⟩ := next?_eq_some hnext
  have hlt := h.2 p hp
  have hend := le_rangeEnd hle h.1
  refine ⟨fun hx => ?_, h.1, fun q hq => lt_after (y := c.rangeEnd p) ?_ hq⟩
  · rw [Span.mem_iff] at hx
    grind
  · grind

/-! ## The addresses that a cursor hands out -/

/-- The cursor stands in the span or behind it, unless it walks downwards. -/
structure Within (c : Cursor) (s : Span) : Prop where
  last_eq : c.last = s.last
  first_le : ∀ p, c.position = some p →
    s.first ≤ p ∨ c.batchSize.toInt64 - 1 < 0 ∧ Int64.minValue < p

theorem Within.minValue_lt {c : Cursor} {s : Span} (h : c.Within s) (hfirst : 0 ≤ s.first)
    {p : Address} (hp : c.position = some p) : Int64.minValue < p := by
  rcases h.first_le p hp with hlow | hlow
  · have hneg : Int64.minValue < 0 := by decide
    grind
  · exact hlow.2

theorem Within.next {c c' : Cursor} {s range : Span} (h : c.Within s) (hfirst : 0 ≤ s.first)
    (hnext : c.next? = some (range, c')) : (∀ x ∈ range, x ∈ s) ∧ c'.Within s := by
  obtain ⟨p, hp, hle, rfl, rfl⟩ := next?_eq_some hnext
  have hmin := h.minValue_lt hfirst hp
  by_cases hstep : c.batchSize.toInt64 - 1 < 0
  · have hend := rangeEnd_lt hle hmin hstep
    refine ⟨fun x hx => ?_, h.last_eq, fun q hq => Or.inr ⟨hstep, ?_⟩⟩
    · rw [Span.mem_iff] at hx
      grind
    · have hlow := Int64.minValue_le (c.rangeEnd p)
      simp only [after] at hq
      split at hq
      · cases hq
      · cases hq
        grind
  · have hlow : s.first ≤ p := (h.first_le p hp).resolve_right fun hdown => hstep hdown.1
    have hend : p ≤ c.rangeEnd p := le_rangeEnd hle (by grind)
    refine ⟨fun x hx => ?_, h.last_eq, fun q hq => Or.inl ?_⟩
    · have hlast := c.rangeEnd_le_last p
      rw [h.last_eq] at hlast
      exact ⟨Int64.le_trans hlow hx.1, Int64.le_trans hx.2 hlast⟩
    · have hlt := lt_after hend hq
      grind

/-- What is handed out is left behind. -/
theorem Within.left_of_mem {c c' : Cursor} {s range : Span} (h : c.Within s) (hfirst : 0 ≤ s.first)
    (hnext : c.next? = some (range, c')) {x : Address} (hx : x ∈ range) : c'.Left x := by
  have hstep : 0 ≤ c.batchSize.toInt64 - 1 := by
    obtain ⟨p, hp, hle, rfl, -⟩ := next?_eq_some hnext
    by_cases hdown : c.batchSize.toInt64 - 1 < 0
    · have hend := rangeEnd_lt hle (h.minValue_lt hfirst hp) hdown
      rw [Span.mem_iff] at hx
      grind
    · grind
  obtain ⟨p, hp, hle, rfl, rfl⟩ := next?_eq_some hnext
  exact ⟨hstep, fun q hq => lt_after hx.2 hq⟩

/-! ## What a cursor has yet to hand out -/

/-- The number of addresses that the cursor has yet to hand out. -/
def left (c : Cursor) : UInt64 :=
  match c.position with
  | none => 0
  | some p => (⟨p, c.last⟩ : Span).length

/-- The cursor walks upwards, from a position of the log. -/
structure Upward (c : Cursor) : Prop where
  step_nonneg : 0 ≤ c.batchSize.toInt64 - 1
  position_nonneg : ∀ p, c.position = some p → 0 ≤ p

theorem left_of_isDone {c : Cursor} (h : c.isDone = true) : c.left = 0 := by
  unfold left
  split
  · rfl
  · next p hp =>
    simp only [isDone, hp, decide_eq_true_eq] at h
    rw [Span.length, if_pos h]

theorem upward_ofSpan {s : Span} {batchSize : UInt64} (hfirst : 0 ≤ s.first)
    (hpos : batchSize ≠ 0) (hsize : batchSize.toNat < 2 ^ 63) : (ofSpan s batchSize).Upward := by
  have hnat : 0 < batchSize.toNat :=
    Nat.pos_of_ne_zero fun hzero => hpos (UInt64.toNat_inj.mp hzero)
  refine ⟨?_, fun p hp => ?_⟩
  · have hstep := toInt_step hnat hsize
    have hzero : (0 : Int64).toInt = 0 := rfl
    rw [batchSize_ofSpan s hnat, Int64.le_iff_toInt_le]
    omega
  · cases hp
    exact hfirst

/-- An upward cursor hands out a range that is not empty, and has the rest left. -/
theorem Upward.next {c c' : Cursor} {range : Span} (h : c.Upward)
    (hnext : c.next? = some (range, c')) :
    range.first ≤ range.last ∧ 1 ≤ range.length.toNat ∧ c'.Upward ∧
      range.length.toNat + c'.left.toNat = c.left.toNat := by
  obtain ⟨p, hp, hle, rfl, rfl⟩ := next?_eq_some hnext
  have hfirst := h.position_nonneg p hp
  have hend := le_rangeEnd hle h.step_nonneg
  have hlast := c.rangeEnd_le_last p
  have hleft : c.left = (⟨p, c.last⟩ : Span).length := by rw [left, hp]
  refine ⟨hend, ?_, ⟨h.step_nonneg, fun q hq => ?_⟩, ?_⟩
  · rw [Span.toNat_length (s := ⟨p, c.rangeEnd p⟩) hfirst hend]
    exact Nat.le_add_left _ _
  · have hlt := lt_after hend hq
    grind
  · rw [hleft]
    by_cases hdone : c.rangeEnd p = c.last
    · have hexhausted := isDone_after_last (c := { c with position := after (c.rangeEnd p) })
        (congrArg after hdone)
      rw [left_of_isDone hexhausted, hdone]
      rfl
    · have hmore : c.rangeEnd p < c.last := by grind
      rw [← Span.toNat_length_add hfirst hend hmore]
      simp only [left, after_of_lt hmore]

end Cursor

end LogRepair
