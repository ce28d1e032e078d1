import LogRepair.Proofs.Tracked.Segments
import LogRepair.Tracked.Reconcile

/-!
# The pieces of a fresh segment

A fresh segment is cut where old ones begin and end, and neighbouring pieces of one state are
joined again. Both keep a tiling of the fresh segment.

* `CopyState.higher`: the state of a joined record.
* `TrackedSegment.Tiles`: segments that follow each other without gap from one address to another.
* `TrackedSegment.tiles_cut`, `TrackedSegment.progress_of_mem_cut`: the pieces tile the fresh
  segment, and at each address a piece has the progress of the fresh segment or, inside an old one,
  the joined progress.
* `TrackedSegment.forall_joined`: what is true of each piece and stays true of a joined piece as it
  grows is true of all joined pieces.
* `TrackedSegment.tiles_joinNeighbours`, `TrackedSegment.exists_mem_of_joined`: joining keeps the
  tiling and the state of each address.
-/

namespace LogRepair

/-! ## The higher of two states -/

namespace CopyState

/-- Of two states the one of higher rank. -/
def higher (a b : CopyState) : CopyState := if b.rank < a.rank then a else b

theorem higher_eq_or (a b : CopyState) : a.higher b = a ∨ a.higher b = b := by
  unfold higher
  split
  · exact Or.inl rfl
  · exact Or.inr rfl

end CopyState

theorem Progress.state_join (old fresh : Progress) :
    (old.join fresh).state = old.state.higher fresh.state := by
  unfold join outranks CopyState.higher
  by_cases hrank : fresh.state.rank < old.state.rank
  · simp [hrank]
  · by_cases hstate : old.state = fresh.state <;> simp [hrank, hstate, apply_ite Progress.state]

/-! ## Progress in terms of another length -/

namespace Progress

@[simp] theorem state_restate (p : Progress) (copied length : UInt64) :
    (p.restate copied length).state = p.state := by
  unfold restate
  split <;> simp_all [transferred, restored, notTransferred]

theorem WellFormed.restate {p : Progress} (hp : p.WellFormed) (copied length : UInt64) :
    (p.restate copied length).WellFormed := by
  unfold Progress.restate
  split <;> simp_all [transferred, restored, notTransferred, WellFormed]

theorem copied_restate_le (p : Progress) (copied length : UInt64) :
    (p.restate copied length).copied ≤ length := by
  unfold restate
  split
  · exact UInt64.le_refl length
  · exact UInt64.le_refl length
  · exact Std.min_le_right
  · exact UInt64.le_trans Std.min_le_right Std.min_le_right

theorem copied_restate_of_isComplete {p : Progress} (hp : p.state.isComplete = true)
    (copied length : UInt64) : (p.restate copied length).copied = length := by
  unfold restate
  split <;> simp_all [transferred, restored, CopyState.isComplete]

theorem join_eq_or (old fresh : Progress) : old.join fresh = old ∨ old.join fresh = fresh := by
  unfold join
  split
  · exact Or.inl rfl
  · exact Or.inr rfl

end Progress

namespace TrackedSegment

/-- A record restated for a span is valid over it. -/
theorem valid_restate (span : Span) {p : Progress} (hfirst : 0 ≤ span.first)
    (hle : span.first ≤ span.last) (hp : p.WellFormed) (copied : UInt64) :
    Valid ⟨span, p.restate copied span.length⟩ := by
  refine ⟨fault?_eq_none_iff.mpr ⟨hfirst, hle, ?_, fun hcomplete => ?_⟩, hp.restate _ _⟩
  · exact p.copied_restate_le copied span.length
  · refine Progress.copied_restate_of_isComplete ?_ copied span.length
    simpa only [isComplete, state, Progress.state_restate] using hcomplete

/-! ## Tilings -/

/-- The segments follow each other without gap from `first` to `last`. -/
def Tiles (first last : Address) : List TrackedSegment → Prop
  | [] => last < first
  | p :: rest => p.first = first ∧ first ≤ p.last ∧ p.last ≤ last ∧ Tiles (p.last + 1) last rest

section

variable {first last : Address} {pieces : List TrackedSegment}

theorem Tiles.bounds (h : Tiles first last pieces) (hlast : last < Int64.maxValue)
    {p : TrackedSegment} (hp : p ∈ pieces) :
    first ≤ p.first ∧ p.first ≤ p.last ∧ p.last ≤ last := by
  induction pieces generalizing first with
  | nil => cases hp
  | cons q rest ih =>
    obtain ⟨hfirst, hle, hend, hrest⟩ := h
    rcases List.mem_cons.mp hp with rfl | hp
    · grind
    · have hbounds := ih hrest hp
      grind

theorem Tiles.ascending (h : Tiles first last pieces) (hlast : last < Int64.maxValue) :
    Ascending pieces := by
  induction pieces generalizing first with
  | nil => exact .nil
  | cons q rest ih =>
    obtain ⟨hfirst, hle, hend, hrest⟩ := h
    refine .cons (fun p hp => ?_) (ih hrest)
    have hbounds := hrest.bounds hlast hp
    grind

theorem Tiles.exists_mem (h : Tiles first last pieces) {x : Address} (hfirst : first ≤ x)
    (hlast : x ≤ last) : ∃ p ∈ pieces, x ∈ p.toSpan := by
  induction pieces generalizing first with
  | nil =>
    have hempty : last < first := h
    grind
  | cons q rest ih =>
    obtain ⟨hq, hle, hend, hrest⟩ := h
    by_cases hx : x ≤ q.last
    · exact ⟨q, List.mem_cons_self, by rw [Span.mem_iff]; grind⟩
    · obtain ⟨p, hp, hxp⟩ := ih hrest (by grind)
      exact ⟨p, List.mem_cons_of_mem _ hp, hxp⟩

end

/-! ## Cutting -/

section

variable {fresh : TrackedSegment}

/-- The old segments are in order, overlap the fresh one, and none ends before the cursor. -/
structure Cuttable (fresh : TrackedSegment) (cursor : Address) (olds : List TrackedSegment) :
    Prop where
  ascending : Ascending olds
  nonempty : ∀ old ∈ olds, old.first ≤ old.last
  overlaps : ∀ old ∈ olds, old.overlaps fresh = true
  cursor_le : ∀ old ∈ olds, cursor ≤ old.first ∨ cursor ≤ fresh.first

/-- What is left of the old segments, after the end of the first or of the fresh one. -/
theorem Cuttable.tail {old : TrackedSegment} {rest : List TrackedSegment} {cursor : Address}
    (h : Cuttable fresh cursor (old :: rest)) :
    Cuttable fresh ((if old.last < fresh.last then old.last else fresh.last) + 1) rest := by
  obtain ⟨hold, hrest⟩ := List.pairwise_cons.mp h.ascending
  refine ⟨hrest, fun o ho => h.nonempty o (List.mem_cons_of_mem _ ho),
    fun o ho => h.overlaps o (List.mem_cons_of_mem _ ho), fun o ho => Or.inl ?_⟩
  have hafter := hold o ho
  split <;> grind

theorem tiles_cut (hlast : fresh.last < Int64.maxValue) {olds : List TrackedSegment}
    {cursor : Address} (h : Cuttable fresh cursor olds) (hcursor : fresh.first ≤ cursor)
    (hfresh : fresh.first ≤ fresh.last) : Tiles cursor fresh.last (cut fresh cursor olds) := by
  induction olds generalizing cursor with
  | nil =>
    unfold cut
    split
    · next hle => exact ⟨rfl, hle, Int64.le_refl _, by simp only [Tiles]; grind⟩
    · next hlt => simpa only [Tiles, Int64.not_le] using hlt
  | cons old rest ih =>
    have hne := h.nonempty old List.mem_cons_self
    have hoverlap := Span.overlaps_iff.mp (h.overlaps old List.mem_cons_self)
    have hbegin := h.cursor_le old List.mem_cons_self
    have hrest := h.tail
    unfold cut
    dsimp only
    generalize hf : (if fresh.first < old.first then old.first else fresh.first) = first
    generalize hl : (if old.last < fresh.last then old.last else fresh.last) = last at hrest ⊢
    have hfirst : fresh.first ≤ first ∧ old.first ≤ first ∧ first ≤ old.last ∧
        first ≤ fresh.last ∧ cursor ≤ first := by grind
    have hend : last ≤ fresh.last ∧ last ≤ old.last ∧ first ≤ last := by grind
    have htail : Tiles first fresh.last
        (⟨⟨first, last⟩, old.progress.join fresh.progress⟩ :: cut fresh (last + 1) rest) :=
      ⟨rfl, hend.2.2, hend.1, ih hrest (by grind)⟩
    split
    · next hgap =>
      have hstep : first - 1 + 1 = first := by grind
      refine ⟨rfl, by grind, by grind, ?_⟩
      rw [hstep]
      exact htail
    · next hgap =>
      have heq : cursor = first := by grind
      rw [heq]
      exact htail

/-- At each of its addresses a piece has the joined progress of the old segment there, or the
progress of the fresh segment if there is none. -/
theorem progress_of_mem_cut (hlast : fresh.last < Int64.maxValue)
    (hfresh : fresh.first ≤ fresh.last) {olds : List TrackedSegment} {cursor : Address}
    (h : Cuttable fresh cursor olds) (hcursor : fresh.first ≤ cursor) {p : TrackedSegment}
    (hp : p ∈ cut fresh cursor olds) {x : Address} (hx : x ∈ p.toSpan) :
    (∃ old ∈ olds, x ∈ old.toSpan ∧ p.progress = old.progress.join fresh.progress) ∨
      p.progress = fresh.progress ∧ ∀ old ∈ olds, x ∉ old.toSpan := by
  induction olds generalizing cursor with
  | nil =>
    unfold cut at hp
    split at hp
    · rw [List.mem_singleton.mp hp]
      exact Or.inr ⟨rfl, fun old hold => absurd hold List.not_mem_nil⟩
    · cases hp
  | cons old rest ih =>
    have hafter := (List.pairwise_cons.mp h.ascending).1
    have hne := h.nonempty old List.mem_cons_self
    have hoverlap := Span.overlaps_iff.mp (h.overlaps old List.mem_cons_self)
    have hrest := h.tail
    unfold cut at hp
    dsimp only at hp
    generalize hf : (if fresh.first < old.first then old.first else fresh.first) = first at hp
    generalize hl : (if old.last < fresh.last then old.last else fresh.last) = last at hp hrest
    have hfirst : old.first ≤ first := by grind
    have hend : last ≤ old.last ∧ last ≤ fresh.last ∧ fresh.first ≤ last + 1 := by grind
    have htail : p ∈ (⟨⟨first, last⟩, old.progress.join fresh.progress⟩ : TrackedSegment) ::
          cut fresh (last + 1) rest →
        (∃ o ∈ old :: rest, x ∈ o.toSpan ∧ p.progress = o.progress.join fresh.progress) ∨
          p.progress = fresh.progress ∧ ∀ o ∈ old :: rest, x ∉ o.toSpan := by
      intro hp
      rcases List.mem_cons.mp hp with rfl | hp
      · have hxold : x ∈ old.toSpan := ⟨Int64.le_trans hfirst hx.1, Int64.le_trans hx.2 hend.1⟩
        exact Or.inl ⟨old, List.mem_cons_self, hxold, rfl⟩
      · rcases ih hrest hend.2.2 hp with ⟨o, ho, hxo⟩ | ⟨hprogress, houtside⟩
        · exact Or.inl ⟨o, List.mem_cons_of_mem _ ho, hxo⟩
        · -- What follows the end of the old segment is outside it too.
          have hbounds := (tiles_cut hlast hrest hend.2.2 hfresh).bounds hlast hp
          rw [Span.mem_iff] at hx
          refine Or.inr ⟨hprogress, List.forall_mem_cons.mpr ⟨fun hxold => ?_, houtside⟩⟩
          rw [Span.mem_iff] at hxold
          grind
    split at hp
    · next hgap =>
      rcases List.mem_cons.mp hp with rfl | hp
      · rw [Span.mem_iff] at hx
        have hbefore : x < old.first := by grind
        refine Or.inr ⟨rfl, fun o ho hxo => ?_⟩
        rw [Span.mem_iff] at hxo
        rcases List.mem_cons.mp ho with rfl | ho
        · grind
        · have hlt := hafter o ho
          grind
      · exact htail hp
    · exact htail hp

end

/-! ## Joining -/

@[simp] theorem toSpan_restated (p : TrackedSegment) : p.restated.toSpan = p.toSpan := rfl

@[simp] theorem state_restated (p : TrackedSegment) : p.restated.state = p.state :=
  Progress.state_restate _ _ _

@[simp] theorem state_extendBy (p next : TrackedSegment) : (p.extendBy next).state = p.state :=
  Progress.state_restate _ _ _

theorem continuedBy_iff {p next : TrackedSegment} :
    p.continuedBy next = true ↔ p.last + 1 = next.first ∧ p.state = next.state := by
  simp [continuedBy]

theorem Tiles.restated {first last : Address} {p : TrackedSegment} {rest : List TrackedSegment}
    (h : Tiles first last (p :: rest)) : Tiles first last (p.restated :: rest) := h

theorem Tiles.tail {first last : Address} {p : TrackedSegment} {rest : List TrackedSegment}
    (h : Tiles first last (p :: rest)) : Tiles (p.last + 1) last rest := h.2.2.2

theorem Tiles.extendBy {first last : Address} {p next : TrackedSegment}
    {rest : List TrackedSegment} (hlast : last < Int64.maxValue)
    (h : Tiles first last (p :: next :: rest)) : Tiles first last (p.extendBy next :: rest) := by
  obtain ⟨hfirst, hle, hend, hnext, hnle, hnend, hrest⟩ := h
  have hgrown : first ≤ next.last := by grind
  exact ⟨hfirst, hgrown, hnend, hrest⟩

theorem tiles_joinAfter {first last : Address} {p : TrackedSegment} {rest : List TrackedSegment}
    (hlast : last < Int64.maxValue) (h : Tiles first last (p :: rest)) :
    Tiles first last (joinAfter p rest) := by
  induction rest generalizing first p with
  | nil => exact h
  | cons next rest ih =>
    unfold joinAfter
    split
    · exact ih (h.extendBy hlast)
    · exact ⟨h.1, h.2.1, h.2.2.1, ih h.tail.restated⟩

theorem tiles_joinNeighbours {first last : Address} {pieces : List TrackedSegment}
    (hlast : last < Int64.maxValue) (h : Tiles first last pieces) :
    Tiles first last (joinNeighbours pieces) := by
  cases pieces with
  | nil => exact h
  | cons p rest => exact tiles_joinAfter hlast h

theorem forall_joinAfter {P : TrackedSegment → Prop} {p : TrackedSegment}
    {rest : List TrackedSegment} (hp : P p) (hrestated : ∀ o ∈ rest, P o.restated)
    (hgrown : ∀ q, P q → ∀ o ∈ rest, q.continuedBy o = true → P (q.extendBy o)) :
    ∀ q ∈ joinAfter p rest, P q := by
  induction rest generalizing p with
  | nil => exact List.forall_mem_singleton.mpr hp
  | cons next rest ih =>
    obtain ⟨hnext, hrestated⟩ := List.forall_mem_cons.mp hrestated
    have hgrown' : ∀ q, P q → ∀ o ∈ rest, q.continuedBy o = true → P (q.extendBy o) :=
      fun q hq o ho => hgrown q hq o (List.mem_cons_of_mem _ ho)
    unfold joinAfter
    split
    · next hcontinued =>
      exact ih (hgrown p hp next List.mem_cons_self hcontinued) hrestated hgrown'
    · exact List.forall_mem_cons.mpr ⟨hp, ih hnext hrestated hgrown'⟩

/-- What is true of each piece by itself, and stays true as a joined piece grows by the next one,
is true of the joined pieces. -/
theorem forall_joined {P : TrackedSegment → Prop} {pieces : List TrackedSegment}
    (hrestated : ∀ o ∈ pieces, P o.restated)
    (hgrown : ∀ q, P q → ∀ o ∈ pieces, q.continuedBy o = true → P (q.extendBy o)) :
    ∀ q ∈ joinNeighbours pieces, P q := by
  cases pieces with
  | nil => exact fun q hq => absurd hq List.not_mem_nil
  | cons p rest =>
    exact forall_joinAfter (hrestated p List.mem_cons_self)
      (fun o ho => hrestated o (List.mem_cons_of_mem _ ho))
      fun q hq o ho => hgrown q hq o (List.mem_cons_of_mem _ ho)

/-- An address of a joined piece lies in a piece of the same state. -/
theorem exists_mem_of_joined {pieces : List TrackedSegment} {q : TrackedSegment}
    (hq : q ∈ joinNeighbours pieces) {x : Address} (hx : x ∈ q.toSpan) :
    ∃ o ∈ pieces, x ∈ o.toSpan ∧ o.state = q.state := by
  refine forall_joined
    (P := fun q => ∀ x ∈ q.toSpan, ∃ o ∈ pieces, x ∈ o.toSpan ∧ o.state = q.state)
    (fun o ho x hx => ⟨o, ho, hx, (state_restated o).symm⟩)
    (fun q hq next hnext hcontinued x hx => ?_) q hq x hx
  obtain ⟨hadjacent, hstate⟩ := continuedBy_iff.mp hcontinued
  rw [state_extendBy]
  -- The address of the grown piece is one of the open piece or of the one after it.
  have hx : q.first ≤ x ∧ x ≤ next.last := hx
  by_cases hxq : x ≤ q.last
  · exact hq x ⟨hx.1, hxq⟩
  · exact ⟨next, hnext, ⟨by grind, hx.2⟩, hstate.symm⟩

theorem valid_restated {p : TrackedSegment} (hfirst : 0 ≤ p.first) (hle : p.first ≤ p.last)
    (hp : p.progress.WellFormed) : p.restated.Valid :=
  valid_restate p.toSpan hfirst hle hp _

theorem valid_extendBy {p next : TrackedSegment} (hp : p.Valid) (hle : p.first ≤ next.last) :
    (p.extendBy next).Valid :=
  valid_restate ⟨p.first, next.last⟩ hp.first_nonneg hle hp.progress_wellFormed _

theorem valid_of_mem_joined {first last : Address} (hfirst : 0 ≤ first)
    (hlast : last < Int64.maxValue) {pieces : List TrackedSegment}
    (h : Tiles first last pieces) (hpieces : ∀ p ∈ pieces, p.progress.WellFormed)
    {q : TrackedSegment} (hq : q ∈ joinNeighbours pieces) : q.Valid := by
  refine forall_joined (P := Valid) (fun o ho => ?_) (fun q hq next hnext hcontinued => ?_) q hq
  · have hbounds := h.bounds hlast ho
    exact valid_restated (Int64.le_trans hfirst hbounds.1) hbounds.2.1 (hpieces o ho)
  · have hbounds := h.bounds hlast hnext
    have hadjacent := (continuedBy_iff.mp hcontinued).1
    have hle := hq.first_le_last
    exact valid_extendBy hq (by grind)

end TrackedSegment

end LogRepair
