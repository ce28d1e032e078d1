import LogRepair.Proofs.Layout.Requirement
import LogRepair.Proofs.Tracked.Counts
import LogRepair.Proofs.Tracked.Pointwise
import Mathlib.Algebra.GroupWithZero.Nat

/-!
# What a reconciliation keeps of the counts

Where old segments lie inside the required ranges, each of them is a piece of its own. Joined pieces
that were not transferred add up their counts. Joined pieces that failed do not: the count of a
failed record never grows, so that of the lowest piece stands for all of them.

* `TrackedSegment.Reconcilable.gap_or_whole_of_mem_pieces`: a piece is an old segment, or no old one
  overlaps it.
* `TrackedSegment.accounts_of_mem_overlaid`: what the count of a joined piece says of old segments.
* `TrackedSegment.copied_of_reconcile`: the same of the result of a reconciliation.
* `TrackedSegment.failed_counts_lost`: two failed neighbours become one with the count of the first.
-/

namespace LogRepair

/-! ## Single records -/

namespace Progress

/-- Beside a range that was never tried every record stands. -/
theorem join_notTransferred_zero {p : Progress} (hp : p.WellFormed) :
    p.join (.notTransferred 0) = p := by
  obtain ⟨state, copied, failure⟩ := p
  unfold join outranks
  cases state
  case notTransferred =>
    have hnone : failure = none := by simpa [WellFormed] using hp
    subst hnone
    by_cases hcopied : 0 < copied
    · simp [notTransferred, hcopied]
    · have hzero : copied = 0 := by grind
      simp [notTransferred, hzero]
  all_goals simp [notTransferred, CopyState.rank]

/-- A record that fits a range is not changed by putting it in terms of the range. -/
theorem restate_eq_self {p : Progress} (hp : p.WellFormed) {length : UInt64}
    (hle : p.copied ≤ length) (hcomplete : p.state.isComplete = true → p.copied = length) :
    p.restate p.copied length = p := by
  obtain ⟨state, copied, failure⟩ := p
  have hmin : min copied length = copied := by
    rw [UInt64.min_def, if_pos hle]
  have hself : min copied copied = copied := by
    rw [UInt64.min_def, ite_self]
  cases state <;>
    simp_all [restate, WellFormed, transferred, restored, notTransferred, CopyState.isComplete]

end Progress

namespace TrackedSegment

theorem restated_eq_self {s : TrackedSegment} (hs : s.Valid) : s.restated = s := by
  obtain ⟨-, -, hcopied, hcomplete⟩ := fault?_eq_none_iff.mp hs.fault_eq_none
  have hprogress := Progress.restate_eq_self hs.progress_wellFormed hcopied hcomplete
  rw [restated, hprogress]

/-! ## Pieces that are old segments -/

section

variable {old fresh : List TrackedSegment} {f : TrackedSegment}

/-- If the old segments lie inside the fresh one, a piece is one of them as a whole, or lies
between them. -/
theorem gap_or_whole_of_mem_cut (hlast : f.last < Int64.maxValue) (hfresh : f.first ≤ f.last)
    {olds : List TrackedSegment} {cursor : Address} (h : Cuttable f cursor olds)
    (hcursor : f.first ≤ cursor) (hinside : ∀ o ∈ olds, o.Inside f) {p : TrackedSegment}
    (hp : p ∈ cut f cursor olds) :
    (p.progress = f.progress ∧ ∀ o ∈ olds, o.overlaps p = false) ∨
      ∃ o ∈ olds, p = ⟨o.toSpan, o.progress.join f.progress⟩ := by
  induction olds generalizing cursor with
  | nil =>
    unfold cut at hp
    split at hp
    · rw [List.mem_singleton.mp hp]
      exact Or.inl ⟨rfl, fun o ho => absurd ho List.not_mem_nil⟩
    · cases hp
  | cons old rest ih =>
    have hafter := (List.pairwise_cons.mp h.ascending).1
    have hne := h.nonempty old List.mem_cons_self
    obtain ⟨hold, hrest⟩ := List.forall_mem_cons.mp hinside
    have hfirst : (if f.first < old.first then old.first else f.first) = old.first := by
      have := hold.1
      grind
    have hend : (if old.last < f.last then old.last else f.last) = old.last := by
      have := hold.2
      grind
    have htail := h.tail
    rw [hend] at htail
    have hnext : f.first ≤ old.last + 1 := by
      have := hold.1
      have := hold.2
      grind
    unfold cut at hp
    dsimp only at hp
    rw [hfirst, hend] at hp
    have hp' : p ∈ (⟨old.toSpan, old.progress.join f.progress⟩ : TrackedSegment) ::
          cut f (old.last + 1) rest →
        (p.progress = f.progress ∧ ∀ o ∈ old :: rest, o.overlaps p = false) ∨
          ∃ o ∈ old :: rest, p = ⟨o.toSpan, o.progress.join f.progress⟩ := by
      intro hp
      rcases List.mem_cons.mp hp with rfl | hp
      · exact Or.inr ⟨old, List.mem_cons_self, rfl⟩
      · rcases ih htail hnext hrest hp with ⟨hprogress, hclear⟩ | ⟨o, ho, heq⟩
        · -- What is cut off behind the first old segment does not reach back to it.
          have hbounds := (tiles_cut hlast htail hnext hfresh).bounds hlast hp
          have hstep := hold.2
          refine Or.inl ⟨hprogress, List.forall_mem_cons.mpr ⟨?_, hclear⟩⟩
          rw [overlaps_eq_false_iff]
          grind
        · exact Or.inr ⟨o, List.mem_cons_of_mem _ ho, heq⟩
    split at hp
    · next hgap =>
      rcases List.mem_cons.mp hp with rfl | hp
      · refine Or.inl ⟨rfl, List.forall_mem_cons.mpr ⟨?_, fun o ho => ?_⟩⟩
        · rw [overlaps_eq_false_iff]
          grind
        · have hlt := hafter o ho
          rw [overlaps_eq_false_iff]
          grind
      · exact hp' hp
    · exact hp' hp

/-- Every old segment lies inside a fresh one. -/
def Contained (old fresh : List TrackedSegment) : Prop := ∀ o ∈ old, ∃ f ∈ fresh, o.Inside f

theorem Inside.overlaps {s t : TrackedSegment} (h : s.Inside t) (hs : s.first ≤ s.last) :
    s.overlaps t = true :=
  Span.overlaps_of_mem (x := s.first) ⟨Int64.le_refl _, hs⟩ (h.mem ⟨Int64.le_refl _, hs⟩)

/-- An old segment that overlaps a fresh one lies inside it. -/
theorem Reconcilable.inside_of_overlaps (h : Reconcilable old fresh)
    (hcontained : Contained old fresh) (hf : f ∈ fresh) {o : TrackedSegment} (ho : o ∈ old)
    (hoverlap : o.overlaps f = true) : o.Inside f := by
  obtain ⟨g, hg, hinside⟩ := hcontained o ho
  have hvalid := h.valid_old o ho
  obtain ⟨x, hxo, hxf⟩ := Span.exists_mem_of_overlaps hvalid.first_le_last
    (h.valid_fresh f hf).first_le_last hoverlap
  rwa [h.apart_fresh.eq_of_overlaps hf hg (Span.overlaps_of_mem hxf (hinside.mem hxo))]

theorem Reconcilable.gap_or_whole_of_mem_pieces (h : Reconcilable old fresh)
    (hcontained : Contained old fresh) (hf : f ∈ fresh) {p : TrackedSegment}
    (hp : p ∈ pieces old f) :
    (p.progress = f.progress ∧ ∀ o ∈ old, o.overlaps p = false) ∨
      ∃ o ∈ old, p = ⟨o.toSpan, o.progress.join f.progress⟩ := by
  have hinside : ∀ o ∈ (old.filter (·.overlaps f)).mergeSort startsBy, o.Inside f := fun o ho =>
    h.inside_of_overlaps hcontained hf (mem_sorted_overlapping.mp ho).1
      (mem_sorted_overlapping.mp ho).2
  rcases gap_or_whole_of_mem_cut (h.last_lt f hf) (h.valid_fresh f hf).first_le_last h.cuttable
    (Int64.le_refl _) hinside hp with ⟨hprogress, hclear⟩ | ⟨o, ho, heq⟩
  · refine Or.inl ⟨hprogress, fun o ho => ?_⟩
    by_contra hoverlap
    rw [Bool.not_eq_false] at hoverlap
    -- What overlaps a piece overlaps the fresh segment, so it was looked at.
    have hbounds := (h.tiles_pieces hf).bounds (h.last_lt f hf) hp
    obtain ⟨x, hxo, hxp⟩ := Span.exists_mem_of_overlaps (h.valid_old o ho).first_le_last
      hbounds.2.1 hoverlap
    have hmem := mem_sorted_overlapping.mpr
      ⟨ho, Span.overlaps_of_mem hxo (h.mem_of_mem_pieces hf hp hxp)⟩
    have hfalse := hclear o hmem
    rw [hoverlap] at hfalse
    cases hfalse
  · exact Or.inr ⟨o, (mem_sorted_overlapping.mp ho).1, heq⟩

/-! ## The counts of joined pieces -/

/-- The addresses that the old segments of one state inside `s` report as copied. -/
def creditIn (state : CopyState) (old : List TrackedSegment) (s : TrackedSegment) : Nat :=
  ((old.filter fun o => o.state = state ∧ o.Inside s).map (·.progress.copied.toNat)).sum

theorem creditIn_eq_zero {state : CopyState} {s : TrackedSegment}
    (h : ∀ o ∈ old, ¬o.Inside s) : creditIn state old s = 0 := by
  have hnone : old.filter (fun o => o.state = state ∧ o.Inside s) = [] := by
    refine List.filter_eq_nil_iff.mpr fun o ho => ?_
    simp [h o ho]
  rw [creditIn, hnone]
  rfl

/-- If of the old segments those inside `s` are divided between `t` and `u`, so is their credit. -/
theorem creditIn_add {state : CopyState} {s t u : TrackedSegment}
    (hdivided : ∀ o ∈ old, o.Inside s ↔ o.Inside t ∨ o.Inside u)
    (hapart : ∀ o ∈ old, ¬(o.Inside t ∧ o.Inside u)) :
    creditIn state old s = creditIn state old t + creditIn state old u := by
  unfold creditIn
  induction old with
  | nil => rfl
  | cons o rest ih =>
    obtain ⟨hdivided, hrest⟩ := List.forall_mem_cons.mp hdivided
    obtain ⟨hapart, hrest'⟩ := List.forall_mem_cons.mp hapart
    have hsum := ih hrest hrest'
    simp only [List.filter_cons, hdivided]
    by_cases ht : o.Inside t <;> by_cases hu : o.Inside u <;> by_cases hstate : o.state = state <;>
      simp_all <;> omega

/-- In the range of one of the old segments that segment is all the credit. -/
theorem creditIn_self (hold : Apart old) (hvalid : ∀ o ∈ old, o.Valid) {o : TrackedSegment}
    (ho : o ∈ old) : creditIn o.state old o = o.progress.copied.toNat := by
  obtain ⟨before, behind, rfl⟩ := List.append_of_mem ho
  obtain ⟨-, hbehind, hbefore⟩ := List.pairwise_append.mp hold
  have houtside : ∀ s ∈ before ++ behind, ¬s.Inside o := by
    intro s hs hinside
    have hmem : s ∈ before ++ o :: behind := by grind
    have hoverlap := hinside.overlaps (hvalid s hmem).first_le_last
    rcases List.mem_append.mp hs with hs | hs
    · rw [hbefore s hs o List.mem_cons_self] at hoverlap
      cases hoverlap
    · rw [overlaps_comm, (List.pairwise_cons.mp hbehind).1 s hs] at hoverlap
      cases hoverlap
  have hself : o.Inside o := ⟨Int64.le_refl _, Int64.le_refl _⟩
  have honly : (before ++ o :: behind).filter (fun s => s.state = o.state ∧ s.Inside o) = [o] := by
    rw [List.filter_append, List.filter_cons_of_pos (by simp [hself])]
    have hnone : ∀ part : List TrackedSegment, (∀ s ∈ part, ¬s.Inside o) →
        part.filter (fun s => s.state = o.state ∧ s.Inside o) = [] := fun part hpart =>
      List.filter_eq_nil_iff.mpr fun s hs => by simp [hpart s hs]
    rw [hnone before fun s hs => houtside s (List.mem_append_left _ hs),
      hnone behind fun s hs => houtside s (List.mem_append_right _ hs), List.nil_append]
  rw [creditIn, honly]
  simp

/-- What the count of a joined piece says of the old segments in its range. -/
structure Accounts (old : List TrackedSegment) (q : TrackedSegment) : Prop where
  valid : q.Valid
  /-- No old segment reaches over an end of the piece. -/
  whole : ∀ o ∈ old, o.overlaps q = true → o.Inside q
  summed : q.state = .notTransferred → q.progress.copied.toNat = creditIn .notTransferred old q
  /-- The count of a piece that failed is that of the first old segment in it that did. -/
  lowest : q.state = .failed → ∃ o ∈ old, o.state = .failed ∧ o.Inside q ∧
    q.progress.copied = o.progress.copied ∧
      ∀ o' ∈ old, o'.state = .failed → o'.Inside q → o.first ≤ o'.first

/-- Where no old segment is, nothing is counted. -/
theorem accounts_of_clear (hvalid : ∀ o ∈ old, o.Valid) {q : TrackedSegment} (hq : q.Valid)
    (hprogress : q.progress = .notTransferred 0) (hclear : ∀ o ∈ old, o.overlaps q = false) :
    Accounts old q := by
  have houtside : ∀ o ∈ old, ¬o.Inside q := by
    intro o ho hinside
    have hoverlap := hinside.overlaps (hvalid o ho).first_le_last
    rw [hclear o ho] at hoverlap
    cases hoverlap
  refine ⟨hq, fun o ho hoverlap => ?_, fun _ => ?_, fun hfailed => ?_⟩
  · rw [hclear o ho] at hoverlap
    cases hoverlap
  · rw [creditIn_eq_zero houtside, hprogress]
    rfl
  · rw [state, hprogress] at hfailed
    cases hfailed

/-- An old segment accounts for itself. -/
theorem accounts_self (hold : Apart old) (hvalid : ∀ o ∈ old, o.Valid) {o : TrackedSegment}
    (ho : o ∈ old) : Accounts old o := by
  have honly : ∀ s ∈ old, s.overlaps o = true → s = o := fun s hs =>
    hold.eq_of_overlaps hs ho
  refine ⟨hvalid o ho, fun s hs hoverlap => ?_, fun hstate => ?_, fun hfailed => ?_⟩
  · rw [honly s hs hoverlap]
    exact ⟨Int64.le_refl _, Int64.le_refl _⟩
  · rw [← hstate, creditIn_self hold hvalid ho]
  · refine ⟨o, ho, hfailed, ⟨Int64.le_refl _, Int64.le_refl _⟩, rfl, fun s hs _ hinside => ?_⟩
    rw [honly s hs (hinside.overlaps (hvalid s hs).first_le_last)]
    exact Int64.le_refl _

theorem lt_of_continuedBy {q next : TrackedSegment} (hq : q.Valid) (hnext : next.Valid)
    (hcontinued : q.continuedBy next = true) : q.last < next.first := by
  have hadjacent := (continuedBy_iff.mp hcontinued).1
  have hfirst := hq.first_nonneg
  have hle := hq.first_le_last
  have hnextFirst := hnext.first_nonneg
  by_cases hmax : q.last = Int64.maxValue
  · have hwrap : Int64.maxValue + 1 < 0 := by decide
    grind
  · have hbelow := Int64.le_maxValue q.last
    grind

/-- The counts of two pieces that follow each other fit the grown piece. -/
theorem copied_add_le {q next : TrackedSegment} (hq : q.Valid) (hnext : next.Valid)
    (hcontinued : q.continuedBy next = true) :
    (q.progress.copied + next.progress.copied).toNat =
        q.progress.copied.toNat + next.progress.copied.toNat ∧
      q.progress.copied + next.progress.copied ≤ (⟨q.first, next.last⟩ : Span).length := by
  have hlt := lt_of_continuedBy hq hnext hcontinued
  have hle := hnext.first_le_last
  have hparts := Span.toNat_length_add hq.first_nonneg hq.first_le_last
    (Int64.lt_of_lt_of_le hlt hle)
  have hnextLength : (⟨q.last + 1, next.last⟩ : Span).length = next.length := by
    rw [(continuedBy_iff.mp hcontinued).1]
    rfl
  rw [hnextLength] at hparts
  have hfits := UInt64.le_iff_toNat_le.mp hq.copied_le
  have hnextFits := UInt64.le_iff_toNat_le.mp hnext.copied_le
  have hbound := (⟨q.first, next.last⟩ : Span).length.toNat_lt
  have hlength : q.length.toNat = (⟨q.first, q.last⟩ : Span).length.toNat := rfl
  have hsum : (q.progress.copied + next.progress.copied).toNat =
      q.progress.copied.toNat + next.progress.copied.toNat := by
    rw [UInt64.toNat_add]
    omega
  refine ⟨hsum, UInt64.le_iff_toNat_le.mpr ?_⟩
  omega

section

variable {q next : TrackedSegment}

/-- An old segment in a grown piece is in one of its two parts. -/
theorem Accounts.inside_or (hq : Accounts old q) (hnext : Accounts old next)
    (hvalid : ∀ o ∈ old, o.Valid) (hcontinued : q.continuedBy next = true) {o : TrackedSegment}
    (ho : o ∈ old) (hoverlap : o.overlaps (q.extendBy next) = true) :
    o.Inside q ∨ o.Inside next := by
  have hadjacent := (continuedBy_iff.mp hcontinued).1
  obtain ⟨hlow, hhigh⟩ := Span.overlaps_iff.mp hoverlap
  have hlow : o.first ≤ next.last := hlow
  have hhigh : q.first ≤ o.last := hhigh
  by_cases hreaches : o.first ≤ q.last
  · exact Or.inl (hq.whole o ho (Span.overlaps_iff.mpr ⟨hreaches, hhigh⟩))
  · refine Or.inr (hnext.whole o ho (Span.overlaps_iff.mpr ⟨hlow, ?_⟩))
    have hle := (hvalid o ho).first_le_last
    grind

theorem Accounts.extendBy (hq : Accounts old q) (hnext : Accounts old next)
    (hvalid : ∀ o ∈ old, o.Valid) (hcontinued : q.continuedBy next = true) :
    Accounts old (q.extendBy next) := by
  obtain ⟨hadjacent, hstate⟩ := continuedBy_iff.mp hcontinued
  have hlt := lt_of_continuedBy hq.valid hnext.valid hcontinued
  have hqle := hq.valid.first_le_last
  have hnextle := hnext.valid.first_le_last
  obtain ⟨hsum, hfits⟩ := copied_add_le hq.valid hnext.valid hcontinued
  have hgrown : ∀ o : TrackedSegment, o.Inside q ∨ o.Inside next →
        o.Inside (q.extendBy next) := by
    rintro o (⟨hfirst, hlast⟩ | ⟨hfirst, hlast⟩)
    · have hlast' : o.last ≤ next.last := by grind
      exact ⟨hfirst, hlast'⟩
    · have hfirst' : q.first ≤ o.first := by grind
      exact ⟨hfirst', hlast⟩
  have hdivided : ∀ o ∈ old, o.Inside (q.extendBy next) ↔ o.Inside q ∨ o.Inside next :=
    fun o ho => ⟨fun hinside => hq.inside_or hnext hvalid hcontinued ho
      (hinside.overlaps (hvalid o ho).first_le_last), hgrown o⟩
  refine ⟨valid_extendBy hq.valid (by grind), fun o ho hoverlap =>
    hgrown o (hq.inside_or hnext hvalid hcontinued ho hoverlap), fun hnotTransferred => ?_,
    fun hfailed => ?_⟩
  · rw [state_extendBy] at hnotTransferred
    have hapart : ∀ o ∈ old, ¬(o.Inside q ∧ o.Inside next) := by
      rintro o ho ⟨⟨-, hlast⟩, ⟨hfirst, -⟩⟩
      have hle := (hvalid o ho).first_le_last
      grind
    have hcopied : (q.extendBy next).progress.copied =
        q.progress.copied + next.progress.copied := by
      rw [state] at hnotTransferred
      rw [TrackedSegment.extendBy, Progress.restate, hnotTransferred]
      exact (UInt64.min_def ..).trans (if_pos hfits)
    rw [creditIn_add hdivided hapart, hcopied, hsum, hq.summed hnotTransferred,
      hnext.summed (hstate ▸ hnotTransferred)]
  · rw [state_extendBy] at hfailed
    obtain ⟨o, ho, hofailed, hinside, hcopied, hlowest⟩ := hq.lowest hfailed
    have hsame : (q.extendBy next).progress.copied = q.progress.copied := by
      have hle : q.progress.copied ≤ q.progress.copied + next.progress.copied := by
        rw [UInt64.le_iff_toNat_le, hsum]
        exact Nat.le_add_right _ _
      rw [state] at hfailed
      simp only [TrackedSegment.extendBy, Progress.restate, hfailed]
      rw [UInt64.min_def _ (Span.length _), if_pos hfits, UInt64.min_def, if_pos hle]
    refine ⟨o, ho, hofailed, hgrown o (Or.inl hinside), hsame.trans hcopied,
      fun o' ho' hfailed' hinside' => ?_⟩
    rcases (hdivided o' ho').mp hinside' with hpart | hpart
    · exact hlowest o' ho' hfailed' hpart
    · have hafter := hpart.1
      have hbefore := hinside.2
      have hle := (hvalid o ho).first_le_last
      grind

end

/-! ## The whole result -/

theorem accounts_of_mem_overlaid {fresh : List TrackedSegment} {f : TrackedSegment}
    (h : Reconcilable old fresh) (hcontained : Contained old fresh) (hf : f ∈ fresh)
    (hprogress : f.progress = .notTransferred 0) {q : TrackedSegment} (hq : q ∈ overlaid old f) :
    Accounts old q := by
  have hpieces : ∀ p ∈ pieces old f, Accounts old p := by
    intro p hp
    rcases h.gap_or_whole_of_mem_pieces hcontained hf hp with ⟨heq, hclear⟩ | ⟨o, ho, rfl⟩
    · have hbounds := (h.tiles_pieces hf).bounds (h.last_lt f hf) hp
      have hfirst := (h.valid_fresh f hf).first_nonneg
      have hp' : p = ⟨p.toSpan, .notTransferred 0⟩ := by rw [← hprogress, ← heq]
      refine accounts_of_clear h.valid_old ?_ (heq.trans hprogress) hclear
      rw [hp']
      exact valid_notTransferred (Int64.le_trans hfirst hbounds.1) hbounds.2.1
    · rw [hprogress, Progress.join_notTransferred_zero (h.valid_old o ho).progress_wellFormed]
      exact accounts_self h.apart_old h.valid_old ho
  refine forall_joined (fun o ho => ?_) (fun q hq next hnext hcontinued => ?_) q hq
  · rw [restated_eq_self (hpieces o ho).valid]
    exact hpieces o ho
  · exact hq.extendBy (hpieces next hnext) h.valid_old hcontinued

/-- Where each old segment lies inside a required range, a segment of the result that was not
transferred has as many addresses copied as all such old segments inside it together, and one that
failed as many as the first old segment inside it that failed. -/
theorem copied_of_reconcile {l : Layout} (hl : l.Valid) {node : NodeId} {trimMark : Address}
    {fresh : List TrackedSegment} (hfresh : l.requirement node trimMark = .ok fresh)
    (hold : Apart old) (hvalid : ∀ o ∈ old, o.Valid) (hcontained : Contained old fresh) :
    ∃ merged, reconcile old fresh = .ok merged ∧ ∀ s ∈ merged,
      (s.state = .notTransferred →
        s.progress.copied.toNat = creditIn .notTransferred old s) ∧
      (s.state = .failed → ∃ o ∈ old, o.state = .failed ∧ o.Inside s ∧
        s.progress.copied = o.progress.copied ∧
          ∀ o' ∈ old, o'.state = .failed → o'.Inside s → o.first ≤ o'.first) := by
  have h := Layout.reconcilable_of_requirement hl hfresh hold hvalid
  refine ⟨reconciled old fresh, reconcile_eq h, fun s hs => ?_⟩
  rcases mem_reconciled.mp hs with ⟨f, hf, hsf⟩ | ⟨o, ho, -⟩
  · obtain ⟨r, -, -, rfl⟩ := (Layout.mem_requirement_iff hl hfresh).mp hf
    by_cases hheld : r.heldBy node = true
    · -- Nothing goes below a restored range.
      have hneed : (Layout.need node trimMark r).state = .restored := by
        rw [state, Layout.need, if_pos hheld]
        rfl
      have hbounds := h.bounds_of_mem_overlaid hf hsf
      have hrestored : s.state = .restored := by
        rcases h.state_of_mem_overlaid hf hsf ⟨Int64.le_refl _, hbounds.2.1⟩ with
          ⟨o, -, -, hstate⟩ | ⟨hstate, -⟩
        · rw [hstate, hneed]
          cases o.state <;> rfl
        · rw [hstate, hneed]
      rw [hrestored]
      exact ⟨fun h => absurd h (by decide), fun h => absurd h (by decide)⟩
    · have hprogress : (Layout.need node trimMark r).progress = .notTransferred 0 :=
        if_neg hheld
      have haccounts := accounts_of_mem_overlaid h hcontained hf hprogress hsf
      exact ⟨haccounts.summed, haccounts.lowest⟩
  · obtain ⟨hmem, hclear⟩ := mem_unclaimed.mp ho
    obtain ⟨f, hf, hinside⟩ := hcontained o hmem
    have hoverlap := hinside.overlaps (hvalid o hmem).first_le_last
    rw [overlaps_comm, hclear f hf] at hoverlap
    cases hoverlap

end

/-! ## Neighbours of one state -/

/-- Two neighbours that were cut short and two that failed, with one address copied of each. -/
def neighbours : List TrackedSegment :=
  [⟨⟨0, 1⟩, .notTransferred 1⟩, ⟨⟨2, 3⟩, .notTransferred 1⟩, ⟨⟨4, 5⟩, .failed 1 ⟨"reset"⟩⟩,
    ⟨⟨6, 7⟩, .failed 1 ⟨"gone"⟩⟩]

/-- The region that the neighbours are parts of. -/
def wholeRegion : Layout := ⟨1, [⟨0, 8, [⟨["a"]⟩]⟩]⟩

def wholeRange : TrackedSegment := ⟨⟨0, 7⟩, .notTransferred 0⟩

theorem valid_wholeRegion : wholeRegion.Valid := by decide +kernel

theorem requirement_wholeRegion : wholeRegion.requirement "n" (-1) = .ok [wholeRange] := by
  decide +kernel

theorem apart_neighbours : Apart neighbours := by
  unfold Apart
  decide +kernel

theorem valid_neighbours : ∀ o ∈ neighbours, o.Valid := by
  simp only [neighbours, List.forall_mem_cons]
  exact ⟨⟨by decide +kernel, by decide⟩, ⟨by decide +kernel, by decide⟩,
    ⟨by decide +kernel, by decide⟩, ⟨by decide +kernel, by decide⟩, by simp⟩

theorem contained_neighbours : Contained neighbours [wholeRange] := by
  unfold Contained
  decide +kernel

theorem reconciled_neighbours : reconciled neighbours [wholeRange] =
    [⟨⟨0, 3⟩, .notTransferred 2⟩, ⟨⟨4, 7⟩, .failed 1 ⟨"reset"⟩⟩] := by
  have hshared : neighbours.filter (·.overlaps wholeRange) = neighbours := by decide +kernel
  have hsorted : neighbours.Pairwise fun s t => startsBy s t = true := by decide +kernel
  have hjoined : overlaid neighbours wholeRange =
      [⟨⟨0, 3⟩, .notTransferred 2⟩, ⟨⟨4, 7⟩, .failed 1 ⟨"reset"⟩⟩] := by
    rw [overlaid, pieces, hshared, List.mergeSort_of_pairwise hsorted]
    rfl
  have hclaimed : unclaimed neighbours [wholeRange] = [] := by decide +kernel
  rw [reconciled, List.flatMap_cons, List.flatMap_nil, hjoined, hclaimed]
  exact List.mergeSort_of_pairwise (by decide +kernel)

theorem reconcile_neighbours : reconcile neighbours [wholeRange] =
    .ok [⟨⟨0, 3⟩, .notTransferred 2⟩, ⟨⟨4, 7⟩, .failed 1 ⟨"reset"⟩⟩] := by
  rw [reconcile_eq (Layout.reconcilable_of_requirement valid_wholeRegion requirement_wholeRegion
    apart_neighbours valid_neighbours), reconciled_neighbours]

/-- The neighbours that were cut short become one segment with both addresses. -/
theorem copied_of_reconcile_neighbours :
    wholeRegion.Valid ∧ wholeRegion.requirement "n" (-1) = .ok [wholeRange] ∧ Apart neighbours ∧
      (∀ o ∈ neighbours, o.Valid) ∧ Contained neighbours [wholeRange] ∧
        creditIn .notTransferred neighbours ⟨⟨0, 3⟩, .notTransferred 2⟩ = 2 := by
  refine ⟨valid_wholeRegion, requirement_wholeRegion, apart_neighbours, valid_neighbours,
    contained_neighbours, ?_⟩
  obtain ⟨merged, hmerged, hcopied⟩ := copied_of_reconcile valid_wholeRegion
    requirement_wholeRegion apart_neighbours valid_neighbours contained_neighbours
  rw [reconcile_neighbours] at hmerged
  cases hmerged
  exact ((hcopied _ List.mem_cons_self).1 rfl).symm

/-- Not every segment that was not transferred or failed keeps the counts of all old segments of
its state: the failed neighbours become one segment with the address of the first alone. -/
theorem failed_counts_lost :
    ¬∀ (l : Layout) (node : NodeId) (trimMark : Address) (old fresh merged : List TrackedSegment),
      l.Valid → l.requirement node trimMark = .ok fresh → Apart old → (∀ o ∈ old, o.Valid) →
        Contained old fresh → reconcile old fresh = .ok merged →
          ∀ s ∈ merged, s.state = .notTransferred ∨ s.state = .failed →
            s.progress.copied.toNat = creditIn s.state old s := by
  intro hkept
  have hone := hkept wholeRegion "n" (-1) neighbours [wholeRange] _ valid_wholeRegion
    requirement_wholeRegion apart_neighbours valid_neighbours contained_neighbours
    reconcile_neighbours ⟨⟨4, 7⟩, .failed 1 ⟨"reset"⟩⟩ (by simp) (Or.inr rfl)
  have htwo : creditIn .failed neighbours ⟨⟨4, 7⟩, .failed 1 ⟨"reset"⟩⟩ = 2 := by decide +kernel
  rw [show (⟨⟨4, 7⟩, .failed 1 ⟨"reset"⟩⟩ : TrackedSegment).state = .failed from rfl, htwo] at hone
  exact absurd hone (by decide)

end TrackedSegment

end LogRepair
