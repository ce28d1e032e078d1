import LogRepair.Proofs.Tracked.Reconcile

/-!
# What a reconciliation says of each address

Seen address by address, a reconciliation takes the higher of the fresh state and the old one.

* `TrackedSegment.state_ne_of_joined`: joined pieces that touch differ in their states.
* `TrackedSegment.exists_failed_of_joined`: a joined piece that failed has its cause from a piece.
* `TrackedSegment.reconciled_of_perm`: the order of the two lists does not matter.
* `TrackedSegment.reconcile_pointwise`: all this of the result of a reconciliation.
-/

namespace LogRepair

theorem Progress.failure_restate {p : Progress} (hp : p.state = .failed) (copied length : UInt64) :
    (p.restate copied length).failure = p.failure := by
  simp [restate, hp]

namespace TrackedSegment

/-! ## Joined pieces -/

section

variable {first last : Address}

/-- Joining keeps the state of the open piece at its beginning. -/
theorem state_of_mem_joinAfter {p : TrackedSegment} {rest : List TrackedSegment}
    (hlast : last < Int64.maxValue) (h : Tiles first last (p :: rest)) {q : TrackedSegment}
    (hq : q ∈ joinAfter p rest) (hfirst : q.first = first) : q.state = p.state := by
  induction rest generalizing p with
  | nil => rw [List.mem_singleton.mp hq]
  | cons next rest ih =>
    unfold joinAfter at hq
    split at hq
    · rw [ih (h.extendBy hlast) hq, state_extendBy]
    · rcases List.mem_cons.mp hq with rfl | hq
      · rfl
      · have hp := h.bounds hlast List.mem_cons_self
        have hafter := (tiles_joinAfter hlast h.tail.restated).bounds hlast hq
        grind

theorem state_ne_of_joinAfter {p : TrackedSegment} {rest : List TrackedSegment}
    (hlast : last < Int64.maxValue) (h : Tiles first last (p :: rest)) {s t : TrackedSegment}
    (hs : s ∈ joinAfter p rest) (ht : t ∈ joinAfter p rest) (hadjacent : s.last + 1 = t.first) :
    s.state ≠ t.state := by
  induction rest generalizing first p with
  | nil =>
    obtain rfl := List.mem_singleton.mp hs
    obtain rfl := List.mem_singleton.mp ht
    have hbounds := h.bounds hlast List.mem_cons_self
    grind
  | cons next rest ih =>
    have hp := h.bounds hlast List.mem_cons_self
    unfold joinAfter at hs ht
    split at hs
    · next hcontinued =>
      rw [if_pos hcontinued] at ht
      exact ih (h.extendBy hlast) hs ht
    · next hcontinued =>
      rw [if_neg hcontinued] at ht
      have hrest := tiles_joinAfter hlast h.tail.restated
      rcases List.mem_cons.mp hs with rfl | hs
      · rcases List.mem_cons.mp ht with rfl | ht
        · grind
        · -- The piece that follows the open one begins as the next one did, in its state.
          have hstate := state_of_mem_joinAfter hlast h.tail.restated ht hadjacent.symm
          rw [state_restated] at hstate
          have hnext : next.first = s.last + 1 := h.tail.1
          intro heq
          exact hcontinued (continuedBy_iff.mpr ⟨hnext.symm, heq.trans hstate⟩)
      · have hbounds := hrest.bounds hlast hs
        rcases List.mem_cons.mp ht with rfl | ht
        · grind
        · exact ih h.tail.restated hs ht

/-- Joined pieces that follow each other without gap differ in their states. -/
theorem state_ne_of_joined (hlast : last < Int64.maxValue) {pieces : List TrackedSegment}
    (h : Tiles first last pieces) {s t : TrackedSegment} (hs : s ∈ joinNeighbours pieces)
    (ht : t ∈ joinNeighbours pieces) (hadjacent : s.last + 1 = t.first) : s.state ≠ t.state := by
  cases pieces with
  | nil => cases hs
  | cons p rest => exact state_ne_of_joinAfter hlast h.restated hs ht hadjacent

/-- A joined piece that failed contains a piece that failed for the same cause. -/
theorem exists_failed_of_joined (hlast : last < Int64.maxValue) {pieces : List TrackedSegment}
    (h : Tiles first last pieces) {q : TrackedSegment} (hq : q ∈ joinNeighbours pieces)
    (hfailed : q.state = .failed) :
    ∃ o ∈ pieces, o.state = .failed ∧ o.progress.failure = q.progress.failure ∧
      q.first ≤ o.first ∧ o.last ≤ q.last := by
  refine (forall_joined (P := fun q => q.last ≤ last ∧ (q.state = .failed →
      ∃ o ∈ pieces, o.state = .failed ∧ o.progress.failure = q.progress.failure ∧
        q.first ≤ o.first ∧ o.last ≤ q.last))
    (fun o ho => ?_) (fun q hq next hnext hcontinued => ?_) q hq).2 hfailed
  · refine ⟨(h.bounds hlast ho).2.2, fun hstate => ?_⟩
    rw [state_restated] at hstate
    exact ⟨o, ho, hstate, (Progress.failure_restate hstate _ _).symm, Int64.le_refl _,
      Int64.le_refl _⟩
  · -- The grown piece has the cause of the open one, which it contains.
    have hbounds := h.bounds hlast hnext
    have hadjacent := (continuedBy_iff.mp hcontinued).1
    refine ⟨hbounds.2.2, fun hstate => ?_⟩
    rw [state_extendBy] at hstate
    obtain ⟨o, ho, hfailed, hfailure, hfirst, hend⟩ := hq.2 hstate
    have hgrown : (q.extendBy next).last = next.last := rfl
    refine ⟨o, ho, hfailed, ?_, hfirst, by grind⟩
    rw [hfailure, extendBy, Progress.failure_restate hstate]

end

/-! ## Segments inside others -/

/-- The segment `t` has every address of the segment `s`. -/
def Inside (s t : TrackedSegment) : Prop := t.first ≤ s.first ∧ s.last ≤ t.last

instance (s t : TrackedSegment) : Decidable (s.Inside t) :=
  inferInstanceAs (Decidable (t.first ≤ s.first ∧ s.last ≤ t.last))

theorem Inside.mem {s t : TrackedSegment} (h : s.Inside t) {x : Address} (hx : x ∈ s.toSpan) :
    x ∈ t.toSpan :=
  ⟨Int64.le_trans h.1 hx.1, Int64.le_trans hx.2 h.2⟩

/-- Two segments of a list that shares no address are the same, or one ends before the other. -/
theorem Apart.eq_or_lt {tracked : List TrackedSegment} (h : Apart tracked) {s t : TrackedSegment}
    (hs : s ∈ tracked) (ht : t ∈ tracked) : s = t ∨ t.last < s.first ∨ s.last < t.first := by
  cases hoverlap : s.overlaps t with
  | true => exact Or.inl (h.eq_of_overlaps hs ht hoverlap)
  | false => exact Or.inr (overlaps_eq_false_iff.mp hoverlap)

/-- No segment of an ascending list lies between two that follow each other in it. -/
theorem Ascending.not_between {tracked : List TrackedSegment} (h : Ascending tracked)
    (hne : ∀ s ∈ tracked, s.first ≤ s.last) {i : Nat} {s t u : TrackedSegment}
    (hs : tracked[i]? = some s) (ht : tracked[i + 1]? = some t) (hu : u ∈ tracked) :
    ¬(s.last < u.first ∧ u.last < t.first) := by
  obtain ⟨j, hj, rfl⟩ := List.mem_iff_getElem.mp hu
  obtain ⟨hi, rfl⟩ := List.getElem?_eq_some_iff.mp hs
  obtain ⟨hi', rfl⟩ := List.getElem?_eq_some_iff.mp ht
  rintro ⟨hsu, hut⟩
  have horder := List.pairwise_iff_getElem.mp h
  have hbounds := fun k (hk : k < tracked.length) => hne tracked[k] (List.getElem_mem hk)
  rcases Nat.lt_or_ge i j with hij | hij
  · -- The segment at `j` stands after the second one or is that one.
    have hend := hbounds j hj
    rcases Nat.lt_or_ge (i + 1) j with hlt | hle
    · have hafter := horder (i + 1) j hi' hj hlt
      have hsecond := hbounds (i + 1) hi'
      grind
    · obtain rfl : j = i + 1 := by omega
      grind
  · have hend := hbounds j hj
    rcases Nat.lt_or_ge j i with hlt | hle
    · have hbefore := horder j i hj hi hlt
      have hfirst := hbounds i hi
      grind
    · obtain rfl : j = i := by omega
      grind

/-- An ascending list is determined by its members. -/
theorem Ascending.eq_of_perm {tracked tracked' : List TrackedSegment} (h : Ascending tracked)
    (h' : Ascending tracked') (hne : ∀ s ∈ tracked, s.first ≤ s.last)
    (hperm : tracked.Perm tracked') : tracked = tracked' := by
  refine hperm.eq_of_pairwise (fun s t hs ht hst hts => ?_) h h'
  have hbounds := hne s hs
  have hbounds' := hne t (hperm.mem_iff.mpr ht)
  grind

/-! ## The whole result -/

section

variable {old fresh old' fresh' : List TrackedSegment} {f : TrackedSegment}

/-- What of the result overlaps a fresh segment is one of its joined pieces. -/
theorem Reconcilable.mem_overlaid_of_overlaps (h : Reconcilable old fresh) (hf : f ∈ fresh)
    {s : TrackedSegment} (hs : s ∈ reconciled old fresh) (hoverlap : s.overlaps f = true) :
    s ∈ overlaid old f := by
  obtain ⟨x, hxs, hxf⟩ := Span.exists_mem_of_overlaps (valid_of_mem_reconciled h hs).first_le_last
    (h.valid_fresh f hf).first_le_last hoverlap
  rcases mem_reconciled.mp hs with ⟨g, hg, hsg⟩ | ⟨o, ho, rfl⟩
  · have hxg := h.mem_of_mem_overlaid hg hsg hxs
    rwa [h.apart_fresh.eq_of_overlaps hf hg (Span.overlaps_of_mem hxf hxg)]
  · have hclear := (mem_unclaimed.mp ho).2 f hf
    rw [toSpan_carriedOn] at hxs
    rw [overlaps, Span.overlaps_of_mem hxf hxs] at hclear
    cases hclear

theorem Reconcilable.mem_overlaid_of_inside (h : Reconcilable old fresh) (hf : f ∈ fresh)
    {s : TrackedSegment} (hs : s ∈ reconciled old fresh) (hinside : s.Inside f) :
    s ∈ overlaid old f := by
  have hxs : s.first ∈ s.toSpan := ⟨Int64.le_refl _, (valid_of_mem_reconciled h hs).first_le_last⟩
  exact h.mem_overlaid_of_overlaps hf hs (Span.overlaps_of_mem hxs (hinside.mem hxs))

theorem stateAt?_reconciled (h : Reconcilable old fresh) (hf : f ∈ fresh) {x : Address}
    (hx : x ∈ f.toSpan) :
    (∃ o ∈ old, x ∈ o.toSpan ∧
        stateAt? (reconciled old fresh) x = some (o.state.higher f.state)) ∨
      stateAt? (reconciled old fresh) x = some f.state ∧ ∀ o ∈ old, x ∉ o.toSpan := by
  obtain ⟨s, hs, hxs⟩ := (h.tiles_overlaid hf).exists_mem hx.1 hx.2
  have hstate : stateAt? (reconciled old fresh) x = some s.state := by
    rw [stateAt?_eq_some_iff (ascending_reconciled h)]
    exact ⟨s, mem_reconciled.mpr (Or.inl ⟨f, hf, hs⟩), hxs, rfl⟩
  rw [hstate]
  rcases h.state_of_mem_overlaid hf hs hxs with ⟨o, ho, hxo, heq⟩ | ⟨heq, houtside⟩
  · exact Or.inl ⟨o, ho, hxo, by rw [heq]⟩
  · exact Or.inr ⟨by rw [heq], houtside⟩

/-- Neighbours in the result that lie inside one fresh segment differ in their states. -/
theorem state_ne_of_reconciled (h : Reconcilable old fresh) (hf : f ∈ fresh) {i : Nat}
    {s t : TrackedSegment} (hs : (reconciled old fresh)[i]? = some s)
    (ht : (reconciled old fresh)[i + 1]? = some t) (hsf : s.Inside f) (htf : t.Inside f) :
    s.state ≠ t.state := by
  have hmem := h.mem_overlaid_of_inside hf (List.mem_of_getElem? hs) hsf
  have hmem' := h.mem_overlaid_of_inside hf (List.mem_of_getElem? ht) htf
  by_cases hadjacent : s.last + 1 = t.first
  · exact state_ne_of_joined (h.last_lt f hf) (h.tiles_pieces hf) hmem hmem' hadjacent
  · -- Another piece would begin in the gap and stand between the two.
    have hasc := ascending_reconciled h
    have hne : ∀ u ∈ reconciled old fresh, u.first ≤ u.last := fun u hu =>
      (valid_of_mem_reconciled h hu).first_le_last
    obtain ⟨hi, rfl⟩ := List.getElem?_eq_some_iff.mp hs
    obtain ⟨hi', rfl⟩ := List.getElem?_eq_some_iff.mp ht
    have hlt := List.pairwise_iff_getElem.mp hasc i (i + 1) hi hi' (Nat.lt_succ_self i)
    have hfirst := hne _ (List.getElem_mem hi)
    have hend := hne _ (List.getElem_mem hi')
    obtain ⟨hsf₁, hsf₂⟩ := hsf
    obtain ⟨htf₁, htf₂⟩ := htf
    obtain ⟨u, hu, hxu⟩ := (h.tiles_overlaid hf).exists_mem
      (x := (reconciled old fresh)[i].last + 1) (by grind) (by grind)
    have humem : u ∈ reconciled old fresh := mem_reconciled.mpr (Or.inl ⟨f, hf, hu⟩)
    rw [Span.mem_iff] at hxu
    refine absurd ⟨?_, ?_⟩ (hasc.not_between hne hs ht humem)
    · rcases hasc.apart.eq_or_lt humem (List.getElem_mem hi) with heq | hlt' | hlt' <;> grind
    · rcases hasc.apart.eq_or_lt humem (List.getElem_mem hi') with heq | hlt' | hlt' <;> grind

/-- A failed segment of the result has its cause from a failed segment that it overlaps. -/
theorem exists_failed_of_reconciled (h : Reconcilable old fresh) {s : TrackedSegment}
    (hs : s ∈ reconciled old fresh) (hfailed : s.state = .failed) :
    ∃ g ∈ old ++ fresh, g.state = .failed ∧ g.overlaps s = true ∧
      g.progress.failure = s.progress.failure := by
  rcases mem_reconciled.mp hs with ⟨f, hf, hsf⟩ | ⟨o, ho, rfl⟩
  · obtain ⟨p, hp, hstate, hfailure, hfirst, hlast⟩ :=
      exists_failed_of_joined (h.last_lt f hf) (h.tiles_pieces hf) hsf hfailed
    have hne := (h.tiles_pieces hf).bounds (h.last_lt f hf) hp
    have hxp : p.first ∈ p.toSpan := ⟨Int64.le_refl _, hne.2.1⟩
    have hxs : p.first ∈ s.toSpan := ⟨hfirst, Int64.le_trans hne.2.1 hlast⟩
    have hxf := h.mem_of_mem_pieces hf hp hxp
    have hinput : p.progress = f.progress ∨
        ∃ o ∈ old, p.first ∈ o.toSpan ∧ p.progress = o.progress := by
      rcases h.progress_of_mem_pieces hf hp hxp with ⟨o, ho, hxo, heq⟩ | ⟨heq, -⟩
      · rcases o.progress.join_eq_or f.progress with hjoin | hjoin
        · exact Or.inr ⟨o, ho, hxo, heq.trans hjoin⟩
        · exact Or.inl (heq.trans hjoin)
      · exact Or.inl heq
    rw [state] at hstate
    rcases hinput with heq | ⟨o, ho, hxo, heq⟩
    · rw [heq] at hstate hfailure
      exact ⟨f, List.mem_append_right _ hf, hstate, Span.overlaps_of_mem hxf hxs, hfailure⟩
    · rw [heq] at hstate hfailure
      exact ⟨o, List.mem_append_left _ ho, hstate, Span.overlaps_of_mem hxo hxs, hfailure⟩
  · have hold := (mem_unclaimed.mp ho).1
    have hsame : carriedOn o = o := carriedOn_eq_self fun hrestored => by
      rw [hfailed] at hrestored
      cases hrestored
    rw [hsame] at hfailed ⊢
    exact ⟨o, List.mem_append_left _ hold, hfailed,
      overlaps_self (h.valid_old o hold).fault_eq_none, rfl⟩

/-! ## The order of the two lists -/

theorem Apart.of_perm {tracked tracked' : List TrackedSegment} (h : Apart tracked)
    (hperm : tracked'.Perm tracked) : Apart tracked' := by
  refine List.Perm.pairwise hperm.symm h ?_
  intro s t hst
  rwa [overlaps_comm]

theorem Reconcilable.of_perm (h : Reconcilable old fresh) (hold : old'.Perm old)
    (hfresh : fresh'.Perm fresh) : Reconcilable old' fresh' where
  apart_old := h.apart_old.of_perm hold
  valid_old s hs := h.valid_old s (hold.mem_iff.mp hs)
  apart_fresh := h.apart_fresh.of_perm hfresh
  valid_fresh s hs := h.valid_fresh s (hfresh.mem_iff.mp hs)
  last_lt s hs := h.last_lt s (hfresh.mem_iff.mp hs)

theorem Reconcilable.overlaid_of_perm (h : Reconcilable old fresh) (hold : old'.Perm old) :
    overlaid old' f = overlaid old f := by
  have hsorted : (old'.filter (·.overlaps f)).mergeSort startsBy =
      (old.filter (·.overlaps f)).mergeSort startsBy := by
    have hcut := (h.of_perm hold (.refl fresh)).cuttable (f := f)
    refine hcut.ascending.eq_of_perm h.cuttable.ascending hcut.nonempty ?_
    exact (List.mergeSort_perm _ _).trans
      ((hold.filter _).trans (List.mergeSort_perm _ _).symm)
  rw [overlaid, pieces, hsorted]
  rfl

theorem reconciled_of_perm (h : Reconcilable old fresh) (hold : old'.Perm old)
    (hfresh : fresh'.Perm fresh) : reconciled old' fresh' = reconciled old fresh := by
  have h' := h.of_perm hold hfresh
  have hclaimed : (fresh'.flatMap (overlaid old')).Perm (fresh.flatMap (overlaid old)) := by
    have hoverlaid : overlaid old' = overlaid old := funext fun f => h.overlaid_of_perm hold
    rw [hoverlaid]
    exact hfresh.flatMap_right _
  have hcarried : (unclaimed old' fresh').Perm (unclaimed old fresh) := by
    unfold unclaimed
    have hany : (fun o : TrackedSegment => !fresh'.any (·.overlaps o)) =
        fun o => !fresh.any (·.overlaps o) := funext fun o => by rw [hfresh.any_eq]
    rw [hany]
    exact hold.filter _
  refine (ascending_reconciled h').eq_of_perm (ascending_reconciled h)
    (fun s hs => (valid_of_mem_reconciled h' hs).first_le_last) ?_
  exact (List.mergeSort_perm _ _).trans
    ((hclaimed.append (hcarried.map carriedOn)).trans (List.mergeSort_perm _ _).symm)

end

/-! ## What a reconciliation is -/

/-- The list `merged` has the progress of the old segments in the ranges of the fresh ones. -/
structure Reconciliation (old fresh merged : List TrackedSegment) : Prop where
  ascending : Ascending merged
  valid : ∀ s ∈ merged, s.Valid
  /-- Where an old and a fresh segment share an address, the higher state counts. -/
  state_shared : ∀ f ∈ fresh, ∀ o ∈ old, ∀ x, x ∈ f.toSpan → x ∈ o.toSpan →
    stateAt? merged x = some (o.state.higher f.state)
  state_fresh : ∀ f ∈ fresh, ∀ x ∈ f.toSpan, (∀ o ∈ old, x ∉ o.toSpan) →
    stateAt? merged x = some f.state
  /-- An address outside every fresh segment is one of an old segment that overlaps none. -/
  outside : ∀ s ∈ merged, ∀ x ∈ s.toSpan, (∀ f ∈ fresh, x ∉ f.toSpan) →
    ∃ o ∈ old, (∀ f ∈ fresh, f.overlaps o = false) ∧ x ∈ o.toSpan
  /-- Such an old segment goes on as it is, but restored if it was copied. -/
  carried : ∀ o ∈ old, (∀ f ∈ fresh, f.overlaps o = false) → carriedOn o ∈ merged
  /-- Every other segment lies inside a fresh one. -/
  inside : ∀ s ∈ merged,
    (∃ o ∈ old, (∀ f ∈ fresh, f.overlaps o = false) ∧ s = carriedOn o) ∨ ∃ f ∈ fresh, s.Inside f
  /-- A fresh segment is split only where the states differ. -/
  borders : ∀ i s t, merged[i]? = some s → merged[i + 1]? = some t →
    ∀ f ∈ fresh, s.Inside f → t.Inside f → s.state ≠ t.state
  cause : ∀ s ∈ merged, s.state = .failed →
    ∃ g ∈ old ++ fresh, g.state = .failed ∧ g.overlaps s = true ∧
      g.progress.failure = s.progress.failure

theorem reconciliation_reconciled {old fresh : List TrackedSegment} (h : Reconcilable old fresh) :
    Reconciliation old fresh (reconciled old fresh) := by
  have hinside : ∀ s ∈ reconciled old fresh,
      (∃ o ∈ old, (∀ f ∈ fresh, f.overlaps o = false) ∧ s = carriedOn o) ∨
        ∃ f ∈ fresh, s.Inside f := by
    intro s hs
    rcases mem_reconciled.mp hs with ⟨f, hf, hsf⟩ | ⟨o, ho, rfl⟩
    · have hbounds := h.bounds_of_mem_overlaid hf hsf
      exact Or.inr ⟨f, hf, hbounds.1, hbounds.2.2⟩
    · exact Or.inl ⟨o, (mem_unclaimed.mp ho).1, (mem_unclaimed.mp ho).2, rfl⟩
  refine ⟨ascending_reconciled h, fun s hs => valid_of_mem_reconciled h hs, ?_, ?_, ?_, ?_, hinside,
    fun i s t hs ht f hf => state_ne_of_reconciled h hf hs ht,
    fun s hs => exists_failed_of_reconciled h hs⟩
  · intro f hf o ho x hxf hxo
    rcases stateAt?_reconciled h hf hxf with ⟨o', ho', hxo', hstate⟩ | ⟨-, houtside⟩
    · rwa [h.apart_old.eq_of_overlaps ho ho' (Span.overlaps_of_mem hxo hxo')]
    · exact absurd hxo (houtside o ho)
  · intro f hf x hxf houtside
    rcases stateAt?_reconciled h hf hxf with ⟨o, ho, hxo, -⟩ | ⟨hstate, -⟩
    · exact absurd hxo (houtside o ho)
    · exact hstate
  · intro s hs x hx houtside
    rcases hinside s hs with ⟨o, ho, hclear, rfl⟩ | ⟨f, hf, hsf⟩
    · rw [toSpan_carriedOn] at hx
      exact ⟨o, ho, hclear, hx⟩
    · exact absurd (hsf.mem hx) (houtside f hf)
  · intro o ho hclear
    exact mem_reconciled.mpr (Or.inr ⟨o, mem_unclaimed.mpr ⟨ho, hclear⟩, rfl⟩)

/-- Two lists of valid segments that each share no address, in whatever order they stand, are
reconciled to one and the same list, which has at each address of a fresh segment the higher of the
fresh state and the old one, and beyond them only what no fresh segment overlaps. -/
theorem reconcile_pointwise {old fresh : List TrackedSegment} (h : Reconcilable old fresh) :
    ∃ merged, Reconciliation old fresh merged ∧
      ∀ old' fresh', old'.Perm old → fresh'.Perm fresh → reconcile old' fresh' = .ok merged := by
  refine ⟨reconciled old fresh, reconciliation_reconciled h, fun old' fresh' hold hfresh => ?_⟩
  rw [reconcile_eq (h.of_perm hold hfresh), reconciled_of_perm h hold hfresh]

/-- A failed range and a copied one reach into fresh ranges from outside, in no order, and a copied
one is required no more. -/
theorem reconcile_pointwise_of_unsorted :
    let failed : TrackedSegment := ⟨⟨8, 12⟩, .failed 2 ⟨"reset"⟩⟩
    let copied : TrackedSegment := ⟨⟨0, 5⟩, .transferred 6⟩
    let unneeded : TrackedSegment := ⟨⟨20, 22⟩, .transferred 3⟩
    let upper : TrackedSegment := ⟨⟨10, 15⟩, .notTransferred 0⟩
    let lower : TrackedSegment := ⟨⟨3, 9⟩, .notTransferred 0⟩
    ∃ merged, reconcile [failed, copied, unneeded] [upper, lower] = .ok merged ∧
      reconcile [copied, failed, unneeded] [lower, upper] = .ok merged ∧
      stateAt? merged 5 = some .transferred ∧ stateAt? merged 6 = some .notTransferred ∧
      stateAt? merged 11 = some .failed ∧ ⟨⟨20, 22⟩, .restored 3⟩ ∈ merged := by
  intro failed copied unneeded upper lower
  have hvalid : ∀ s ∈ [failed, copied, unneeded] ++ [upper, lower], s.Valid := by
    simp only [List.cons_append, List.nil_append, List.forall_mem_cons]
    exact ⟨⟨by decide +kernel, by decide⟩, ⟨by decide +kernel, by decide⟩,
      ⟨by decide +kernel, by decide⟩, ⟨by decide +kernel, by decide⟩,
      ⟨by decide +kernel, by decide⟩, by simp⟩
  have hrec : Reconcilable [failed, copied, unneeded] [upper, lower] :=
    ⟨by unfold Apart; decide +kernel, fun s hs => hvalid s (List.mem_append_left _ hs),
      by unfold Apart; decide +kernel, fun s hs => hvalid s (List.mem_append_right _ hs),
      by decide +kernel⟩
  have hrestored : carriedOn unneeded = ⟨⟨20, 22⟩, .restored 3⟩ := by decide +kernel
  obtain ⟨merged, hmerged, hperm⟩ := reconcile_pointwise hrec
  refine ⟨merged, hperm _ _ (.refl _) (.refl _), hperm _ _ (.swap _ _ _) (.swap _ _ _), ?_, ?_, ?_,
    ?_⟩
  · exact hmerged.state_shared lower (by simp) copied (by simp) 5 (by decide) (by decide)
  · exact hmerged.state_fresh lower (by simp) 6 (by decide) (by decide +kernel)
  · exact hmerged.state_shared upper (by simp) failed (by simp) 11 (by decide) (by decide)
  · rw [← hrestored]
    exact hmerged.carried unneeded (by simp) (by decide +kernel)

end TrackedSegment

end LogRepair
