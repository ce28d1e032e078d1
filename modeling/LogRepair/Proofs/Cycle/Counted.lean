import LogRepair.Proofs.Cycle.Ledger

/-!
# What the published list counts

The count of a segment that needs a copy is backed by addresses that were copied, as long as no
reconciliation has cut a copied address off it. A reconciliation does not count anew: what is left
of a segment takes over its count, held down to the new length.

* `Coordinator.Blurred`: an address of a segment off which a copied one was cut.
* `Coordinator.Tallied`: what is known at each point of a cycle of the counts.
* `Coordinator.counts_only_copied`: along every run a segment without blurred addresses counts at
  most its addresses that were copied.
* `Coordinator.count_exceeds_copied`: a trim mark that rises into a segment leaves a rest of which
  nothing is copied with the old count.
-/

namespace LogRepair.Coordinator

open TrackedSegment

/-! ## What is copied, and what is cut off -/

/-- The reply reports the address as held, or as written. -/
def Moment.Copies (m : Moment) (x : Address) : Prop :=
  match m.happening with
  | .reply (.checking _ _ _ span) (.ok present) => x ∈ span ∧ x ∈ present
  | .reply (.copying _ _ _ _ batch) (.written addresses) => x ∈ batch.addresses ∧ x ∈ addresses
  | _ => False

/-- Some reply has reported the address as held or as written. -/
def Copied (moments : List Moment) (x : Address) : Prop := ∃ m ∈ moments, m.Copies x

/-- A required segment contains the address, but not some copied one of the segment `s`. -/
def CutsOff (moments : List Moment) (required : List TrackedSegment) (s : TrackedSegment)
    (x : Address) : Prop :=
  ∃ f ∈ required, x ∈ f.toSpan ∧ ∃ y ∈ s.toSpan, y ∉ f.toSpan ∧ Copied moments y

/-- The published list was reconciled from one in which the address was in a segment that needed a
copy, and either this has cut a copied address off that segment, or an address of that segment was
blurred before. A draft that began with the published list has not replaced it. -/
def Blurred : List Moment → List TrackedSegment → Address → Prop
  | [], _, _ => False
  | m :: moments, published, x =>
    match m.happening with
    | .reply (.readingTrimMark layout) (.ok trimMark) =>
      m.before.tracked = published ∧ Blurred moments published x ∨
        m.before.tracked ≠ published ∧ ∃ s ∈ m.before.tracked, s.isDue = true ∧ x ∈ s.toSpan ∧
          ((∃ y ∈ s.toSpan, Blurred moments m.before.tracked y) ∨
            ∃ required, layout.requirement m.before.node trimMark = .ok required ∧
              CutsOff moments required s x)
    | _ => Blurred moments published x

/-- At least `n` addresses of the span are copied. -/
def CopiedWithin (moments : List Moment) (s : Span) (n : Nat) : Prop :=
  ∃ xs : List Address, xs.Nodup ∧ (∀ x ∈ xs, x ∈ s ∧ Copied moments x) ∧ n ≤ xs.length

/-- At least `n` addresses of the span are copied, unless one of them is blurred. -/
def Counts (moments : List Moment) (published : List TrackedSegment) (s : Span) (n : Nat) : Prop :=
  (∃ x ∈ s, Blurred moments published x) ∨ CopiedWithin moments s n

/-- What the list counts of the segments that need a copy is copied, once the list `published` is
the one that is published. -/
def Honest (moments : List Moment) (published tracked : List TrackedSegment) : Prop :=
  ∀ s ∈ tracked, s.isDue = true → Counts moments published s.toSpan s.progress.copied.toNat

/-- The list that is published is honest, and the list `tracked` is when it replaces it. -/
def Accounted (moments : List Moment) (tracked : List TrackedSegment) : Prop :=
  ∃ before, Honest moments before before ∧
    ∀ published, before ≠ published → Honest moments published tracked

section

variable {moments : List Moment} {m : Moment} {c : Coordinator}
  {published tracked tracked' : List TrackedSegment} {x : Address} {s t : Span} {n k : Nat}

theorem Copied.cons (h : Copied moments x) : Copied (m :: moments) x := by
  obtain ⟨m', hm', hcopies⟩ := h
  exact ⟨m', List.mem_cons_of_mem _ hm', hcopies⟩

theorem Copied.of_checked {d : Draft} {w : Workload} {i : Nat} {present : List Address}
    (hx : x ∈ s.toList.filter present.contains) :
    Copied (⟨c, .reply (.checking d w i s) (.ok present)⟩ :: moments) x := by
  obtain ⟨hspan, hpresent⟩ := List.mem_filter.mp hx
  exact ⟨_, List.mem_cons_self, Span.mem_of_mem_toList hspan, List.contains_iff_mem.mp hpresent⟩

theorem Copied.of_written {d : Draft} {w : Workload} {i : Nat} {present : UInt64} {batch : Batch}
    {addresses : List Address} (hx : x ∈ batch.addresses.filter addresses.contains) :
    Copied (⟨c, .reply (.copying d w i present batch) (.written addresses)⟩ :: moments) x := by
  obtain ⟨hbatch, haddresses⟩ := List.mem_filter.mp hx
  exact ⟨_, List.mem_cons_self, hbatch, List.contains_iff_mem.mp haddresses⟩

theorem CopiedWithin.cons (h : CopiedWithin moments s n) : CopiedWithin (m :: moments) s n := by
  obtain ⟨xs, hnodup, hxs, hle⟩ := h
  exact ⟨xs, hnodup, fun x hx => ⟨(hxs x hx).1, (hxs x hx).2.cons⟩, hle⟩

theorem copiedWithin_zero : CopiedWithin moments s 0 :=
  ⟨[], .nil, fun _ hx => absurd hx List.not_mem_nil, Nat.le_refl 0⟩

theorem Counts.mono (hle : k ≤ n) (h : Counts moments published s n) :
    Counts moments published s k := by
  refine h.imp id ?_
  rintro ⟨xs, hnodup, hxs, hn⟩
  exact ⟨xs, hnodup, hxs, Nat.le_trans hle hn⟩

/-- Spans that follow each other share no copied address. -/
theorem Counts.add (hs : s.first ≤ s.last) (hst : s.last < t.first) (ht : t.first ≤ t.last)
    (h : Counts moments published s n) (h' : Counts moments published t k) :
    Counts moments published ⟨s.first, t.last⟩ (n + k) := by
  have hleft : ∀ x ∈ s, x ∈ (⟨s.first, t.last⟩ : Span) := fun x hx => by
    simp only [Span.mem_iff] at hx ⊢
    grind
  have hright : ∀ x ∈ t, x ∈ (⟨s.first, t.last⟩ : Span) := fun x hx => by
    simp only [Span.mem_iff] at hx ⊢
    grind
  rcases h with ⟨x, hx, hblurred⟩ | ⟨xs, hnodup, hxs, hn⟩
  · exact Or.inl ⟨x, hleft x hx, hblurred⟩
  rcases h' with ⟨x, hx, hblurred⟩ | ⟨ys, hnodup', hys, hk⟩
  · exact Or.inl ⟨x, hright x hx, hblurred⟩
  refine Or.inr ⟨xs ++ ys, List.nodup_append.mpr ⟨hnodup, hnodup', fun x hx y hy => ?_⟩,
    fun x hx => ?_, ?_⟩
  · have hxs := (hxs x hx).1
    have hyt := (hys y hy).1
    rw [Span.mem_iff] at hxs hyt
    grind
  · rcases List.mem_append.mp hx with hx | hx
    · exact ⟨hleft x (hxs x hx).1, (hxs x hx).2⟩
    · exact ⟨hright x (hys x hx).1, (hys x hx).2⟩
  · rw [List.length_append]
    omega

theorem Honest.cons (h : Honest moments published tracked)
    (hblurred : ∀ x, Blurred moments published x → Blurred (m :: moments) published x) :
    Honest (m :: moments) published tracked := by
  intro s hs hdue
  refine (h s hs hdue).imp ?_ CopiedWithin.cons
  rintro ⟨x, hx, hx'⟩
  exact ⟨x, hx, hblurred x hx'⟩

/-- The published list stays honest at every moment. -/
theorem Honest.cons_before (h : Honest moments m.before.tracked m.before.tracked) :
    Honest (m :: moments) m.before.tracked m.before.tracked := by
  refine h.cons fun x hx => ?_
  unfold Blurred
  split
  · exact Or.inl ⟨rfl, hx⟩
  · exact hx

/-- Only the moments at which a draft is drawn up can blur anything. -/
theorem Accounted.cons (h : Accounted moments tracked)
    (hblurred : ∀ published x, Blurred moments published x → Blurred (m :: moments) published x) :
    Accounted (m :: moments) tracked := by
  obtain ⟨before, hbefore, htracked⟩ := h
  exact ⟨before, hbefore.cons (hblurred before), fun published hne =>
    (htracked published hne).cons (hblurred published)⟩

theorem Accounted.imp (h : Accounted moments tracked)
    (hhonest : ∀ published, Honest moments published tracked → Honest moments published tracked') :
    Accounted moments tracked' := by
  obtain ⟨before, hbefore, htracked⟩ := h
  exact ⟨before, hbefore, fun published hne => hhonest published (htracked published hne)⟩

theorem Accounted.honest (h : Accounted moments tracked) : Honest moments tracked tracked := by
  obtain ⟨before, hbefore, htracked⟩ := h
  by_cases hkept : before = tracked
  · rwa [hkept] at hbefore
  · exact htracked tracked hkept

end

/-! ## What a cycle makes of the counts -/

section

variable {moments : List Moment} {c : Coordinator} {published : List TrackedSegment}

/-- A piece takes over a count that is backed, unless a copied address was cut off it or the old
segment had lost one before. -/
theorem counts_piece {layout : Layout} {trimMark : Address} {required : List TrackedSegment}
    (hrequired : layout.requirement c.node trimMark = .ok required)
    (hlist : Honest moments c.tracked c.tracked) (hne : c.tracked ≠ published)
    {f p : TrackedSegment} (hf : f ∈ required)
    (hfresh : f.isDue = true → f.progress.copied = 0) (hle : p.first ≤ p.last)
    (hp : p ∈ pieces c.tracked f) (hdue : p.isDue = true) :
    Counts (⟨c, .reply (.readingTrimMark layout) (.ok trimMark)⟩ :: moments) published p.toSpan
      p.progress.copied.toNat := by
  rcases count_of_mem_pieces hfresh hp hdue with hnone | ⟨o, ho, hodue, hprogress, hshared⟩
  · rw [hnone]
    exact Or.inr copiedWithin_zero
  have hfirst : p.first ∈ p.toSpan := ⟨Int64.le_refl _, hle⟩
  obtain ⟨hfo, hff⟩ := (hshared p.first).mp hfirst
  rw [hprogress]
  rcases hlist o ho hodue with hblurred | ⟨xs, hnodup, hxs, hcount⟩
  · exact Or.inl ⟨p.first, hfirst, Or.inr ⟨hne, o, ho, hodue, hfo, Or.inl hblurred⟩⟩
  by_cases hkept : ∀ x ∈ xs, x ∈ f.toSpan
  · exact Or.inr ⟨xs, hnodup, fun x hx =>
      ⟨(hshared x).mpr ⟨(hxs x hx).1, hkept x hx⟩, (hxs x hx).2.cons⟩, hcount⟩
  · rw [not_forall] at hkept
    obtain ⟨y, hy⟩ := hkept
    obtain ⟨hyxs, hyf⟩ := Classical.not_imp.mp hy
    have hcut : CutsOff moments required o p.first :=
      ⟨f, hf, hff, y, (hxs y hyxs).1, hyf, (hxs y hyxs).2⟩
    exact Or.inl ⟨p.first, hfirst,
      Or.inr ⟨hne, o, ho, hodue, hfo, Or.inr ⟨required, hrequired, hcut⟩⟩⟩

theorem honest_draft {layout : Layout} {trimMark : Address} {d : Draft} (hl : layout.Valid)
    (htidy : Tidy c.tracked) (hlist : Honest moments c.tracked c.tracked)
    (h : c.draft layout trimMark = .ok d) (hne : c.tracked ≠ published) :
    Honest (⟨c, .reply (.readingTrimMark layout) (.ok trimMark)⟩ :: moments) published
      d.tracked := by
  obtain ⟨required, hrequired, hrec, rfl⟩ := htidy.of_draft hl h
  intro s hs hdue
  rcases mem_reconciled.mp (List.mem_filter.mp hs).1 with ⟨f, hf, hsf⟩ | ⟨o, ho, rfl⟩
  · have hfresh : f.isDue = true → f.progress.copied = 0 := by
      obtain ⟨r, -, -, rfl⟩ := (Layout.mem_requirement_iff hl hrequired).mp hf
      exact Layout.copied_need
    refine count_of_joined
      (C := Counts (⟨c, .reply (.readingTrimMark layout) (.ok trimMark)⟩ :: moments) published)
      (fun _ _ _ => Counts.mono) (fun _ _ _ _ => Counts.add)
      (hrec.last_lt f hf) (hrec.tiles_pieces hf) (fun p hp hpdue => ?_) hsf hdue
    have hbounds := (hrec.tiles_pieces hf).bounds (hrec.last_lt f hf) hp
    exact counts_piece hrequired hlist hne hf hfresh hbounds.2.1 hp hpdue
  · have hsame := carriedOn_eq_self_of_isDue hdue
    rw [hsame] at hdue ⊢
    have hmem := (mem_unclaimed.mp ho).1
    refine (hlist o hmem hdue).imp ?_ CopiedWithin.cons
    rintro ⟨x, hx, hblurred⟩
    exact ⟨x, hx, Or.inr ⟨hne, o, hmem, hdue, hx, Or.inl ⟨x, hx, hblurred⟩⟩⟩

/-- What an attempt adds to the count of a segment was copied. -/
theorem honest_replaceCandidates {d : Draft} {w : Workload} (hserves : Serves d w)
    (hdraft : Honest moments published d.tracked) (hw : w.Balanced (Copied moments))
    {fates : List (TrackedSegment × Bool)} (hclose : w.close = .ok fates) :
    Honest moments published (replaceCandidates d.tracked (fates.map (·.1))) := by
  intro s hs hdue
  rcases mem_replaceCandidates hs with hs | hs
  · obtain ⟨t, ht, hmem, htdue, short, heq⟩ := hserves.exists_target hclose hs
    obtain ⟨hspan, hcopied, -⟩ := Target.of_close heq
    obtain ⟨i, hi⟩ := List.mem_iff_getElem?.mp ht
    obtain ⟨counted, hsettled⟩ := hw i t hi
    have htotal : CopiedWithin moments t.segment.toSpan t.tally.total.toNat := by
      refine ⟨counted, hsettled.nodup.of_append_left, fun x hx => ?_, ?_⟩
      · exact ⟨(hsettled.left x (List.mem_append_left _ hx)).1, hsettled.copied x hx⟩
      · have hle := t.toNat_total_le
        have hweight := hsettled.weight_le
        omega
    rw [hspan, hcopied]
    rcases t.segment.creditFor_le_or t.tally.total with hle | hle
    · exact Counts.mono hle (Or.inr htotal)
    · exact Counts.mono hle (hdraft t.segment hmem htdue)
  · exact hdraft s hs hdue

theorem honest_markListed {ready tracked tracked' : List TrackedSegment}
    (hvalid : ∀ s ∈ tracked, s.Valid) (hlist : Honest moments published tracked)
    (h : Listing.markListed ready tracked = .ok tracked') :
    Honest moments published tracked' := by
  intro s' hs' hdue
  obtain ⟨s, hs, heq⟩ := exists_of_mem_mapM h hs'
  rcases eq_or_eq_of_markListed hvalid hs heq with ⟨-, rfl⟩ | rfl
  · cases hdue
  · exact hlist s' hs hdue

end

/-! ## The points of a cycle -/

/-- What is known at each point of the counts. -/
def Tallied (moments : List Moment) : Point → Prop
  | .drafted d | .copied d | .unlisted d | .listing d _ _ | .settled d _ _ | .through d =>
    Accounted moments d.tracked
  | .working d w | .lost d w | .passed d w =>
    Accounted moments d.tracked ∧ w.Balanced (Copied moments)
  | .waiting (.checking d w i span) =>
    Accounted moments d.tracked ∧ (w.park (.checking i span)).Balanced (Copied moments)
  | .waiting (.copying d w i present batch) =>
    Accounted moments d.tracked ∧ (w.park (.copying i present batch)).Balanced (Copied moments)
  | .waiting .readingLayout | .waiting (.readingTrimMark _) => True
  | .waiting (.proposing d _ _ _ _) | .waiting (.refreshing d _) => Accounted moments d.tracked
  | .over (some tracked) _ => Accounted moments tracked
  | .over none _ => True

section

variable {moments : List Moment} {c : Coordinator}

theorem tallied_stage {d : Draft} {w : Workload} {errand : Errand} :
    Tallied moments (.waiting (errand.stage d w)) ↔
      Accounted moments d.tracked ∧ (w.park errand).Balanced (Copied moments) := by
  cases errand <;> exact Iff.rfl

theorem Tallied.step {p q : Point} (hrep : Represented moments p) (hconfined : Confined moments p)
    (hp : Tallied moments p) (h : Step c p q) : Tallied moments q := by
  cases h with
  | skip | stop | goOn | rest | list | exhaust | defer | reflect | propose | skipMarks | conclude =>
    exact hp
  | crash | refuse => trivial
  | copy h =>
    refine ⟨hp, Workload.balanced_ofTargets fun t ht => ?_⟩
    obtain ⟨s, -, rfl⟩ := List.mem_map.mp ht
    rfl
  | take h => exact ⟨hp.1, hp.2.take hconfined.2 h⟩
  | retire h => exact ⟨hp.1, hp.2.retire h⟩
  | replace => exact ⟨hp.1, hp.2.of_perm rfl (.refl _)⟩
  | miss => exact hp
  | turn h =>
    exact tallied_stage.mpr ⟨hp.1, hp.2.of_perm rfl (Workload.perm_others_turn h)⟩
  | close h hcrashed hclose =>
    exact hp.1.imp fun _ hd => honest_replaceCandidates hrep.2 hd hp.2 hclose
  | mark h => exact hp.imp fun _ hd => honest_markListed (Faithful.tracks hrep).valid hd h

theorem Tallied.entry {s : Stage} {answer : s.query.Reply} {p : Point}
    (htidy : Tidy c.tracked) (hlist : Honest moments c.tracked c.tracked)
    (hrep : Represented moments (.waiting s)) (hp : Tallied moments (.waiting s))
    (h : Entry c s answer p) : Tallied (⟨c, .reply s answer⟩ :: moments) p := by
  have hcons : ∀ x, Copied moments x → Copied (⟨c, .reply s answer⟩ :: moments) x :=
    fun _ => Copied.cons
  have hnone : ∀ x ∈ ([] : List Address), Copied (⟨c, .reply s answer⟩ :: moments) x :=
    fun _ hx => absurd hx List.not_mem_nil
  cases h with
  | layoutUnread | layoutRead | trimMarkUnread | undrafted => trivial
  | drafted h =>
    exact ⟨c.tracked, Honest.cons_before hlist, fun _ hne =>
      honest_draft hrep.2 htidy hlist h hne⟩
  | unreadable =>
    exact ⟨hp.1.cons fun _ _ => id, hp.2.note hcons List.nil_subperm hnone (Nat.zero_le _)⟩
  | inverted | crashed => exact ⟨hp.1.cons fun _ _ => id, hp.2.leave true hcons⟩
  | @held _ _ _ span present =>
    have hfound : (span.toList.filter present.contains).Subperm span.toList :=
      List.filter_sublist.subperm
    refine ⟨hp.1.cons fun _ _ => id, hp.2.note hcons hfound (fun _ => .of_checked) ?_⟩
    rw [← List.countP_eq_length_filter]
    exact Nat.le_trans (toNat_ofNat_le _) (Nat.le_add_left _ _)
  | @missing _ _ _ span present =>
    have hall := List.filter_append_perm present.contains span.toList
    refine ⟨hp.1.cons fun _ _ => id,
      hp.2.proceed rfl hcons hall.subperm (fun _ => .of_checked) ?_⟩
    rw [← List.countP_eq_length_filter]
    exact Nat.le_trans (toNat_ofNat_le _) (Nat.le_add_left _ _)
  | @written _ _ _ present batch addresses =>
    have hfound : (batch.addresses.filter addresses.contains).Subperm batch.addresses :=
      List.filter_sublist.subperm
    have hcount := BatchResult.toNat_transferred_ofWritten_le batch addresses
    exact ⟨hp.1.cons fun _ _ => id, hp.2.note hcons hfound (fun _ => .of_written)
      (Nat.add_le_add_left hcount _)⟩
  | uncopied =>
    exact ⟨hp.1.cons fun _ _ => id, hp.2.note hcons List.nil_subperm hnone (Nat.le_refl _)⟩
  | accepted | stale | refused | refreshed | unrefreshed => exact Accounted.cons hp fun _ _ => id

theorem Tallied.aside {m : Moment} (hm : m.happening.IsAside) {s : Stage}
    (hp : Tallied moments (.waiting s)) : Tallied (m :: moments) (.waiting s) := by
  have hblurred : ∀ published x,
      Blurred moments published x → Blurred (m :: moments) published x := by
    intro published x hx
    obtain ⟨before, happening⟩ := m
    cases happening with
    | reply s answer => exact absurd hm id
    | _ => exact hx
  cases s with
  | readingLayout | readingTrimMark => trivial
  | checking | copying => exact ⟨hp.1.cons hblurred, hp.2.imp fun _ => Copied.cons⟩
  | proposing | refreshing => exact Accounted.cons hp hblurred

theorem Tallied.shift {s : Stage} {p : Point} (hp : Tallied moments (.waiting s))
    (h : Shift s p) : Tallied moments p := by
  cases h with
  | recancel f hs =>
    cases s with
    | checking | copying =>
      cases hs
      exact ⟨hp.1, hp.2.recancel f⟩
    | _ => cases hs
  | switch h =>
    obtain ⟨haccounted, hbalanced⟩ := tallied_stage.mp hp
    exact tallied_stage.mpr ⟨haccounted, hbalanced.of_perm rfl (Workload.perm_others_switch h)⟩
  | hire h =>
    obtain ⟨haccounted, hbalanced⟩ := tallied_stage.mp hp
    exact ⟨haccounted, hbalanced.of_perm rfl (.refl _)⟩
  | abandon h hcrashed => trivial

end

/-! ## Along a run -/

theorem invariant_tallied (node : NodeId) (settings : Settings) :
    Invariant { node, settings }
      (fun moments p => (Represented moments p ∧ Confined moments p) ∧ Tallied moments p)
      (fun moments tracked => Tidy tracked ∧ Honest moments tracked tracked) := by
  have base := invariant_confined (b := { node, settings }) rfl tidy_nil
  exact {
    list_start := ⟨base.list_start, fun _ hs => absurd hs List.not_mem_nil⟩
    stage_start := fun s hs => by cases hs
    list_cons := fun h => ⟨h.1, h.2.cons_before⟩
    begun := fun hidle hlist => ⟨base.begun hidle hlist.1, trivial⟩
    aside := fun hm hp => ⟨base.aside hm hp.1, hp.2.aside hm⟩
    shift := fun hp h => ⟨base.shift hp.1 h, hp.2.shift h⟩
    entry := fun task hlawful hlist hp h =>
      ⟨base.entry task hlawful hlist.1 hp.1 h, hp.2.entry hlist.1 hlist.2 hp.1.1 h⟩
    step := fun task hp h => ⟨base.step task hp.1 h, hp.2.step hp.1.1 hp.1.2 h⟩
    publish := fun hp => ⟨base.publish hp.1, Accounted.honest hp.2⟩ }

/-- Whatever the history, the layouts and the trim marks: a segment that needs a copy counts at
most its length, and at most the number of its addresses that were copied, as long as none of its
addresses is blurred. -/
theorem counts_only_copied {node : NodeId} {settings : Settings} {moments : List Moment}
    {c : Coordinator} (hrun : Run { node, settings } moments c) (hlawful : Lawful moments)
    {s : TrackedSegment} (hs : s ∈ c.tracked) (hdue : s.isDue = true) :
    s.progress.copied ≤ s.length ∧
      ((∀ x ∈ s.toSpan, ¬Blurred moments c.tracked x) →
        CopiedWithin moments s.toSpan s.progress.copied.toNat) := by
  obtain ⟨htidy, hhonest⟩ := ((invariant_tallied node settings).run hrun hlawful).1
  refine ⟨?_, fun hclear => (hhonest s hs hdue).resolve_left ?_⟩
  · exact (fault?_eq_none_iff.mp (htidy.valid s hs).fault_eq_none).2.2.1
  · rintro ⟨x, hx, hblurred⟩
    exact hclear x hx hblurred

/-! ## A batch that fails, and a trim mark that rises -/

/-- The batch of the addresses of the missing range that are not held. -/
def restBatch : Batch := ⟨[2, 3, 4], some ["a"]⟩

/-- The missing range once two of its addresses were found and the others could not be copied. -/
def partlyHeld : TrackedSegment := ⟨⟨0, 4⟩, .failed 2 ⟨"operation cancelled"⟩⟩

/-- The coordinator that has found two addresses of the missing range and copies the others. -/
def partlyCopying : Coordinator :=
  { halfChecking with stage := some (.copying halfDraft halfWork 0 2 restBatch) }

/-- The coordinator after the failure of the batch. -/
def halfPartly (metrics : Metrics) : Coordinator :=
  { halfRead with tracked := [partlyHeld, heldHalf], metrics, stage := none }

/-- What has led to it. -/
def partMoments : List Moment :=
  ⟨partlyCopying, .reply (.copying halfDraft halfWork 0 2 restBatch) (.failed .cancelled)⟩ ::
    ⟨halfChecking, .reply (.checking halfDraft halfWork 0 ⟨0, 4⟩) (.ok [0, 1])⟩ :: halfMoments

theorem run_partMoments :
    ∃ metrics, Run { node := "n", settings := {} } partMoments (halfPartly metrics) := by
  have hasked : (halfChecking.resume (.checking halfDraft halfWork 0 ⟨0, 4⟩)
      (.ok [0, 1])).coordinator = partlyCopying := rfl
  obtain ⟨metrics, hfailed⟩ : ∃ metrics, (partlyCopying.resume
      (.copying halfDraft halfWork 0 2 restBatch) (.failed .cancelled)).coordinator =
        halfPartly metrics := ⟨_, rfl⟩
  have hrun : Run { node := "n", settings := {} } partMoments.tail partlyCopying := by
    rw [← hasked]
    exact run_halfMoments.cons (.reply (.checking halfDraft halfWork 0 ⟨0, 4⟩) (.ok [0, 1])) rfl
  refine ⟨metrics, ?_⟩
  rw [← hfailed]
  exact hrun.cons (.reply (.copying halfDraft halfWork 0 2 restBatch) (.failed .cancelled)) rfl

theorem lawful_partMoments : Lawful partMoments :=
  List.forall_mem_cons.mpr ⟨trivial, List.forall_mem_cons.mpr ⟨trivial, lawful_halfMoments⟩⟩

/-- The first cycle begins with nothing to cut a copied address off. -/
theorem counts_only_copied_of_failed_batch :
    ∃ metrics, Run { node := "n", settings := {} } partMoments (halfPartly metrics) ∧
      partlyHeld ∈ (halfPartly metrics).tracked ∧ partlyHeld.isDue = true ∧
      (∀ x ∈ partlyHeld.toSpan, ¬Blurred partMoments (halfPartly metrics).tracked x) ∧
      CopiedWithin partMoments partlyHeld.toSpan 2 := by
  obtain ⟨metrics, hrun⟩ := run_partMoments
  have hmem : partlyHeld ∈ (halfPartly metrics).tracked := List.mem_cons_self
  have hclear : ∀ x ∈ partlyHeld.toSpan,
      ¬Blurred partMoments (halfPartly metrics).tracked x := by
    rintro x - (⟨-, hblurred⟩ | ⟨-, s, hs, -⟩)
    · exact hblurred
    · cases hs
  have hdue : partlyHeld.isDue = true := rfl
  exact ⟨metrics, hrun, hmem, hdue, hclear,
    (counts_only_copied hrun lawful_partMoments hmem hdue).2 hclear⟩

/-- What the trim mark leaves of the missing range. -/
def missingRest : TrackedSegment := ⟨⟨2, 4⟩, .notTransferred 0⟩

/-- What it leaves of the range that could not be copied. -/
def partlyRest : TrackedSegment := ⟨⟨2, 4⟩, .failed 2 ⟨"operation cancelled"⟩⟩

theorem tidy_halfPartly : Tidy [partlyHeld, heldHalf] :=
  tidy_cons_heldHalf ⟨by decide +kernel, by decide⟩ (by decide)

theorem reconciled_missingRest :
    reconciled [partlyHeld, heldHalf] [missingRest, heldHalf] = [partlyRest, heldHalf] := by
  have hshared : [partlyHeld, heldHalf].filter (·.overlaps missingRest) = [partlyHeld] := by
    decide +kernel
  have hheld : [partlyHeld, heldHalf].filter (·.overlaps heldHalf) = [heldHalf] := by
    decide +kernel
  have hrest : overlaid [partlyHeld, heldHalf] missingRest = [partlyRest] := by
    rw [overlaid, pieces, hshared, List.mergeSort_singleton]
    rfl
  have hkept : overlaid [partlyHeld, heldHalf] heldHalf = [heldHalf] := by
    rw [overlaid, pieces, hheld, List.mergeSort_singleton]
    rfl
  have hsorted : [partlyRest, heldHalf].Pairwise fun s t => startsBy s t = true := by
    decide +kernel
  rw [reconciled, List.flatMap_cons, List.flatMap_cons, hrest, hkept]
  exact List.mergeSort_of_pairwise hsorted

/-- The coordinator that asks for the trim mark of a later cycle. -/
def partlyRead (metrics : Metrics) : Coordinator :=
  { halfPartly metrics with stage := some (.readingTrimMark halfHeld) }

def restDraft : Draft := draftOf halfHeld 1 [partlyRest, heldHalf]

/-- The workload once the only chunk of the rest is handed out. -/
def restWork : Workload := ⟨[⟨partlyRest, ["a"], ⟨some 5, 4, 10⟩, false, []⟩], [], 3, 3, [], false⟩

theorem draft_partlyRead (metrics : Metrics) :
    (partlyRead metrics).draft halfHeld 1 = .ok restDraft := by
  have hrequired : halfHeld.requirement (partlyRead metrics).node 1 =
      .ok [missingRest, heldHalf] := rfl
  have htracked : (partlyRead metrics).tracked = [partlyHeld, heldHalf] := rfl
  have htidy : Tidy (partlyRead metrics).tracked := tidy_halfPartly
  rw [draft_eq (by decide +kernel) htidy.ascending htidy.valid hrequired, htracked,
    reconciled_missingRest]
  rfl

/-- The coordinator that asks which addresses of the rest are held. -/
def restChecking (metrics : Metrics) : Coordinator :=
  { halfPartly metrics with
    trimMark := 1
    metrics := metrics.set .segmentsInFlight 1
    stage := some (.checking restDraft restWork 0 ⟨2, 4⟩) }

theorem target_partlyRest (metrics : Metrics) :
    [partlyRest].map ((partlyRead metrics).targetOf halfHeld) =
      [⟨partlyRest, ["a"], ⟨some 2, 4, 10⟩, false, []⟩] := by
  have hsources : halfHeld.sources "n" ⟨2, 4⟩ = ["a"] := by decide +kernel
  have hnode : (partlyRead metrics).node = "n" := rfl
  simp only [List.map_cons, List.map_nil, targetOf, hnode]
  rw [partlyRest, hsources]
  rfl

theorem resume_partlyRead (metrics : Metrics) :
    ((partlyRead metrics).resume (.readingTrimMark halfHeld) (.ok 1)).coordinator =
      restChecking metrics := by
  rw [resume_readingTrimMark (draft_partlyRead metrics) rfl (target_partlyRest metrics)]
  rfl

/-- What has led to the second failure. -/
def restMoments (metrics : Metrics) : List Moment :=
  ⟨restChecking metrics, .reply (.checking restDraft restWork 0 ⟨2, 4⟩) (.error .cancelled)⟩ ::
    (readMoments (halfPartly metrics) halfHeld 1 ++ partMoments)

theorem lawful_restMoments (metrics : Metrics) : Lawful (restMoments metrics) :=
  List.forall_mem_cons.mpr
    ⟨trivial, lawful_readMoments lawful_partMoments _ (by decide +kernel) 1⟩

theorem run_restMoments :
    ∃ metrics c, Run { node := "n", settings := {} } (restMoments metrics) c ∧
      c.tracked = [partlyRest, heldHalf] := by
  obtain ⟨metrics, hrun⟩ := run_partMoments
  have hread := run_readMoments hrun rfl rfl halfHeld 1
  have hchecking := resume_partlyRead metrics
  rw [partlyRead] at hchecking
  rw [hchecking] at hread
  exact ⟨metrics, _, hread.cons
    (.reply (.checking restDraft restWork 0 ⟨2, 4⟩) (.error .cancelled)) rfl, rfl⟩

theorem not_copied_restMoments (metrics : Metrics) {x : Address} (hx : x ∈ partlyRest.toSpan) :
    ¬Copied (restMoments metrics) x := by
  have hheld : x ∉ ([0, 1] : List Address) := by
    intro hmem
    rw [Span.mem_iff] at hx
    simp only [List.mem_cons, List.not_mem_nil, or_false] at hmem
    rcases hmem with rfl | rfl
    · exact absurd hx.1 (by decide)
    · exact absurd hx.1 (by decide)
  have hnone : ∀ m ∈ restMoments metrics, ¬m.Copies x := by
    simp only [restMoments, readMoments, partMoments, halfMoments, List.cons_append,
      List.nil_append, List.forall_mem_cons]
    exact ⟨id, id, id, id, id, fun h => hheld h.2, id, id, id, by simp⟩
  rintro ⟨m, hm, hcopies⟩
  exact hnone m hm hcopies

/-- Two of five addresses are found to be held, and the others cannot be copied. Once the trim mark
has passed the two, the count is that of a segment of which nothing is copied. -/
theorem count_exceeds_copied :
    ∃ metrics c, Run { node := "n", settings := {} } (restMoments metrics) c ∧
      Lawful (restMoments metrics) ∧ ∃ s ∈ c.tracked, s.isDue = true ∧
        s.progress.copied.toNat = 2 ∧ ¬CopiedWithin (restMoments metrics) s.toSpan 2 := by
  obtain ⟨metrics, c, hrun, htracked⟩ := run_restMoments
  refine ⟨metrics, c, hrun, lawful_restMoments metrics, partlyRest, ?_, rfl, rfl, ?_⟩
  · rw [htracked]
    exact List.mem_cons_self
  · rintro ⟨xs, -, hxs, hle⟩
    cases xs with
    | nil => exact absurd hle (by decide)
    | cons x rest =>
      obtain ⟨hx, hcopied⟩ := hxs x List.mem_cons_self
      exact not_copied_restMoments metrics hx hcopied

end LogRepair.Coordinator
