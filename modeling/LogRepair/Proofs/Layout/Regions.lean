import LogRepair.Layout.View

/-!
# The regions of a valid layout

In a valid layout the regions follow each other without a gap, so each address lies in at most
one of them, and `Layout.regionAt?` finds it.

* `Layout.Valid.regionAt?_eq_some_iff`: the region at an address is the one that contains it.
* `Region.SameTopology`: two regions have the same servers in each of as many stripes.
* `Layout.Alike`: two layouts cover the same addresses, with the same servers in each stripe of
  each address, in any order and however often named.
-/

namespace LogRepair

/-! ## Single regions -/

namespace Region

theorem Valid.mem_span_iff {r : Region} (hr : r.Valid) {x : Address} :
    x ∈ r.span ↔ r.start ≤ x ∧ x < r.stop := by
  have := hr.start_lt_stop
  rw [Span.mem_iff]
  simp only [span, last]
  grind

/-- A region does not end at the highest address, for the address after its last one exists. -/
theorem Valid.last_lt_stop {r : Region} (hr : r.Valid) : r.last < r.stop := by
  have := hr.start_lt_stop
  unfold last
  grind

theorem Valid.last_lt_maxValue {r : Region} (hr : r.Valid) : r.last < Int64.maxValue :=
  Int64.lt_of_lt_of_le hr.last_lt_stop (Int64.le_maxValue r.stop)

theorem Valid.start_le_last {r : Region} (hr : r.Valid) : r.start ≤ r.last := by
  have := hr.start_lt_stop
  unfold last
  grind

/-- The servers of a stripe of the region. -/
def serversOf (r : Region) (stripe : Nat) : List NodeId :=
  ((r.stripes[stripe]?).map (·.servers)).getD []

theorem serversOf_eq_nil {r : Region} {i : Nat} (h : r.stripes.length ≤ i) :
    r.serversOf i = [] := by
  rw [serversOf, List.getElem?_eq_none h]
  rfl

theorem serversOf_of_lt {r : Region} {i : Nat} (h : i < r.stripes.length) :
    r.serversOf i = (r.stripes[i]).servers := by
  rw [serversOf, List.getElem?_eq_getElem h]
  rfl

theorem heldBy_iff {r : Region} {node : NodeId} :
    r.heldBy node = true ↔ r.stripes ≠ [] ∧ ∀ i < r.stripes.length, node ∈ r.serversOf i := by
  simp only [heldBy, Bool.and_eq_true, Bool.not_eq_true', List.isEmpty_eq_false_iff, ne_eq,
    List.all_eq_true, Stripe.contains, List.contains_iff_mem]
  refine and_congr_right fun _ => ⟨fun h i hi => ?_, fun h s hs => ?_⟩
  · rw [serversOf_of_lt hi]
    exact h _ (List.getElem_mem hi)
  · obtain ⟨i, hi, rfl⟩ := List.mem_iff_getElem.mp hs
    rw [← serversOf_of_lt hi]
    exact h i hi

/-- The regions have as many stripes, and the same servers in each, in any order and however often
named. -/
def SameTopology (r t : Region) : Prop :=
  r.stripes.length = t.stripes.length ∧ ∀ i n, n ∈ r.serversOf i ↔ n ∈ t.serversOf i

theorem replicatedLike_iff {r t : Region} : r.replicatedLike t = true ↔ r.SameTopology t := by
  have hsame : ∀ a b : Stripe, a.sameServers b = true ↔ ∀ n, n ∈ a.servers ↔ n ∈ b.servers := by
    intro a b
    simp only [Stripe.sameServers, Stripe.contains, Bool.and_eq_true, List.all_eq_true,
      List.contains_iff_mem]
    exact ⟨fun h n => ⟨h.1 n, h.2 n⟩, fun h => ⟨fun n => (h n).mp, fun n => (h n).mpr⟩⟩
  simp only [SameTopology, replicatedLike, Bool.and_eq_true, decide_eq_true_eq, List.all_eq_true]
  refine and_congr_right fun hlen => ⟨fun h i n => ?_, fun h p hp => ?_⟩
  · by_cases hi : i < r.stripes.length
    · rw [serversOf_of_lt hi, serversOf_of_lt (hlen ▸ hi)]
      have hmem : (r.stripes[i], t.stripes[i]) ∈ r.stripes.zip t.stripes :=
        List.mem_iff_getElem.mpr ⟨i, by simp; omega, by simp⟩
      exact (hsame _ _).mp (h _ hmem) n
    · rw [serversOf_eq_nil (by omega), serversOf_eq_nil (by omega)]
  · obtain ⟨i, hi, rfl⟩ := List.mem_iff_getElem.mp hp
    simp only [List.length_zip] at hi
    have hr : i < r.stripes.length := by omega
    have ht : i < t.stripes.length := by omega
    simp only [List.getElem_zip, hsame]
    intro n
    rw [← serversOf_of_lt hr, ← serversOf_of_lt ht]
    exact h i n

end Region

namespace Layout

/-! ## The order of the regions -/

theorem Contiguous.tail {r : Region} {rest : List Region} (h : Contiguous (r :: rest)) :
    Contiguous rest := by
  cases rest with
  | nil => trivial
  | cons t rest => exact h.2

theorem Contiguous.stop_eq {regions : List Region} (h : Contiguous regions) {i : Nat}
    {r t : Region} (hr : regions[i]? = some r) (ht : regions[i + 1]? = some t) :
    r.stop = t.start := by
  induction regions generalizing i with
  | nil => cases hr
  | cons u rest ih =>
    cases i with
    | zero =>
      cases rest with
      | nil => cases ht
      | cons v rest =>
        cases hr
        cases ht
        exact h.1
    | succ i => exact ih h.tail hr ht

/-- Every region ends before or where any later one starts. -/
theorem Contiguous.pairwise {regions : List Region} (hc : Contiguous regions)
    (hv : ∀ r ∈ regions, r.Valid) : regions.Pairwise fun r t => r.stop ≤ t.start := by
  induction regions with
  | nil => exact .nil
  | cons r rest ih =>
    have hrest := ih hc.tail fun t ht => hv t (List.mem_cons_of_mem _ ht)
    refine List.pairwise_cons.mpr ⟨fun t ht => ?_, hrest⟩
    cases rest with
    | nil => simp at ht
    | cons u rest =>
      have hru : r.stop = u.start := hc.1
      rcases List.mem_cons.mp ht with rfl | ht
      · rw [hru]
        exact Int64.le_refl _
      · have hu := (hv u (by simp)).start_lt_stop
        have hut := (List.pairwise_cons.mp hrest).1 t ht
        grind

theorem Valid.region {l : Layout} (hl : l.Valid) {r : Region} (hr : r ∈ l.regions) : r.Valid :=
  (valid_iff.mp hl).2.1 r hr

theorem Valid.contiguous {l : Layout} (hl : l.Valid) : Contiguous l.regions :=
  (valid_iff.mp hl).2.2

theorem Valid.pairwise {l : Layout} (hl : l.Valid) :
    l.regions.Pairwise fun r t => r.stop ≤ t.start :=
  hl.contiguous.pairwise fun _ => hl.region

/-- At most one region contains an address. -/
theorem Valid.eq_of_mem_span {l : Layout} (hl : l.Valid) {r t : Region} (hr : r ∈ l.regions)
    (ht : t ∈ l.regions) {x : Address} (hxr : x ∈ r.span) (hxt : x ∈ t.span) : r = t := by
  have apart : ∀ {u v : Region}, u ∈ l.regions → v ∈ l.regions → u.stop ≤ v.start →
      x ∈ u.span → x ∉ v.span := by
    intro u v hu hv huv hxu hxv
    rw [(hl.region hu).mem_span_iff] at hxu
    rw [(hl.region hv).mem_span_iff] at hxv
    grind
  refine List.Pairwise.forall_of_forall_of_flip
    (R := fun u v => x ∈ u.span → x ∈ v.span → u = v) (fun _ _ _ _ => rfl) ?_ ?_ hr ht hxr hxt
  · exact hl.pairwise.imp_of_mem fun hu hv h hxu hxv => absurd hxv (apart hu hv h hxu)
  · exact hl.pairwise.imp_of_mem fun hu hv h hxv hxu => absurd hxv (apart hu hv h hxu)

theorem Valid.regionAt?_eq_some_iff {l : Layout} (hl : l.Valid) {x : Address} {r : Region} :
    l.regionAt? x = some r ↔ r ∈ l.regions ∧ x ∈ r.span := by
  constructor
  · intro h
    exact ⟨List.mem_of_find?_eq_some h, by simpa using List.find?_some h⟩
  · rintro ⟨hr, hx⟩
    obtain ⟨t, ht⟩ := Option.isSome_iff_exists.mp
      (covers_iff_regionAt?_isSome.mp ⟨r, hr, hx⟩)
    have hxt : x ∈ t.span := by simpa using List.find?_some ht
    rw [ht, hl.eq_of_mem_span hr (List.mem_of_find?_eq_some ht) hx hxt]

/-! ## Layouts that say the same -/

/-- The layouts cover the same addresses and name the same servers for each stripe of each. -/
structure Alike (l m : Layout) : Prop where
  covers_iff : ∀ x, m.Covers x ↔ l.Covers x
  stripesAt_eq : ∀ x, m.stripesAt x = l.stripesAt x
  mem_serversAt_iff : ∀ x i n, n ∈ m.serversAt x i ↔ n ∈ l.serversAt x i

theorem Alike.refl (l : Layout) : Alike l l :=
  ⟨fun _ => Iff.rfl, fun _ => rfl, fun _ _ _ => Iff.rfl⟩

theorem Alike.trans {l m k : Layout} (h : Alike l m) (h' : Alike m k) : Alike l k :=
  ⟨fun x => (h'.covers_iff x).trans (h.covers_iff x),
    fun x => (h'.stripesAt_eq x).trans (h.stripesAt_eq x),
    fun x i n => (h'.mem_serversAt_iff x i n).trans (h.mem_serversAt_iff x i n)⟩

/-! ## The view at an address, region by region -/

theorem stripesAt_of_regionAt? {l : Layout} {x : Address} {r : Region}
    (h : l.regionAt? x = some r) : l.stripesAt x = r.stripes.length := by
  rw [stripesAt, h]
  rfl

theorem serversAt_of_regionAt? {l : Layout} {x : Address} {r : Region}
    (h : l.regionAt? x = some r) (i : Nat) : l.serversAt x i = r.serversOf i := by
  rw [serversAt, h]
  rfl

/-- Any address of a region tells whether the region is held. -/
theorem Valid.heldBy_iff {l : Layout} (hl : l.Valid) {r : Region} (hr : r ∈ l.regions)
    {x : Address} (hx : x ∈ r.span) {node : NodeId} :
    r.heldBy node = true ↔ ∀ i < l.stripesAt x, node ∈ l.serversAt x i := by
  have hat := hl.regionAt?_eq_some_iff.mpr ⟨hr, hx⟩
  rw [Region.heldBy_iff, and_iff_right (hl.region hr).stripes_ne_nil, stripesAt_of_regionAt? hat]
  simp only [serversAt_of_regionAt? hat]

theorem serversAt_eq_nil {l : Layout} {x : Address} (h : l.regionAt? x = none) (i : Nat) :
    l.serversAt x i = [] := by
  rw [serversAt, h]
  rfl

/-- Layouts are alike if at each address they have the same region, or regions of the same
topology. -/
theorem alike_of_regionAt? {l m : Layout}
    (h : ∀ x, l.regionAt? x = m.regionAt? x ∨
      ∃ r t, l.regionAt? x = some r ∧ m.regionAt? x = some t ∧ r.SameTopology t) :
    Alike l m := by
  constructor <;> intro x <;> rcases h x with heq | ⟨r, t, hr, ht, hlen, hservers⟩
  · rw [covers_iff_regionAt?_isSome, covers_iff_regionAt?_isSome, heq]
  · rw [covers_iff_regionAt?_isSome, covers_iff_regionAt?_isSome, hr, ht]
    simp
  · rw [stripesAt, stripesAt, heq]
  · rw [stripesAt_of_regionAt? hr, stripesAt_of_regionAt? ht, hlen]
  · simp [serversAt, heq]
  · intro i n
    rw [serversAt_of_regionAt? hr, serversAt_of_regionAt? ht, hservers i n]

end Layout

end LogRepair
