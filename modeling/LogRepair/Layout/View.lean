import LogRepair.Layout.Basic

/-!
# Layouts, address by address

* `Layout.valid_iff`: what a layout without fault satisfies.
* `Layout.serversAt`: the servers of a stripe at an address, the view through which changes of a
  layout are compared.
-/

namespace LogRepair

/-! ## Validity -/

/-- The bounds of a region are in order, and it has a stripe. -/
structure Region.Valid (r : Region) : Prop where
  start_nonneg : 0 ≤ r.start
  start_lt_stop : r.start < r.stop
  stripes_ne_nil : r.stripes ≠ []

namespace Layout

/-- Each region starts where the one before it ends. -/
def Contiguous : List Region → Prop
  | r :: t :: rest => r.stop = t.start ∧ Contiguous (t :: rest)
  | _ => True

theorem regionFault?_eq_none_iff {index : Nat} {regions : List Region} :
    regionFault? index regions = none ↔ ∀ r ∈ regions, r.Valid := by
  induction regions generalizing index with
  | nil => simp [regionFault?]
  | cons r rest ih =>
    rw [regionFault?, List.forall_mem_cons]
    constructor
    · intro h
      split at h
      · simp at h
      · next hb =>
        split at h
        · simp at h
        · next hs =>
          rw [Bool.or_eq_true, decide_eq_true_eq, decide_eq_true_eq, not_or] at hb
          exact ⟨⟨by grind, by grind, by simpa using hs⟩, ih.mp h⟩
    · rintro ⟨⟨h₀, h₁, h₂⟩, h⟩
      have hb : ¬((r.start < 0 || r.stop ≤ r.start) = true) := by
        rw [Bool.or_eq_true, decide_eq_true_eq, decide_eq_true_eq]
        grind
      rw [if_neg hb, if_neg (by simpa using h₂)]
      exact ih.mpr h

theorem gap?_eq_none_iff {regions : List Region} : gap? regions = none ↔ Contiguous regions := by
  fun_induction gap? regions with
  | case1 r t rest h ih => simp [Contiguous, h, ih]
  | case2 r t rest h => simp [Contiguous, h]
  | case3 regions h =>
    unfold Contiguous
    split
    · exact absurd rfl (h _ _ _)
    · simp

theorem valid_iff {l : Layout} :
    l.Valid ↔ l.regions ≠ [] ∧ (∀ r ∈ l.regions, r.Valid) ∧ Contiguous l.regions := by
  unfold Valid fault?
  split
  · simp_all
  · rw [Option.or_eq_none_iff, regionFault?_eq_none_iff, gap?_eq_none_iff]
    simp_all

theorem create_eq_ok_iff {epoch : Epoch} {regions : List Region} {l : Layout} :
    create epoch regions = .ok l ↔ l = ⟨epoch, regions⟩ ∧ l.Valid := by
  unfold create Valid
  constructor
  · intro h
    split at h
    · simp at h
    · next hf =>
      obtain rfl := (Except.ok.inj h).symm
      exact ⟨rfl, hf⟩
  · rintro ⟨rfl, h⟩
    rw [h]

/-! ## The view of an address -/

/-- The region that contains an address. -/
def regionAt? (l : Layout) (x : Address) : Option Region := l.regions.find? fun r => x ∈ r.span

def Covers (l : Layout) (x : Address) : Prop := ∃ r ∈ l.regions, x ∈ r.span

def stripesAt (l : Layout) (x : Address) : Nat := ((l.regionAt? x).map (·.stripes.length)).getD 0

/-- The servers of a stripe at an address. -/
def serversAt (l : Layout) (x : Address) (stripe : Nat) : List NodeId :=
  (((l.regionAt? x).bind (·.stripes[stripe]?)).map (·.servers)).getD []

theorem covers_iff_regionAt?_isSome {l : Layout} {x : Address} :
    l.Covers x ↔ (l.regionAt? x).isSome = true := by
  simp [Covers, regionAt?, List.find?_isSome]

end Layout

end LogRepair
