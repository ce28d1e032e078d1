import LogRepair.Proofs.Layout.Changes
import Mathlib.Order.Bounds.Basic

/-!
# How many leading regions are joined

The leading regions of a layout are joined pair by pair. Each round puts one region in place of the
first two, and the next round compares the third with that one, which is not in the layout that the
loop began with. It has the stripes of the second, so that the rounds come to comparing each region
with its neighbour.

* `Layout.JoinsTo`: the loop, round by round.
* `Layout.joinsTo_iff`: the loop ends, with one layout only, and no join is refused.
* `Layout.exists_joinLeading_eq`: the regions that it joins are the longest alike ones that lead.
* `Layout.collapse_longest_prefix`: what comes out of it, for every valid layout.
-/

namespace LogRepair.Layout

/-! ## Round by round -/

/-- The first two regions of the layout are joined for as long as their border says nothing, and
no join is refused. -/
inductive JoinsTo : Layout → Layout → Prop
  | done {l : Layout} (h : l.canJoinFirst = false) : JoinsTo l l
  | join {l m k : Layout} (h : l.canJoinFirst = true) (hjoin : l.joinFirst = .ok m)
      (rest : JoinsTo m k) : JoinsTo l k

theorem joinsTo_joinLeading (epoch : Epoch) (regions : List Region) :
    JoinsTo ⟨epoch, regions⟩ ⟨epoch, joinLeading regions⟩ := by
  fun_induction joinLeading regions with
  | case1 => exact .done rfl
  | case2 r => exact .done rfl
  | case3 r t rest hlike ih => exact .join hlike rfl ih
  | case4 r t rest hlike => exact .done (Bool.eq_false_iff.mpr hlike)

theorem joinsTo_collapse (l : Layout) : l.JoinsTo l.collapse :=
  joinsTo_joinLeading l.epoch l.regions

theorem JoinsTo.canJoinFirst_eq_false {l m : Layout} (h : l.JoinsTo m) :
    m.canJoinFirst = false := by
  induction h with
  | done hdone => exact hdone
  | join _ _ _ ih => exact ih

/-- Each round is determined by the layout that it begins with. -/
theorem JoinsTo.unique {l m k : Layout} (hm : l.JoinsTo m) (hk : l.JoinsTo k) : m = k := by
  induction hm with
  | done hdone =>
    cases hk with
    | done => rfl
    | join hmore => simp [hdone] at hmore
  | join hmore hjoin _ ih =>
    cases hk with
    | done hdone => simp [hdone] at hmore
    | join _ hjoin' hrest =>
      obtain rfl := Except.ok.inj (hjoin.symm.trans hjoin')
      exact ih hrest

theorem joinsTo_iff {l m : Layout} : l.JoinsTo m ↔ m = l.collapse :=
  ⟨fun h => h.unique (joinsTo_collapse l), fun h => h ▸ joinsTo_collapse l⟩

theorem canJoinFirst_collapse (l : Layout) : l.collapse.canJoinFirst = false :=
  (joinsTo_collapse l).canJoinFirst_eq_false

theorem collapse_collapse (l : Layout) : l.collapse.collapse = l.collapse :=
  (joinsTo_iff.mp (.done (canJoinFirst_collapse l))).symm

/-! ## The regions that are joined -/

/-- The first `k` regions have one topology, each that of the next. -/
def LeadingAlike (regions : List Region) (k : Nat) : Prop :=
  1 ≤ k ∧ k ≤ regions.length ∧
    ∀ i, i + 1 < k → ∀ r t, regions[i]? = some r → regions[i + 1]? = some t → r.SameTopology t

theorem leadingAlike_one (r : Region) (rest : List Region) : LeadingAlike (r :: rest) 1 :=
  ⟨Nat.le_refl 1, by simp, fun i hi => by omega⟩

/-- One region more leads if it is like the second. -/
theorem leadingAlike_cons {r t : Region} {rest : List Region} {k : Nat} (hk : 1 ≤ k) :
    LeadingAlike (r :: t :: rest) (k + 1) ↔
      r.SameTopology t ∧ LeadingAlike (t :: rest) k := by
  constructor
  · rintro ⟨-, hlen, halike⟩
    refine ⟨halike 0 (by omega) r t rfl rfl, hk, by simpa using hlen, fun i hi => ?_⟩
    exact halike (i + 1) (by omega)
  · rintro ⟨hfirst, -, hlen, halike⟩
    refine ⟨by omega, by simpa using hlen, fun i hi u v hu hv => ?_⟩
    cases i with
    | zero =>
      cases hu
      cases hv
      exact hfirst
    | succ i => exact halike i (by omega) u v hu hv

/-- Only the stripes of the first region matter, not its addresses. -/
theorem leadingAlike_join {r t : Region} {rest : List Region} {k : Nat} :
    LeadingAlike (r.join t :: rest) k ↔ LeadingAlike (t :: rest) k := by
  match rest, k with
  | _, 0 => exact ⟨fun h => absurd h.1 (by omega), fun h => absurd h.1 (by omega)⟩
  | _, 1 => exact ⟨fun _ => leadingAlike_one _ _, fun _ => leadingAlike_one _ _⟩
  | [], k + 2 =>
    exact ⟨fun h => absurd h.2.1 (by simp), fun h => absurd h.2.1 (by simp)⟩
  | u :: rest, k + 2 =>
    rw [leadingAlike_cons (by omega), leadingAlike_cons (by omega)]
    exact Iff.rfl

/-- If the first region is like the second, then one region more leads than without the first. -/
theorem isGreatest_leadingAlike_cons {r t : Region} {rest : List Region} {k : Nat}
    (hsame : r.SameTopology t) (hk : IsGreatest {k | LeadingAlike (t :: rest) k} k) :
    IsGreatest {k | LeadingAlike (r :: t :: rest) k} (k + 1) := by
  obtain ⟨hmem, hgreatest⟩ := hk
  have hpos : 1 ≤ k := hmem.1
  refine ⟨(leadingAlike_cons hpos).mpr ⟨hsame, hmem⟩, fun m hm => ?_⟩
  by_cases hone : m ≤ 1
  · exact Nat.le_trans hone (Nat.le_add_left 1 k)
  obtain ⟨m, hm1, rfl⟩ : ∃ n, 1 ≤ n ∧ m = n + 1 := ⟨m - 1, by omega, by omega⟩
  exact Nat.succ_le_succ (hgreatest ((leadingAlike_cons hm1).mp hm).2)

/-- The leading regions that are alike, as many as there are, make one region with the stripes of
the last of them. -/
theorem exists_joinLeading_eq {regions : List Region} (hne : regions ≠ []) :
    ∃ k first last, IsGreatest {k | LeadingAlike regions k} k ∧
      regions[0]? = some first ∧ regions[k - 1]? = some last ∧
      joinLeading regions = ⟨first.start, last.stop, last.stripes⟩ :: regions.drop k := by
  fun_induction joinLeading regions with
  | case1 => exact absurd rfl hne
  | case2 r => exact ⟨1, r, r, ⟨leadingAlike_one r [], fun k hk => hk.2.1⟩, rfl, rfl, rfl⟩
  | case3 r t rest hlike ih =>
    obtain ⟨k, first, last, hk, hfirst, hlast, heq⟩ := ih (by simp)
    obtain rfl : r.join t = first := Option.some.inj hfirst
    simp only [leadingAlike_join] at hk
    have hgreatest := isGreatest_leadingAlike_cons (Region.replicatedLike_iff.mp hlike) hk
    by_cases hone : k = 1
    · -- No region follows that is like the second: that one is the last.
      subst hone
      obtain rfl : r.join t = last := Option.some.inj hlast
      exact ⟨2, r, t, hgreatest, rfl, rfl, heq⟩
    · obtain ⟨m, rfl⟩ : ∃ m, k = m + 2 := ⟨k - 2, by have := hk.1.1; omega⟩
      exact ⟨m + 3, r, last, hgreatest, rfl, hlast, heq⟩
  | case4 r t rest hlike =>
    refine ⟨1, r, r, ⟨leadingAlike_one r _, fun k hk => ?_⟩, rfl, rfl, rfl⟩
    by_contra hmore
    have hsame : r.SameTopology t := hk.2.2 0 (by omega) r t rfl rfl
    exact hlike (Region.replicatedLike_iff.mpr hsame)

/-- Let `k` be the greatest number of leading regions of a valid layout of which each has the
topology of the next. The loop ends with one layout only and no join is refused. That layout has the
epoch, one region in place of these `k`, with the stripes of the last of them, and the others as
they were. It is one that can be created, covers the same addresses and names the same servers in
each stripe of each. Its first two regions cannot be joined, and the loop changes nothing more. -/
theorem collapse_longest_prefix {l : Layout} (hl : l.Valid) :
    (∃ k first last, IsGreatest {k | LeadingAlike l.regions k} k ∧
      l.regions[0]? = some first ∧ l.regions[k - 1]? = some last ∧
      l.collapse = ⟨l.epoch, ⟨first.start, last.stop, last.stripes⟩ :: l.regions.drop k⟩) ∧
    (∀ m, l.JoinsTo m ↔ m = l.collapse) ∧
    create l.collapse.epoch l.collapse.regions = .ok l.collapse ∧
    (∀ x, l.collapse.Covers x ↔ l.Covers x) ∧
    (∀ x, l.collapse.stripesAt x = l.stripesAt x) ∧
    (∀ x i n, n ∈ l.collapse.serversAt x i ↔ n ∈ l.serversAt x i) ∧
    l.collapse.canJoinFirst = false ∧ l.collapse.collapse = l.collapse := by
  have hne : l.regions ≠ [] := (valid_iff.mp hl).1
  obtain ⟨k, first, last, hk, hfirst, hlast, heq⟩ := exists_joinLeading_eq hne
  have hcollapse : l.collapse = ⟨l.epoch, ⟨first.start, last.stop, last.stripes⟩ ::
      l.regions.drop k⟩ := congrArg (Layout.mk l.epoch) heq
  have hcreate : create l.collapse.epoch l.collapse.regions = .ok l.collapse :=
    create_eq_ok_iff.mpr ⟨rfl, hl.collapse⟩
  obtain ⟨hcovers, hstripes, hservers⟩ := hl.alike_collapse
  exact ⟨⟨k, first, last, hk, hfirst, hlast, hcollapse⟩, fun _ => joinsTo_iff, hcreate, hcovers,
    hstripes, hservers, canJoinFirst_collapse l, collapse_collapse l⟩

/-- The second region names the servers of the first in another order, and the third names one of
them twice. The fourth has another server. -/
theorem collapse_longest_prefix_of_three :
    let first : Region := ⟨0, 5, [⟨["a", "b"]⟩, ⟨["c"]⟩]⟩
    let second : Region := ⟨5, 9, [⟨["b", "a"]⟩, ⟨["c"]⟩]⟩
    let third : Region := ⟨9, 12, [⟨["b", "a", "b"]⟩, ⟨["c"]⟩]⟩
    let fourth : Region := ⟨12, 20, [⟨["a", "d"]⟩, ⟨["c"]⟩]⟩
    let l : Layout := ⟨4, [first, second, third, fourth]⟩
    let m : Layout := ⟨4, [⟨0, 12, third.stripes⟩, fourth]⟩
    l.Valid ∧ IsGreatest {k | LeadingAlike l.regions k} 3 ∧ l.collapse = m ∧
      (∀ m', l.JoinsTo m' ↔ m' = m) ∧ create 4 m.regions = .ok m ∧
      (∀ x i n, n ∈ m.serversAt x i ↔ n ∈ l.serversAt x i) ∧ m.collapse = m := by
  intro first second third fourth l m
  have hl : l.Valid := by decide +kernel
  have hcollapse : l.collapse = m := by decide +kernel
  obtain ⟨⟨k, u, v, hk, -, -, heq⟩, hjoins, hcreate, -, -, hservers, -, hagain⟩ :=
    collapse_longest_prefix hl
  rw [hcollapse] at hjoins hcreate hservers hagain
  have hthree : k = 3 := by
    have hlen := congrArg (fun l : Layout => l.regions.length) (heq.symm.trans hcollapse)
    have hle : k ≤ 4 := hk.1.2.1
    simp [l, m] at hlen
    omega
  exact ⟨hl, hthree ▸ hk, hcollapse, hjoins, hcreate, hservers, hagain⟩

end LogRepair.Layout
