import LogRepair.Proofs.Json.Documents
import LogRepair.Proofs.Layout.Changes
import Mathlib.Logic.Relation

/-!
# Layouts after any series of edits

No edit checks the layout that it makes. All the same a valid layout stays valid and keeps its
addresses, however many edits follow each other and in whichever order, so that each layout that
comes out of them can be written and is read back by anyone.

* `Layout.Valid.edit`: what one edit keeps.
* `Layout.sound_after_edits`: what any series of edits keeps.
-/

namespace LogRepair.Layout

/-! ## One edit -/

theorem replicate_eq (l : Layout) (node : NodeId) (s : Span) :
    l.replicate node s =
      l.mapRegions fun r => if r.span.overlaps s then r.withServer node else r := rfl

theorem Valid.replicate {l : Layout} (hl : l.Valid) (node : NodeId) (s : Span) :
    (l.replicate node s).Valid := by
  rw [replicate_eq]
  refine hl.mapRegions (fun r => ?_) (fun r => ?_) fun r hr => ?_
  · split <;> rfl
  · split <;> rfl
  · split
    · exact hr.withServer node
    · exact hr

theorem covers_replicate (l : Layout) (node : NodeId) (s : Span) (x : Address) :
    (l.replicate node s).Covers x ↔ l.Covers x := by
  rw [replicate_eq]
  exact covers_mapRegions (fun r => by split <;> rfl) x

/-- Two regions in one cover the addresses of both. -/
theorem covers_join {epoch : Epoch} {r t : Region} {rest : List Region}
    (hl : Valid ⟨epoch, r :: t :: rest⟩) (x : Address) :
    Covers ⟨epoch, r.join t :: rest⟩ x ↔ Covers ⟨epoch, r :: t :: rest⟩ x := by
  simp only [Covers, List.mem_cons, or_and_right, exists_or, exists_eq_left, mem_span_join hl,
    or_assoc]

theorem Valid.joinFirst {l m : Layout} (hl : l.Valid) (h : l.joinFirst = .ok m) :
    m.Valid ∧ ∀ x, m.Covers x ↔ l.Covers x := by
  obtain ⟨epoch, regions⟩ := l
  match regions, h with
  | r :: t :: rest, h =>
    cases h
    exact ⟨hl.join, covers_join hl⟩
  | [_], h => cases h
  | [], h => cases h

theorem Valid.edit {l m : Layout} {e : Edit} (hl : l.Valid) (h : l.edit e = .ok m) :
    m.Valid ∧ ∀ x, m.Covers x ↔ l.Covers x := by
  cases e with
  | successor =>
    cases h
    exact ⟨hl, fun _ => Iff.rfl⟩
  | joinFirst => exact hl.joinFirst h
  | collapse =>
    cases h
    exact ⟨hl.collapse, hl.alike_collapse.covers_iff⟩
  | replicate node segment =>
    cases h
    exact ⟨hl.replicate node _, covers_replicate l node _⟩
  | replicateCopied node segments =>
    cases h
    exact ⟨hl.replicateCopied node segments, covers_replicateCopied l node segments⟩

/-! ## Any series of edits -/

/-- Some edit leads from the first layout to the second. -/
def Leads (l m : Layout) : Prop := ∃ e, l.edit e = .ok m

theorem Valid.edits {l m : Layout} (hl : l.Valid) (h : Relation.ReflTransGen Leads l m) :
    m.Valid ∧ ∀ x, m.Covers x ↔ l.Covers x := by
  induction h with
  | refl => exact ⟨hl, fun _ => Iff.rfl⟩
  | tail _ hlast ih =>
    obtain ⟨hvalid, hcovers⟩ := ih
    obtain ⟨e, he⟩ := hlast
    obtain ⟨hvalid', hcovers'⟩ := hvalid.edit he
    exact ⟨hvalid', fun x => (hcovers' x).trans (hcovers x)⟩

/-- Whatever series of edits made it from a layout that was created or read, for any nodes and any
segments: a layout has a region, its regions have bounds in order, stripes, and no gap between
them, so it could be created as it is. It covers the addresses of the first layout, and is read
back as it was written. -/
theorem sound_after_edits {l m : Layout}
    (horigin : (∃ epoch regions, create epoch regions = .ok l) ∨ ∃ j, ofJson j = .ok l)
    (h : Relation.ReflTransGen Leads l m) :
    m.regions ≠ [] ∧
      (∀ r ∈ m.regions, 0 ≤ r.start ∧ r.start < r.stop ∧ r.stripes ≠ []) ∧
      (∀ i r t, m.regions[i]? = some r → m.regions[i + 1]? = some t → r.stop = t.start) ∧
      create m.epoch m.regions = .ok m ∧
      (∀ x, m.Covers x ↔ l.Covers x) ∧
      ofJson m.toJson = .ok m := by
  have hl : l.Valid := by
    rcases horigin with ⟨epoch, regions, hcreate⟩ | ⟨j, hread⟩
    · exact (create_eq_ok_iff.mp hcreate).2
    · exact valid_of_ofJson hread
  obtain ⟨hm, hcovers⟩ := hl.edits h
  obtain ⟨hne, hregions, hcontiguous⟩ := valid_iff.mp hm
  refine ⟨hne, fun r hr => ?_, fun i r t => hcontiguous.stop_eq, ?_, hcovers, ofJson_toJson hm⟩
  · obtain ⟨hnonneg, hlt, hstripes⟩ := hregions r hr
    exact ⟨hnonneg, hlt, hstripes⟩
  · exact create_eq_ok_iff.mpr ⟨rfl, hm⟩

/-- The node is added to the first region, which is then like the second, the two are joined, and
the next epoch begins. -/
theorem sound_after_edits_joining :
    let l : Layout := ⟨4, [⟨0, 5, [⟨["a"]⟩]⟩, ⟨5, 9, [⟨["n", "a"]⟩]⟩, ⟨9, 12, [⟨["b"]⟩]⟩]⟩
    let m : Layout := ⟨5, [⟨0, 9, [⟨["n", "a"]⟩]⟩, ⟨9, 12, [⟨["b"]⟩]⟩]⟩
    create 4 l.regions = .ok l ∧ Relation.ReflTransGen Leads l m ∧
      create m.epoch m.regions = .ok m ∧ (∀ x, m.Covers x ↔ l.Covers x) ∧
      ofJson m.toJson = .ok m := by
  intro l m
  let listed : Layout :=
    ⟨4, [⟨0, 5, [⟨["a", "n"]⟩]⟩, ⟨5, 9, [⟨["n", "a"]⟩]⟩, ⟨9, 12, [⟨["b"]⟩]⟩]⟩
  let joined : Layout := ⟨4, m.regions⟩
  have hcreate : create 4 l.regions = .ok l := create_eq_ok_iff.mpr ⟨rfl, by decide +kernel⟩
  have hlisted : l.replicate "n" ⟨0, 4⟩ = listed := by decide +kernel
  have hjoined : listed.collapse = joined := by decide +kernel
  have hedits : Relation.ReflTransGen Leads l m :=
    .head ⟨.replicate "n" ⟨⟨0, 4⟩, .transferred 5⟩, congrArg Except.ok hlisted⟩
      (.head ⟨.collapse, congrArg Except.ok hjoined⟩ (.single ⟨.successor, rfl⟩))
  obtain ⟨-, -, -, hsound⟩ := sound_after_edits (Or.inl ⟨4, l.regions, hcreate⟩) hedits
  exact ⟨hcreate, hedits, hsound⟩

end LogRepair.Layout
