import LogRepair.Proofs.Cycle.Questions
import LogRepair.Proofs.Tracked.Counts
import Mathlib.Algebra.GroupWithZero.Nat
import Mathlib.Data.List.Nodup
import Mathlib.Data.List.Perm.Subperm

/-!
# What the tallies of a workload count

The tallies of a target count no address twice. Every address of the target that was reported as
held or written stands on a list of its own, and the tallies add up to no more than its length.

* `Target.toNat_total_le`: the total of a target is at most what its tallies add up to.
* `Target.Balanced`: the tallies of a target add up to at most the number of its addresses that are
  copied, and no worker that waits asks about any of those.
* `Workload.Balanced.take`, `Workload.Balanced.proceed`, `Workload.Balanced.note`: taking a chunk,
  learning what is held of it, and noting its outcome keep this for all targets.
-/

namespace LogRepair

/-! ## What the tallies add up to -/

namespace ChunkOutcome

/-- The addresses that the outcome adds to a tally. -/
def weight : ChunkOutcome → Nat
  | processed present result => present.toNat + result.transferred.toNat
  | held present => present.toNat
  | dropped => 0

end ChunkOutcome

/-- A batch result counts at most the addresses of the batch that were returned. -/
theorem BatchResult.toNat_transferred_ofWritten_le (batch : Batch) (returned : List Address) :
    (ofWritten batch returned).transferred.toNat ≤
      (batch.addresses.filter returned.contains).length := by
  unfold ofWritten
  dsimp only
  split
  · next hall =>
    rw [hall]
    exact toNat_ofNat_le _
  · exact toNat_ofNat_le _

namespace Tally

def weight (t : Tally) : Nat := t.present.toNat + t.written.toNat

theorem weight_note_le (t : Tally) (o : ChunkOutcome) :
    (t.note o).weight ≤ t.weight + o.weight := by
  cases o with
  | processed present result =>
    have hpresent := toNat_add_le t.present present
    have hwritten := toNat_add_le t.written result.transferred
    simp only [note, weight, ChunkOutcome.weight]
    omega
  | held present =>
    have hpresent := toNat_add_le t.present present
    simp only [note, weight, ChunkOutcome.weight]
    omega
  | dropped => exact Nat.le_refl _

theorem weight_append_le (t u : Tally) : (t.append u).weight ≤ t.weight + u.weight := by
  have hpresent := toNat_add_le t.present u.present
  have hwritten := toNat_add_le t.written u.written
  simp only [append, weight]
  omega

theorem weight_foldl_append_le (t : Tally) (us : List Tally) :
    (us.foldl append t).weight ≤ t.weight + (us.map weight).sum := by
  induction us generalizing t with
  | nil => exact Nat.le_refl _
  | cons u us ih =>
    have hrest := ih (t.append u)
    have hfirst := t.weight_append_le u
    simp only [List.foldl_cons, List.map_cons, List.sum_cons]
    omega

theorem weight_noteFor_le (worker : Nat) (o : ChunkOutcome) (ts : List (Nat × Tally)) :
    ((noteFor worker o ts).map (·.2.weight)).sum ≤ (ts.map (·.2.weight)).sum + o.weight := by
  fun_induction noteFor worker o ts with
  | case1 =>
    have hfirst := weight_note_le {} o
    have hnone : weight {} = 0 := rfl
    simp only [List.map_cons, List.map_nil, List.sum_cons, List.sum_nil]
    omega
  | case2 t rest =>
    have hnoted := t.weight_note_le o
    simp only [List.map_cons, List.sum_cons]
    omega
  | case3 k t rest hk ih =>
    simp only [List.map_cons, List.sum_cons]
    omega

end Tally

namespace Target

def weight (t : Target) : Nat := (t.tallies.map (·.2.weight)).sum

/-- The words of the tallies may wrap, and then they count too little. -/
theorem weight_tally_le (t : Target) : t.tally.weight ≤ t.weight := by
  have hsum := Tally.weight_foldl_append_le {} (t.tallies.map (·.2))
  have hnone : Tally.weight {} = 0 := rfl
  rwa [hnone, Nat.zero_add, List.map_map] at hsum

theorem toNat_total_le (t : Target) : t.tally.total.toNat ≤ t.weight :=
  Nat.le_trans (toNat_add_le _ _) t.weight_tally_le

theorem weight_note_le (t : Target) (worker : Nat) (o : ChunkOutcome) :
    (t.note worker o).weight ≤ t.weight + o.weight :=
  Tally.weight_noteFor_le worker o t.tallies

theorem weight_retire (t : Target) (worker : Nat) : (t.retire worker).weight = t.weight :=
  ((t.perm_tallies_retire worker).map _).sum_nat

end Target

/-! ## What one target counts -/

/-- The addresses that the errand is about. -/
def Errand.addresses : Errand → List Address
  | .checking _ span => span.toList
  | .copying _ _ batch => batch.addresses

/-- The addresses of its chunk that an errand has found to be held. -/
def Errand.credit : Errand → Nat
  | .checking _ _ => 0
  | .copying _ present _ => present.toNat

/-- The addresses on the list `counted` are copied, and those `awaited` are others. What the tallies
of the target add up to, with the `credit` that is yet to be noted, is at most their number. -/
structure Target.Settled (copied : Address → Prop) (t : Target) (awaited : List Address)
    (credit : Nat) (counted : List Address) : Prop where
  nodup : (counted ++ awaited).Nodup
  left : ∀ x ∈ counted ++ awaited, x ∈ t.segment.toSpan ∧ t.cursor.Left x
  copied : ∀ x ∈ counted, copied x
  weight_le : t.weight + credit ≤ counted.length

/-- The tallies of the target count no more than its addresses that are copied, and no worker that
waits asks about any of those. -/
def Target.Balanced (copied : Address → Prop) (t : Target) (awaited : List Address)
    (credit : Nat) : Prop :=
  ∃ counted, t.Settled copied awaited credit counted

namespace Target

section

variable {copied copied' : Address → Prop} {t : Target} {awaited awaited' : List Address}
  {credit credit' : Nat}

theorem Balanced.imp (h : t.Balanced copied awaited credit) (hcopied : ∀ x, copied x → copied' x) :
    t.Balanced copied' awaited credit := by
  obtain ⟨counted, hsettled⟩ := h
  exact ⟨counted, hsettled.nodup, hsettled.left, fun x hx => hcopied x (hsettled.copied x hx),
    hsettled.weight_le⟩

theorem Balanced.of_perm (h : t.Balanced copied awaited credit) (hperm : awaited'.Perm awaited) :
    t.Balanced copied awaited' credit := by
  obtain ⟨counted, hsettled⟩ := h
  have hall := hperm.append_left counted
  exact ⟨counted, hall.nodup_iff.mpr hsettled.nodup,
    fun x hx => hsettled.left x (hall.mem_iff.mp hx), hsettled.copied, hsettled.weight_le⟩

theorem Balanced.note {o : ChunkOutcome} (h : t.Balanced copied awaited (credit + o.weight))
    (worker : Nat) : (t.note worker o).Balanced copied awaited credit := by
  obtain ⟨counted, hsettled⟩ := h
  refine ⟨counted, hsettled.nodup, hsettled.left, hsettled.copied, ?_⟩
  have hnoted := t.weight_note_le worker o
  have hle := hsettled.weight_le
  omega

theorem Balanced.retire (h : t.Balanced copied awaited credit) (worker : Nat) :
    (t.retire worker).Balanced copied awaited credit := by
  obtain ⟨counted, hsettled⟩ := h
  refine ⟨counted, hsettled.nodup, hsettled.left, hsettled.copied, ?_⟩
  rw [t.weight_retire worker]
  exact hsettled.weight_le

/-- The addresses of a chunk are none of those that were handed out before. -/
theorem Balanced.advance (h : t.Balanced copied awaited credit) (ht : t.Confined) {span : Span}
    {cursor : Cursor} (hnext : t.cursor.next? = some (span, cursor)) :
    Target.Balanced copied { t with cursor } (awaited ++ span.toList) credit := by
  obtain ⟨counted, hsettled⟩ := h
  have hspan : ∀ x ∈ span.toList, x ∈ span := fun _ => Span.mem_of_mem_toList
  refine ⟨counted, ?_, fun x hx => ?_, hsettled.copied, hsettled.weight_le⟩
  · rw [← List.append_assoc, List.nodup_append]
    refine ⟨hsettled.nodup, span.nodup_toList, fun x hx y hy => ?_⟩
    rintro rfl
    exact ((hsettled.left x hx).2.next hnext).1 (hspan x hy)
  · rw [← List.append_assoc] at hx
    rcases List.mem_append.mp hx with hx | hx
    · obtain ⟨hsegment, hleft⟩ := hsettled.left x hx
      exact ⟨hsegment, (hleft.next hnext).2⟩
    · have hmem := hspan x hx
      exact ⟨(ht.2.next ht.1 hnext).1 x hmem, ht.2.left_of_mem ht.1 hnext hmem⟩

/-- A worker that has asked about the addresses `asked` learns that those in `found` are copied, and
goes on to ask about those in `kept`. -/
theorem Balanced.settle {asked found kept : List Address}
    (h : t.Balanced copied' (awaited ++ asked) (credit + credit'))
    (hcopied : ∀ x, copied' x → copied x) (hasked : (found ++ kept).Subperm asked)
    (hfound : ∀ x ∈ found, copied x) {gain : Nat} (hgain : gain ≤ credit' + found.length) :
    t.Balanced copied (awaited ++ kept) (credit + gain) := by
  obtain ⟨counted, hsettled⟩ := h
  have hsub : (counted ++ found ++ (awaited ++ kept)).Subperm (counted ++ (awaited ++ asked)) := by
    rw [List.subperm_iff_count]
    intro x
    have hcount := hasked.count_le x
    simp only [List.count_append] at hcount ⊢
    omega
  refine ⟨counted ++ found, ?_, fun x hx => ?_, fun x hx => ?_, ?_⟩
  · rw [List.nodup_iff_count_le_one]
    intro x
    exact Nat.le_trans (hsub.count_le x) (List.nodup_iff_count_le_one.mp hsettled.nodup x)
  · exact hsettled.left x (hsub.subset hx)
  · rcases List.mem_append.mp hx with hx | hx
    · exact hcopied x (hsettled.copied x hx)
    · exact hfound x hx
  · have hle := hsettled.weight_le
    rw [List.length_append]
    omega

end

end Target

/-! ## What all targets count -/

namespace Workload

/-- The addresses of a target that the workers that wait are about. -/
def awaited (w : Workload) (i : Nat) : List Address :=
  (w.others.filter (·.2.target = i)).flatMap (·.2.addresses)

/-- The addresses of a target that the workers that wait have found to be held. -/
def credit (w : Workload) (i : Nat) : Nat :=
  ((w.others.filter (·.2.target = i)).map (·.2.credit)).sum

/-- No target counts more than its addresses that are copied, and none of those is awaited. -/
def Balanced (copied : Address → Prop) (w : Workload) : Prop :=
  ∀ (i : Nat) (t : Target), w.targets[i]? = some t →
    t.Balanced copied (w.awaited i) (w.credit i)

section

variable {copied copied' : Address → Prop} {w w' : Workload}

theorem awaited_park (w : Workload) (errand : Errand) (i : Nat) :
    (w.park errand).awaited i =
      w.awaited i ++ if errand.target = i then errand.addresses else [] := by
  by_cases hi : errand.target = i <;> simp [awaited, park, hi]

theorem credit_park (w : Workload) (errand : Errand) (i : Nat) :
    (w.park errand).credit i = w.credit i + if errand.target = i then errand.credit else 0 := by
  by_cases hi : errand.target = i <;> simp [credit, park, hi]

theorem Balanced.imp (h : w.Balanced copied) (hcopied : ∀ x, copied x → copied' x) :
    w.Balanced copied' :=
  fun i t ht => (h i t ht).imp hcopied

/-- It does not matter in which order the workers wait. -/
theorem Balanced.of_perm (h : w.Balanced copied) (htargets : w'.targets = w.targets)
    (hperm : w'.others.Perm w.others) : w'.Balanced copied := by
  intro i t ht
  rw [htargets] at ht
  have hfilter := hperm.filter fun p => decide (p.2.target = i)
  have hcredit : w'.credit i = w.credit i := (hfilter.map _).sum_nat
  rw [hcredit]
  exact (h i t ht).of_perm (hfilter.flatMap_right _)

theorem balanced_ofTargets {targets : List Target} {workers : Nat}
    (h : ∀ t ∈ targets, t.tallies = []) : (ofTargets targets workers).Balanced copied := by
  intro i t ht
  have hnone := h t (List.mem_of_getElem? ht)
  refine ⟨[], .nil, fun x hx => absurd hx List.not_mem_nil,
    fun x hx => absurd hx List.not_mem_nil, ?_⟩
  rw [Target.weight, hnone]
  exact Nat.le_refl 0

theorem Balanced.take (h : w.Balanced copied) (hconfined : w.Confined) {i : Nat} {span : Span}
    (htake : w.take = (w', some (i, span))) : (w'.park (.checking i span)).Balanced copied := by
  have hothers := others_take htake
  have hawaited : ∀ j, w'.awaited j = w.awaited j := fun j => by rw [awaited, hothers]; rfl
  have hcredit : ∀ j, w'.credit j = w.credit j := fun j => by rw [credit, hothers]; rfl
  obtain ⟨⟨t, cursor, ⟨ht, hbalanced⟩, -, hnext, hi⟩, hrest⟩ := forall_take_some
    (P := fun j t => t.Confined ∧ t.Balanced copied (w.awaited j) (w.credit j))
    (fun ht _ worker => ⟨ht.1, Target.Balanced.note (o := .dropped) ht.2 worker⟩)
    (fun j t ht => ⟨hconfined.targets j t ht, h j t ht⟩) htake
  intro j u hu
  rw [awaited_park, credit_park, hawaited, hcredit]
  by_cases hij : (Errand.checking i span).target = j
  · have heq : i = j := hij
    have hu' : w'.targets[j]? = some u := hu
    rw [if_pos hij, if_pos hij]
    rw [← heq, hi] at hu'
    cases hu'
    rw [← heq]
    exact hbalanced.advance ht hnext
  · rw [if_neg hij, if_neg hij, List.append_nil]
    exact (hrest j u (Ne.symm hij) hu).2

theorem Balanced.retire (h : w.Balanced copied) (htake : w.take = (w', none)) :
    w'.retire.Balanced copied := by
  have hothers := others_take htake
  have htargets := forall_take_none
    (P := fun j t => t.Balanced copied (w.awaited j) (w.credit j))
    (fun ht _ worker => Target.Balanced.note (o := .dropped) ht worker) h htake
  intro i u hu
  obtain ⟨t, ht, rfl⟩ := exists_of_retire hu
  have hawaited : w'.retire.awaited i = w.awaited i := by
    rw [awaited, awaited, ← hothers]
    rfl
  have hcredit : w'.retire.credit i = w.credit i := by
    rw [credit, credit, ← hothers]
    rfl
  rw [hawaited, hcredit]
  exact (htargets i t ht).retire _

/-- A worker learns that the addresses `found` of its errand are copied. It goes on to those in
`kept`, and is to note or to be credited with no more than it found. -/
theorem Balanced.settle {errand : Errand} {found kept : List Address} {gain : Nat}
    (h : (w.park errand).Balanced copied') (hcopied : ∀ x, copied' x → copied x)
    (hasked : (found ++ kept).Subperm errand.addresses) (hfound : ∀ x ∈ found, copied x)
    (hgain : gain ≤ errand.credit + found.length) {i : Nat} {t : Target}
    (ht : w.targets[i]? = some t) :
    t.Balanced copied (w.awaited i ++ if errand.target = i then kept else [])
      (w.credit i + if errand.target = i then gain else 0) := by
  have hbefore := h i t ht
  rw [awaited_park, credit_park] at hbefore
  by_cases hi : errand.target = i
  · simp only [if_pos hi] at hbefore ⊢
    exact hbefore.settle hcopied hasked hfound hgain
  · simp only [if_neg hi] at hbefore ⊢
    exact hbefore.imp hcopied

theorem Balanced.proceed {errand errand' : Errand} {found : List Address}
    (h : (w.park errand).Balanced copied') (htarget : errand'.target = errand.target)
    (hcopied : ∀ x, copied' x → copied x)
    (hasked : (found ++ errand'.addresses).Subperm errand.addresses)
    (hfound : ∀ x ∈ found, copied x) (hcredit : errand'.credit ≤ errand.credit + found.length) :
    (w.park errand').Balanced copied := by
  intro i t ht
  rw [awaited_park, credit_park, htarget]
  exact h.settle hcopied hasked hfound hcredit ht

theorem Balanced.note {errand : Errand} {o : ChunkOutcome} {found : List Address}
    (h : (w.park errand).Balanced copied') (hcopied : ∀ x, copied' x → copied x)
    (hasked : found.Subperm errand.addresses) (hfound : ∀ x ∈ found, copied x)
    (hweight : o.weight ≤ errand.credit + found.length) :
    (w.note errand.target o).Balanced copied := by
  intro i u hu
  obtain ⟨t, ht, rfl⟩ := exists_of_note hu
  have hnone : (found ++ []).Subperm errand.addresses := by rwa [List.append_nil]
  have hsettled := h.settle hcopied hnone hfound hweight ht
  rw [ite_self, List.append_nil] at hsettled
  show Target.Balanced copied _ (w.awaited i) (w.credit i)
  by_cases hi : errand.target = i
  · rw [if_pos hi] at hsettled ⊢
    exact hsettled.note w.worker
  · rw [if_neg hi] at hsettled ⊢
    exact hsettled

/-- A worker that dies notes nothing. -/
theorem Balanced.leave {errand : Errand} (h : (w.park errand).Balanced copied') (crashed : Bool)
    (hcopied : ∀ x, copied' x → copied x) : Balanced copied { w with crashed } := by
  intro i t ht
  have hnone : ([] ++ [] : List Address).Subperm errand.addresses := List.nil_subperm
  have hgain : 0 ≤ errand.credit + ([] : List Address).length := Nat.zero_le _
  have hsettled := h.settle hcopied hnone (fun x hx => absurd hx List.not_mem_nil) hgain ht
  rw [ite_self, ite_self, List.append_nil] at hsettled
  exact hsettled

theorem Balanced.recancel (h : w.Balanced copied) (f : Target → Bool) :
    (w.recancel f).Balanced copied := by
  intro i u hu
  obtain ⟨t, ht, rfl⟩ := exists_of_recancel hu
  obtain ⟨counted, hsettled⟩ := h i t ht
  exact ⟨counted, hsettled.nodup, hsettled.left, hsettled.copied, hsettled.weight_le⟩

end

end Workload

end LogRepair
