import LogRepair.Proofs.Batch.Combination
import LogRepair.Proofs.Cycle.Visits

/-!
# Outcomes divided among workers

The workers of a target keep their tallies apart until they have ended. What the tallies come to is
what one worker would have tallied that saw all outcomes, share after share. It agrees with the
combined results of the batches.

* `Tally.ofWorkers_map_ofOutcomes`: the tallies of the shares are the tally of the whole.
* `Tally.Reflects`: a tally that agrees with the combined results.
* `Tally.reflects_ofWorkers`: however the outcomes are divided, the tally agrees, and only the
  cause that it keeps depends on the division.
-/

namespace LogRepair

namespace ChunkOutcome

/-- The addresses of the chunk that were held already. -/
def heldBefore : ChunkOutcome → UInt64
  | processed present _ | held present => present
  | dropped => 0

/-- The result of the batch that the rest of the chunk went through. -/
def result? : ChunkOutcome → Option BatchResult
  | processed _ result => some result
  | held _ | dropped => none

theorem failure?_eq (o : ChunkOutcome) : o.failure? = o.result?.bind (·.failure) := by
  cases o <;> rfl

end ChunkOutcome

/-- The results of the batches among the outcomes. -/
def resultsOf (outcomes : List ChunkOutcome) : List BatchResult :=
  outcomes.filterMap ChunkOutcome.result?

theorem BatchResult.transferred_concat {results : List BatchResult}
    (hbuilt : ∀ r ∈ results, r.Built) :
    (concat results).transferred = (results.map (·.transferred)).sum := by
  have hlength := (concat_summarizes hbuilt).addresses_perm.length_eq
  rw [transferred, Batch.size, hlength]
  clear hbuilt hlength
  induction results with
  | nil => rfl
  | cons r results ih =>
    rw [List.flatMap_cons, List.length_append, UInt64.ofNat_add, ih, List.map_cons, List.sum_cons]
    rfl

/-- Without a failure before it, the failure that counts is that of the first result with one. -/
theorem BatchResult.failure_concat {results : List BatchResult} (hbuilt : ∀ r ∈ results, r.Built) :
    (concat results).failure = results.findSome? (·.failure) := by
  rw [(concat_summarizes hbuilt).failure_eq]
  induction results with
  | nil => rfl
  | cons r results ih =>
    obtain ⟨hr, hrest⟩ := List.forall_mem_cons.mp hbuilt
    rw [List.findSome?_cons, List.find?_cons]
    cases hr with
    | succeeded batch => exact ih hrest
    | failed written failure => rfl

namespace Tally

/-! ## The tally of a share -/

theorem append_note (t u : Tally) (o : ChunkOutcome) :
    t.append (u.note o) = (t.append u).note o := by
  cases o with
  | processed present result => simp only [append, note, add_assoc, Option.or_assoc]
  | held present => simp only [append, note, add_assoc]
  | dropped => simp only [append, note, Bool.or_true]

theorem append_foldl_note (t u : Tally) (os : List ChunkOutcome) :
    t.append (os.foldl note u) = os.foldl note (t.append u) := by
  induction os generalizing u with
  | nil => rfl
  | cons o os ih => rw [List.foldl_cons, ih, append_note, List.foldl_cons]

theorem append_none (t : Tally) : t.append {} = t := by
  simp [append]

theorem append_ofOutcomes (t : Tally) (os : List ChunkOutcome) :
    t.append (ofOutcomes os) = os.foldl note t := by
  rw [ofOutcomes, append_foldl_note, append_none]

/-- The tallies of the shares come to the tally of one worker that saw share after share. -/
theorem ofWorkers_map_ofOutcomes (shares : List (List ChunkOutcome)) :
    ofWorkers (shares.map ofOutcomes) = ofOutcomes shares.flatten := by
  rw [ofWorkers, ofOutcomes, List.foldl_map, List.foldl_flatten]
  congr 1
  funext t os
  exact append_ofOutcomes t os

theorem present_foldl_note (t : Tally) (os : List ChunkOutcome) :
    (os.foldl note t).present = t.present + (os.map ChunkOutcome.heldBefore).sum := by
  induction os generalizing t with
  | nil => simp
  | cons o os ih =>
    rw [List.foldl_cons, ih, List.map_cons, List.sum_cons, ← add_assoc]
    cases o <;> simp [note, ChunkOutcome.heldBefore]

theorem written_foldl_note (t : Tally) (os : List ChunkOutcome) :
    (os.foldl note t).written = t.written + ((resultsOf os).map (·.transferred)).sum := by
  induction os generalizing t with
  | nil => simp [resultsOf]
  | cons o os ih =>
    rw [List.foldl_cons, ih]
    cases o with
    | processed present result => exact add_assoc _ _ _
    | held | dropped => rfl

/-! ## The tally of all shares -/

/-- The tally agrees with the combined results of the batches among the outcomes, the cause of a
failure with those in the order `joined`. -/
structure Reflects (outcomes joined : List ChunkOutcome) (t : Tally) : Prop where
  written_eq : t.written = (BatchResult.concat (resultsOf outcomes)).transferred
  present_eq : t.present = .ofNat (outcomes.map (·.heldBefore.toNat)).sum
  cancelled_iff : t.cancelled = true ↔ .dropped ∈ outcomes
  failure_isSome_iff : t.failure.isSome = true ↔ ∃ r ∈ resultsOf outcomes, r.status = .failed
  failure_eq : t.failure = (BatchResult.concat (resultsOf joined)).failure

theorem sum_heldBefore (outcomes : List ChunkOutcome) :
    (outcomes.map ChunkOutcome.heldBefore).sum =
      .ofNat (outcomes.map (·.heldBefore.toNat)).sum := by
  induction outcomes with
  | nil => rfl
  | cons o outcomes ih =>
    rw [List.map_cons, List.sum_cons, ih, List.map_cons, List.sum_cons, UInt64.ofNat_add,
      UInt64.ofNat_toNat]

theorem reflects_ofOutcomes {outcomes joined : List ChunkOutcome} (hjoined : joined.Perm outcomes)
    (hbuilt : ∀ r ∈ resultsOf outcomes, r.Built) :
    Reflects outcomes joined (ofOutcomes joined) := by
  have hresults : (resultsOf joined).Perm (resultsOf outcomes) := hjoined.filterMap _
  have hbuilt' : ∀ r ∈ resultsOf joined, r.Built := fun r hr => hbuilt r (hresults.mem_iff.mp hr)
  have hsummary := BatchResult.concat_summarizes hbuilt'
  obtain ⟨-, hfailure, hcancelled⟩ := foldl_note {} joined
  have hfailure' : (ofOutcomes joined).failure =
      (BatchResult.concat (resultsOf joined)).failure := by
    rw [ofOutcomes, hfailure, BatchResult.failure_concat hbuilt', resultsOf,
      ← List.head?_filterMap, ← List.head?_filterMap, List.filterMap_filterMap,
      funext ChunkOutcome.failure?_eq]
    rfl
  refine ⟨?_, ?_, ?_, ?_, hfailure'⟩
  · have hnone : ({} : Tally).written = 0 := rfl
    rw [ofOutcomes, written_foldl_note, BatchResult.transferred_concat hbuilt, hnone, zero_add,
      (hresults.map _).sum_eq]
  · have hnone : ({} : Tally).present = 0 := rfl
    rw [ofOutcomes, present_foldl_note, hnone, zero_add, (hjoined.map _).sum_eq, sum_heldBefore]
  · rw [ofOutcomes, hcancelled, hjoined.mem_iff]
    exact or_iff_right Bool.false_ne_true
  · have hwhole := hsummary.built hbuilt'
    rw [hfailure', BatchResult.built_iff.mp hwhole, hsummary.status_eq_failed_iff]
    simp only [hresults.mem_iff]

/-- The tallies differ at most in the cause of a failure that they keep. -/
structure Alike (t u : Tally) : Prop where
  present_eq : t.present = u.present
  written_eq : t.written = u.written
  cancelled_eq : t.cancelled = u.cancelled
  failure_isSome_eq : t.failure.isSome = u.failure.isSome

theorem Reflects.alike {outcomes joined joined' : List ChunkOutcome} {t u : Tally}
    (ht : Reflects outcomes joined t) (hu : Reflects outcomes joined' u) : Alike t u := by
  refine ⟨?_, ?_, ?_, ?_⟩
  · rw [ht.present_eq, hu.present_eq]
  · rw [ht.written_eq, hu.written_eq]
  · rw [Bool.eq_iff_iff, ht.cancelled_iff, hu.cancelled_iff]
  · rw [Bool.eq_iff_iff, ht.failure_isSome_iff, hu.failure_isSome_iff]

/-- However the outcomes of a target are divided among workers, and in whatever order these are
joined, the tally agrees with the combined results of the batches. Another division can change
only the cause of a failure that it keeps. -/
theorem reflects_ofWorkers {outcomes : List ChunkOutcome} {shares : List (List ChunkOutcome)}
    (hshares : shares.flatten.Perm outcomes) (hbuilt : ∀ r ∈ resultsOf outcomes, r.Built) :
    Reflects outcomes shares.flatten (ofWorkers (shares.map ofOutcomes)) ∧
      ∀ shares' : List (List ChunkOutcome), shares'.flatten.Perm outcomes →
        Alike (ofWorkers (shares.map ofOutcomes)) (ofWorkers (shares'.map ofOutcomes)) := by
  simp only [ofWorkers_map_ofOutcomes]
  have hreflects := reflects_ofOutcomes hshares hbuilt
  exact ⟨hreflects, fun shares' hshares' =>
    hreflects.alike (reflects_ofOutcomes hshares' hbuilt)⟩

/-- Four chunks of a target, two of which failed. -/
def fourOutcomes : List ChunkOutcome :=
  [.processed 2 (.succeeded ⟨[4, 5], none⟩), .processed 0 (.failed ⟨[9], none⟩ ⟨"timeout"⟩),
    .held 3, .processed 1 (.failed ⟨[], none⟩ ⟨"reset"⟩)]

/-- Two workers share them, and the one with the last chunk ends first. -/
def twoShares : List (List ChunkOutcome) := [fourOutcomes.drop 3, fourOutcomes.take 3]

theorem reflects_twoShares :
    twoShares.flatten.Perm fourOutcomes ∧ (∀ r ∈ resultsOf fourOutcomes, r.Built) ∧
      Reflects fourOutcomes twoShares.flatten (ofWorkers (twoShares.map ofOutcomes)) ∧
      Alike (ofWorkers (twoShares.map ofOutcomes)) (ofWorkers ([fourOutcomes].map ofOutcomes)) ∧
      (ofWorkers (twoShares.map ofOutcomes)).failure = some ⟨"reset"⟩ := by
  have hperm : twoShares.flatten.Perm fourOutcomes := by decide +kernel
  have hbuilt : ∀ r ∈ resultsOf fourOutcomes, r.Built := by
    simp only [resultsOf, fourOutcomes, List.filterMap_cons, ChunkOutcome.result?,
      List.forall_mem_cons, List.filterMap_nil]
    exact ⟨.succeeded _, .failed _ _, .failed _ _, by simp⟩
  obtain ⟨hreflects, halike⟩ := reflects_ofWorkers hperm hbuilt
  have hwhole : [fourOutcomes].flatten.Perm fourOutcomes := by rw [List.flatten_singleton]
  exact ⟨hperm, hbuilt, hreflects, halike [fourOutcomes] hwhole, rfl⟩

end Tally

end LogRepair
