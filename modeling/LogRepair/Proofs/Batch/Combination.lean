import LogRepair.Batch.Basic
import Mathlib.Data.List.Forall2

/-!
# Results combined

A result that was combined from others stands for all of them. How they were grouped on the way
cannot be told from it, and the order in which they came only from the one cause and the one hint
that it keeps.

* `BatchResult.Gathers`, `BatchResult.Summarizes`: what a result says of those it stands for.
* `BatchResult.summarizes_concat`: a list of results that each stand for others.
* `BatchResult.concat_laws`: results form a monoid, and the combination of a list is its product.
-/

namespace LogRepair.BatchResult

/-- The result of a batch that went well or badly. -/
inductive Built : BatchResult → Prop
  | succeeded (batch : Batch) : Built (.succeeded batch)
  | failed (written : Batch) (failure : Failure) : Built (.failed written failure)

theorem built_iff {r : BatchResult} :
    r.Built ↔ (r.failure.isSome = true ↔ r.status = .failed) := by
  constructor
  · rintro (⟨batch⟩ | ⟨written, failure⟩)
    · exact iff_of_false Bool.false_ne_true fun h => by cases h
    · exact iff_of_true rfl rfl
  · obtain ⟨batch, status, failure⟩ := r
    intro h
    cases status with
    | succeeded =>
      cases failure with
      | none => exact .succeeded batch
      | some f => cases h.mp rfl
    | failed =>
      cases failure with
      | none => cases h.mpr rfl
      | some f => exact .failed batch f

theorem status_eq_of_iff {a b : BatchResult} (h : a.status = .failed ↔ b.status = .failed) :
    a.status = b.status := by
  cases ha : a.status with
  | succeeded =>
    cases hb : b.status with
    | succeeded => rfl
    | failed =>
      rw [h.mpr hb] at ha
      cases ha
  | failed => exact (h.mp ha).symm

/-! ## What a result stands for -/

/-- The result says of a list of others which addresses they wrote, in any order, whether one of
them failed, why the first one did, and the first hint. -/
structure Gathers (results : List BatchResult) (r : BatchResult) : Prop where
  addresses_perm : r.batch.addresses.Perm (results.flatMap (·.batch.addresses))
  status_eq_failed_iff : r.status = .failed ↔ ∃ t ∈ results, t.status = .failed
  failure_eq : r.failure = (results.find? (·.status = .failed)).bind (·.failure)
  sources_eq : r.batch.sources = results.findSome? (·.batch.sources)

/-- The same, with the addresses in ascending order. -/
structure Summarizes (results : List BatchResult) (r : BatchResult) : Prop
    extends Gathers results r where
  ascending : r.batch.addresses.Pairwise (· ≤ ·)

section

variable {results results' : List BatchResult} {a b r : BatchResult}

theorem mem_and_failed_of_find? {t : BatchResult}
    (h : results.find? (·.status = .failed) = some t) : t ∈ results ∧ t.status = .failed :=
  ⟨List.mem_of_find?_eq_some h, by simpa using List.find?_some h⟩

theorem Gathers.built (h : Gathers results r) (hbuilt : ∀ t ∈ results, t.Built) : r.Built := by
  rw [built_iff, h.failure_eq, h.status_eq_failed_iff]
  cases hfound : results.find? (·.status = .failed) with
  | none =>
    refine iff_of_false Bool.false_ne_true ?_
    rintro ⟨t, ht, hfailed⟩
    exact List.find?_eq_none.mp hfound t ht (decide_eq_true hfailed)
  | some t =>
    obtain ⟨ht, hfailed⟩ := mem_and_failed_of_find? hfound
    exact iff_of_true ((built_iff.mp (hbuilt t ht)).mpr hfailed) ⟨t, ht, hfailed⟩

theorem gathers_singleton (hr : r.Built) : Gathers [r] r := by
  refine ⟨?_, ?_, ?_, ?_⟩
  · rw [List.flatMap_singleton]
  · simp only [List.mem_singleton, exists_eq_left]
  · cases hr <;> rfl
  · cases hsources : r.batch.sources <;> simp [hsources]

theorem summarizes_empty : Summarizes [] empty where
  addresses_perm := .refl _
  status_eq_failed_iff := iff_of_false (fun h => by cases h) fun ⟨_, ht, _⟩ => by cases ht
  failure_eq := rfl
  sources_eq := rfl
  ascending := .nil

/-- A result is known from the list that it stands for, but for the order of its addresses. -/
theorem Summarizes.eq (h : Summarizes results a) (h' : Summarizes results b) : a = b := by
  have haddresses : a.batch.addresses = b.batch.addresses :=
    (h.addresses_perm.trans h'.addresses_perm.symm).eq_of_pairwise
      (fun _ _ _ _ => Int64.le_antisymm) h.ascending h'.ascending
  have hstatus := status_eq_of_iff (h.status_eq_failed_iff.trans h'.status_eq_failed_iff.symm)
  have hfailure := h.failure_eq.trans h'.failure_eq.symm
  have hsources := h.sources_eq.trans h'.sources_eq.symm
  obtain ⟨⟨_, _⟩, _, _⟩ := a
  obtain ⟨⟨_, _⟩, _, _⟩ := b
  cases haddresses
  cases hstatus
  cases hfailure
  cases hsources
  rfl

/-! ## Combining -/

theorem status_append_eq_failed_iff (a b : BatchResult) :
    (a.append b).status = .failed ↔ a.status = .failed ∨ b.status = .failed := by
  unfold append isSuccess
  cases a.status <;> cases b.status <;> simp

/-- A failure of the first result hides that of the second. -/
theorem failure_append (ha : a.Built) (hb : b.Built) :
    (a.append b).failure = a.failure.or b.failure := by
  cases ha <;> cases hb <;> rfl

theorem ascending_append (a b : BatchResult) :
    (a.append b).batch.addresses.Pairwise (· ≤ ·) := by
  have hsorted : (a.append b).batch.addresses.Pairwise fun x y => decide (x ≤ y) = true := by
    apply List.pairwise_mergeSort
    · intro x y z hxy hyz
      exact decide_eq_true (Int64.le_trans (of_decide_eq_true hxy) (of_decide_eq_true hyz))
    · intro x y
      simpa using Int64.le_total x y
  exact hsorted.imp of_decide_eq_true

/-- Two results in one stand for all that either stands for. -/
theorem Gathers.append (ha : Gathers results a) (hb : Gathers results' b)
    (hbuilt : ∀ t ∈ results ++ results', t.Built) :
    Summarizes (results ++ results') (a.append b) := by
  obtain ⟨hleft, hright⟩ := List.forall_mem_append.mp hbuilt
  refine ⟨⟨?_, ?_, ?_, ?_⟩, ascending_append a b⟩
  · rw [List.flatMap_append]
    exact (List.mergeSort_perm _ _).trans (ha.addresses_perm.append hb.addresses_perm)
  · rw [status_append_eq_failed_iff, ha.status_eq_failed_iff, hb.status_eq_failed_iff]
    simp only [List.mem_append, or_and_right, exists_or]
  · rw [failure_append (ha.built hleft) (hb.built hright), ha.failure_eq, hb.failure_eq,
      List.find?_append]
    cases hfound : results.find? (·.status = .failed) with
    | none => rfl
    | some t =>
      -- The first result that failed has a cause, so no later one is looked at.
      obtain ⟨ht, hfailed⟩ := mem_and_failed_of_find? hfound
      have hcause := (built_iff.mp (hleft t ht)).mpr hfailed
      obtain ⟨failure, hfailure⟩ := Option.isSome_iff_exists.mp hcause
      simp only [Option.bind_some, Option.some_or, hfailure]
  · show a.batch.sources.or b.batch.sources = _
    rw [ha.sources_eq, hb.sources_eq, List.findSome?_append]

/-- Results that each stand for a list, combined one after another. -/
theorem summarizes_foldl {lists : List (List BatchResult)} {rs : List BatchResult}
    (hgathers : List.Forall₂ Gathers lists rs) (ha : Summarizes results a)
    (hbuilt : ∀ t ∈ results ++ lists.flatten, t.Built) :
    Summarizes (results ++ lists.flatten) (rs.foldl BatchResult.append a) := by
  induction hgathers generalizing results a with
  | nil => simpa using ha
  | @cons list r lists rs hr hrest ih =>
    rw [List.flatten_cons, ← List.append_assoc] at hbuilt ⊢
    obtain ⟨hleft, -⟩ := List.forall_mem_append.mp hbuilt
    exact ih (ha.toGathers.append hr hleft) hbuilt

theorem summarizes_concat {lists : List (List BatchResult)} {rs : List BatchResult}
    (hgathers : List.Forall₂ Gathers lists rs) (hbuilt : ∀ t ∈ lists.flatten, t.Built) :
    Summarizes lists.flatten (concat rs) :=
  summarizes_foldl hgathers summarizes_empty hbuilt

/-- The combination of a list stands for the list. -/
theorem concat_summarizes (hbuilt : ∀ t ∈ results, t.Built) :
    Summarizes results (concat results) := by
  have hflatten : (results.map ([·])).flatten = results := by
    rw [← List.flatMap_def, List.flatMap_singleton']
  have hgathers : List.Forall₂ Gathers (results.map ([·])) results := by
    rw [List.forall₂_map_left_iff, List.forall₂_same]
    exact fun t ht => gathers_singleton (hbuilt t ht)
  have hall := summarizes_concat hgathers (by rwa [hflatten])
  rwa [hflatten] at hall

/-- A list that is combined group by group comes to the same. -/
theorem concat_map_concat {groups : List (List BatchResult)}
    (hbuilt : ∀ t ∈ groups.flatten, t.Built) :
    concat (groups.map concat) = concat groups.flatten := by
  have hgathers : List.Forall₂ Gathers groups (groups.map concat) := by
    rw [List.forall₂_map_right_iff, List.forall₂_same]
    refine fun group hgroup => (concat_summarizes fun t ht => ?_).toGathers
    exact hbuilt t (List.mem_flatten_of_mem hgroup ht)
  exact (summarizes_concat hgathers hbuilt).eq (concat_summarizes hbuilt)

/-! ## The order of the results -/

/-- The results differ at most in which cause and which hint they keep. -/
structure Alike (a b : BatchResult) : Prop where
  addresses_eq : a.batch.addresses = b.batch.addresses
  status_eq : a.status = b.status
  failure_isSome_eq : a.failure.isSome = b.failure.isSome
  sources_isSome_eq : a.batch.sources.isSome = b.batch.sources.isSome

theorem Summarizes.alike (h : Summarizes results a) (h' : Summarizes results' b)
    (hperm : results.Perm results') (hbuilt : ∀ t ∈ results', t.Built) : Alike a b := by
  have hstatus : a.status = b.status := status_eq_of_iff (by
    simp only [h.status_eq_failed_iff, h'.status_eq_failed_iff, hperm.mem_iff])
  refine ⟨?_, hstatus, ?_, ?_⟩
  · have haddresses := h.addresses_perm.trans
      ((hperm.flatMap_right _).trans h'.addresses_perm.symm)
    exact haddresses.eq_of_pairwise (fun _ _ _ _ => Int64.le_antisymm) h.ascending h'.ascending
  · have ha := built_iff.mp (h.built fun t ht => hbuilt t (hperm.mem_iff.mp ht))
    have hb := built_iff.mp (h'.built hbuilt)
    rw [Bool.eq_iff_iff, ha, hb, hstatus]
  · rw [Bool.eq_iff_iff, h.sources_eq, h'.sources_eq]
    simp only [List.findSome?_isSome_iff, hperm.mem_iff]

end

/-- Results form a monoid, and the combination of a list is its product. It lists every written
address in ascending order, fails exactly if some result failed, and keeps the cause of the first
failure and the first hint. Combined group by group the list comes to the same; in another order it
keeps at most another cause and another hint. -/
theorem concat_laws :
    (∀ results : List BatchResult, (∀ r ∈ results, r.Built) →
      Summarizes results (concat results) ∧
      (∀ groups : List (List BatchResult), groups.flatten = results →
        concat (groups.map concat) = concat results) ∧
      ∀ permuted : List BatchResult, permuted.Perm results →
        Alike (concat permuted) (concat results)) ∧
    (∀ a b c : BatchResult, a.Built → b.Built → c.Built →
      (a.append b).Built ∧ (a.append b).append c = a.append (b.append c)) ∧
    empty.Built ∧
    ∀ r : BatchResult, r.Built → r.batch.addresses.Pairwise (· ≤ ·) →
      empty.append r = r ∧ r.append empty = r := by
  refine ⟨fun results hbuilt => ⟨concat_summarizes hbuilt, ?_, fun permuted hperm => ?_⟩,
    fun a b c ha hb hc => ?_, .succeeded _, fun r hr hascending => ?_⟩
  · rintro groups rfl
    exact concat_map_concat hbuilt
  · have hpermuted : ∀ t ∈ permuted, t.Built := fun t ht => hbuilt t (hperm.mem_iff.mp ht)
    exact (concat_summarizes hpermuted).alike (concat_summarizes hbuilt) hperm hbuilt
  · have hab : ∀ t ∈ [a, b], t.Built := by simp [ha, hb]
    have hbc : ∀ t ∈ [b, c], t.Built := by simp [hb, hc]
    have habc : ∀ t ∈ [a, b, c], t.Built := by simp [ha, hb, hc]
    have hfirst := ((gathers_singleton ha).append (gathers_singleton hb) hab).toGathers
    have hlast := ((gathers_singleton hb).append (gathers_singleton hc) hbc).toGathers
    refine ⟨hfirst.built hab, ?_⟩
    exact (hfirst.append (gathers_singleton hc) habc).eq
      ((gathers_singleton ha).append hlast habc)
  · have hsingle : ∀ t ∈ [r], t.Built := by simpa using hr
    have hitself : Summarizes [r] r := ⟨gathers_singleton hr, hascending⟩
    have hleft := summarizes_empty.toGathers.append hitself.toGathers hsingle
    have hright := hitself.toGathers.append summarizes_empty.toGathers hsingle
    exact ⟨hleft.eq hitself, hright.eq hitself⟩

/-- Two of four batches fail, and one of them wrote nothing. -/
def mixedResults : List BatchResult :=
  [.succeeded ⟨[1, 0], none⟩, .failed ⟨[], some ["a"]⟩ ⟨"timeout"⟩, .succeeded ⟨[5, 4], none⟩,
    .failed ⟨[0], some ["b"]⟩ ⟨"reset"⟩]

theorem concat_mixedResults :
    (∀ r ∈ mixedResults, r.Built) ∧ (concat mixedResults).batch.addresses = [0, 0, 1, 4, 5] ∧
      (concat mixedResults).status = .failed ∧ (concat mixedResults).failure = some ⟨"timeout"⟩ ∧
      (concat mixedResults).batch.sources = some ["a"] ∧
      concat [concat (mixedResults.take 1), concat (mixedResults.drop 1)] =
        concat mixedResults := by
  have hbuilt : ∀ r ∈ mixedResults, r.Built := by
    simp only [mixedResults, List.forall_mem_cons]
    exact ⟨.succeeded _, .failed _ _, .succeeded _, .failed _ _, by simp⟩
  obtain ⟨hsummary, hgrouped, -⟩ := concat_laws.1 mixedResults hbuilt
  refine ⟨hbuilt, ?_, ?_, hsummary.failure_eq, hsummary.sources_eq, ?_⟩
  · refine (hsummary.addresses_perm.trans (by decide)).eq_of_pairwise
      (fun _ _ _ _ => Int64.le_antisymm) hsummary.ascending (by decide)
  · exact hsummary.status_eq_failed_iff.mpr ⟨_, List.mem_cons_of_mem _ List.mem_cons_self, rfl⟩
  · exact hgrouped [mixedResults.take 1, mixedResults.drop 1] rfl

end LogRepair.BatchResult
