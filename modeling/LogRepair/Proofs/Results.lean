import LogRepair.Error
import Mathlib.Data.List.Forall2

/-!
# Lists of results

An operation that may be refused, applied to each element of a list, succeeds exactly if it does
so on every element.

* `mapM_eq_ok_iff`: the results of a successful pass are the results of its elements.
* `forall₂_of_mapM`: each stands in the place of its element.
* `FailsWith`: what the errors of an operation have in common.
-/

namespace LogRepair

variable {α β : Type}

theorem mapM_eq_ok_iff {f : α → Except Error β} {xs : List α} {ys : List β} :
    xs.mapM f = .ok ys ↔ xs.map f = ys.map .ok := by
  induction xs generalizing ys with
  | nil =>
    rw [List.mapM_nil, List.map_nil]
    constructor
    · intro h
      cases h
      rfl
    · intro h
      rw [List.map_eq_nil_iff.mp h.symm]
      rfl
  | cons x xs ih =>
    rw [List.mapM_cons, List.map_cons]
    constructor
    · intro h
      cases hx : f x with
      | error e =>
        rw [hx] at h
        cases h
      | ok y =>
        rw [hx] at h
        cases hxs : xs.mapM f with
        | error e =>
          rw [hxs] at h
          cases h
        | ok zs =>
          rw [hxs] at h
          cases h
          rw [ih.mp hxs]
          rfl
    · intro h
      cases ys with
      | nil => cases h
      | cons y zs =>
        obtain ⟨hx, hxs⟩ := List.cons.inj h
        rw [hx, ih.mpr hxs]
        rfl

/-- Each result of a successful pass is the result of an element. -/
theorem exists_of_mem_mapM {f : α → Except Error β} {xs : List α} {ys : List β}
    (h : xs.mapM f = .ok ys) {y : β} (hy : y ∈ ys) : ∃ x ∈ xs, f x = .ok y := by
  have hmem : Except.ok y ∈ xs.map f := by
    rw [mapM_eq_ok_iff.mp h]
    exact List.mem_map_of_mem hy
  simpa using hmem

theorem forall₂_of_mapM {f : α → Except Error β} {xs : List α} {ys : List β}
    (h : xs.mapM f = .ok ys) : List.Forall₂ (fun x y => x ∈ xs ∧ f x = .ok y) xs ys := by
  refine (List.forall₂_and_left xs ys).mpr ⟨fun _ => id, ?_⟩
  have heq : List.Forall₂ Eq (xs.map f) (ys.map .ok) := by
    rw [List.forall₂_eq_eq_eq]
    exact mapM_eq_ok_iff.mp h
  rwa [List.forall₂_map_left_iff, List.forall₂_map_right_iff] at heq

/-- A pass that is refused nowhere is a plain one. -/
theorem mapM_eq_ok_map {f : α → Except Error β} {g : α → β} {xs : List α}
    (h : ∀ x ∈ xs, f x = .ok (g x)) : xs.mapM f = .ok (xs.map g) := by
  rw [mapM_eq_ok_iff, List.map_map]
  exact List.map_congr_left h

/-- A pass is refused as a whole only if it is refused somewhere. -/
theorem exists_mapM_eq_ok {f : α → Except Error β} {xs : List α}
    (h : ∀ x ∈ xs, ∃ y, f x = .ok y) : ∃ ys, xs.mapM f = .ok ys := by
  induction xs with
  | nil => exact ⟨[], rfl⟩
  | cons x xs ih =>
    obtain ⟨hx, hxs⟩ := List.forall_mem_cons.mp h
    obtain ⟨y, hy⟩ := hx
    obtain ⟨ys, hys⟩ := ih hxs
    refine ⟨y :: ys, mapM_eq_ok_iff.mpr ?_⟩
    rw [List.map_cons, List.map_cons, hy, mapM_eq_ok_iff.mp hys]

/-- What the results show of the elements, they show in the order of the elements. -/
theorem map_eq_map_of_mapM {γ : Type} {f : α → Except Error β} {g : β → γ} {k : α → γ}
    {xs : List α} {ys : List β} (h : xs.mapM f = .ok ys)
    (hg : ∀ x ∈ xs, ∀ y, f x = .ok y → g y = k x) : ys.map g = xs.map k := by
  rw [mapM_eq_ok_iff] at h
  induction xs generalizing ys with
  | nil =>
    rw [List.map_nil, eq_comm, List.map_eq_nil_iff] at h
    rw [h]
    rfl
  | cons x xs ih =>
    obtain ⟨hx, hxs⟩ := List.forall_mem_cons.mp hg
    cases ys with
    | nil => cases h
    | cons y ys =>
      obtain ⟨hxy, hrest⟩ := List.cons.inj h
      rw [List.map_cons, List.map_cons, hx y hxy, ih hrest hxs]

/-- An operation in two parts succeeds only if both do. -/
theorem exists_of_bind_eq_ok {x : Except Error α} {f : α → Except Error β} {b : β}
    (h : x >>= f = .ok b) : ∃ a, x = .ok a ∧ f a = .ok b := by
  cases hx : x with
  | error e =>
    rw [hx] at h
    cases h
  | ok a =>
    rw [hx] at h
    exact ⟨a, rfl, h⟩

/-! ## Errors -/

/-- Every error of `x` satisfies `P`. -/
def FailsWith (P : Error → Prop) (x : Except Error α) : Prop := ∀ e, x = .error e → P e

variable {P : Error → Prop}

theorem failsWith_ok (a : α) : FailsWith P (.ok a) := by
  intro e h
  cases h

theorem failsWith_error {e : Error} (he : P e) : FailsWith P (.error e : Except Error α) := by
  intro e' h
  cases h
  exact he

theorem failsWith_bind {x : Except Error α} {f : α → Except Error β} (hx : FailsWith P x)
    (hf : ∀ a, FailsWith P (f a)) : FailsWith P (x >>= f) := by
  intro e h
  cases hres : x with
  | error e' =>
    rw [hres] at h
    cases h
    exact hx e hres
  | ok a =>
    rw [hres] at h
    exact hf a e h

theorem failsWith_map {x : Except Error α} (f : α → β) (hx : FailsWith P x) :
    FailsWith P (f <$> x) := by
  intro e h
  cases hres : x with
  | error e' =>
    rw [hres] at h
    cases h
    exact hx e hres
  | ok a =>
    rw [hres] at h
    cases h

theorem failsWith_mapM {f : α → Except Error β} {xs : List α} (hf : ∀ x ∈ xs, FailsWith P (f x)) :
    FailsWith P (xs.mapM f) := by
  induction xs with
  | nil => exact failsWith_ok []
  | cons x xs ih =>
    obtain ⟨hx, hxs⟩ := List.forall_mem_cons.mp hf
    rw [List.mapM_cons]
    exact failsWith_bind hx fun y => failsWith_bind (ih hxs) fun ys => failsWith_ok (y :: ys)

end LogRepair
