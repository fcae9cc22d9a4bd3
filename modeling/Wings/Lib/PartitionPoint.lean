import Mathlib.Data.Bool.Basic
import Mathlib.Data.List.Basic
import Mathlib.Order.Nat

/-!
# Wings.Lib.PartitionPoint — the binary search of a partitioned slice

`partition_point` of the standard library: on a list whose first elements have a property and the others do not,
the number of the first ones.  The loop halves a window of the list and keeps that its base is a good place to go
on from.
-/

namespace Wings.Lib

variable {α : Type*} {p : α → Bool} {xs : List α}

/-- Once the property fails it fails for all later elements. -/
def Partitioned (p : α → Bool) (xs : List α) : Prop :=
  xs.Pairwise fun x y => p y = true → p x = true

/-- The loop of `binary_search_by`: a window of `size` elements from `base`. -/
def searchWindow (p : α → Bool) (xs : List α) (base size : ℕ) : ℕ :=
  if 1 < size then
    let half := size / 2
    let mid := base + half
    searchWindow p xs (if (xs[mid]?).any p then mid else base) (size - half)
  else base
termination_by size

def partitionPoint (p : α → Bool) (xs : List α) : ℕ :=
  if xs.length = 0 then 0
  else
    let base := searchWindow p xs 0 xs.length
    if (xs[base]?).any p then base + 1 else base

variable (h : Partitioned p xs)
include h

theorem Partitioned.of_le {i j : ℕ} (hij : i ≤ j) (hj : (xs[j]?).any p = true) :
    (xs[i]?).any p = true := by
  rcases Nat.eq_or_lt_of_le hij with rfl | hlt
  · exact hj
  obtain ⟨y, hy, hpy⟩ := (Option.any_eq_true _ _).mp hj
  obtain ⟨hjlt, rfl⟩ := List.getElem?_eq_some_iff.mp hy
  have hilt : i < xs.length := hlt.trans hjlt
  rw [List.getElem?_eq_getElem hilt, Option.any_some]
  exact List.pairwise_iff_getElem.mp h i j hilt hjlt hlt hpy

/-- The window begins at the start or at an element with the property, and behind its end there is none. -/
theorem searchWindow_spec {base size : ℕ} (hsize : 0 < size)
    (hbase : base = 0 ∨ (xs[base]?).any p = true) (hend : (xs[base + size]?).any p = false) :
    let found := searchWindow p xs base size
    (found = 0 ∨ (xs[found]?).any p = true) ∧ (xs[found + 1]?).any p = false := by
  -- the two recursive calls keep either half of the window
  fun_induction searchWindow p xs base size with
  | case1 base size hlarge half mid ih =>
    have hhalf : 0 < half ∧ half < size := ⟨Nat.div_pos hlarge (by omega), Nat.div_lt_self hsize (by omega)⟩
    refine ih (by omega) ?_ ?_
    · split
      next hmid => exact .inr hmid
      · exact hbase
    · split
      next =>
        rw [show mid + (size - half) = base + size by omega]
        exact hend
      next hmid =>
        by_contra hcontra
        exact hmid (h.of_le (by omega) (Bool.eq_true_of_not_eq_false hcontra))
  | case2 base size hsmall =>
    obtain rfl : size = 1 := by omega
    exact ⟨hbase, hend⟩

/-- **The partition point.** -/
theorem partitionPoint_spec :
    (∀ i < partitionPoint p xs, (xs[i]?).any p = true) ∧ ∀ i, partitionPoint p xs ≤ i → (xs[i]?).any p = false := by
  have hback : ∀ {n : ℕ}, (xs[n]?).any p = false → ∀ i, n ≤ i → (xs[i]?).any p = false := by
    intro n hn i hi
    by_contra hcontra
    rw [h.of_le hi (Bool.eq_true_of_not_eq_false hcontra)] at hn
    cases hn
  unfold partitionPoint
  split
  next hnil =>
    refine ⟨fun i hi => absurd hi (Nat.not_lt_zero i), fun i _ => ?_⟩
    rw [List.length_eq_zero_iff.mp hnil]
    rfl
  next hnil =>
    have hend : (xs[0 + xs.length]?).any p = false := by
      rw [Nat.zero_add, List.getElem?_eq_none le_rfl, Option.any_none]
    obtain ⟨hfound, hnext⟩ := searchWindow_spec h (Nat.pos_of_ne_zero hnil) (.inl rfl) hend
    dsimp only
    split
    next hbase => exact ⟨fun i hi => h.of_le (Nat.le_of_lt_succ hi) hbase, hback hnext⟩
    next hbase =>
      have hzero := hfound.resolve_right hbase
      refine ⟨fun i hi => absurd hi (by omega), hback ?_⟩
      simpa using hbase

end Wings.Lib
