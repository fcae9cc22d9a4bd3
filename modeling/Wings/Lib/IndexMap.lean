import Mathlib.Data.List.Basic

/-!
# Wings.Lib.IndexMap — a map that keeps its entries in the order they were inserted

The entries as a list; a key that is inserted again keeps its place.

* `find`, `insert` with `find_insert_self`, and `insert_find`: nothing changes when what is there is inserted.
-/

namespace Wings.Lib

abbrev IndexMap (κ α : Type) := List (κ × α)

namespace IndexMap

variable {κ α : Type} [DecidableEq κ]

def find (k : κ) : IndexMap κ α → Option α
  | [] => none
  | (k', a) :: m => if k' = k then some a else find k m

def insert (k : κ) (a : α) : IndexMap κ α → IndexMap κ α
  | [] => [(k, a)]
  | (k', a') :: m => if k' = k then (k', a) :: m else (k', a') :: insert k a m

theorem find_insert_self (k : κ) (a : α) (m : IndexMap κ α) : find k (insert k a m) = some a := by
  induction m with
  | nil => exact if_pos rfl
  | cons e m ih =>
    rw [insert]
    split
    next h => exact if_pos h
    next h => exact (if_neg h).trans ih

theorem find_insert_of_ne {k k' : κ} (hne : k' ≠ k) (a : α) (m : IndexMap κ α) : find k' (insert k a m) = find k' m := by
  induction m with
  | nil => exact if_neg (Ne.symm hne)
  | cons e m ih =>
    rw [insert]
    split
    next h =>
      have hother : e.1 ≠ k' := fun heq => hne (heq.symm.trans h)
      exact (if_neg hother).trans (if_neg hother).symm
    next => exact if_congr Iff.rfl rfl ih

theorem insert_find {k : κ} {a : α} {m : IndexMap κ α} (h : find k m = some a) : insert k a m = m := by
  induction m with
  | nil => cases h
  | cons e m ih =>
    rw [find] at h
    rw [insert]
    split at h
    next heq => rw [if_pos heq, ← Option.some.inj h]
    next hne => rw [if_neg hne, ih h]

end IndexMap

end Wings.Lib
