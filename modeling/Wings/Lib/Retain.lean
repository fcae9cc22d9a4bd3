import Mathlib.Data.List.AList
import Mathlib.Order.Lattice

/-!
# Wings.Lib.Retain — maps that are cleaned up

`retain` keeps the entries of a map that a test accepts.

* `lookup_retain` — what is found then.
* `le_foldl_max` — the largest of the values that have been dropped.
-/

namespace Wings.Lib

variable {κ β : Type} [DecidableEq κ]

def retain (m : AList fun _ : κ => β) (p : κ → β → Bool) : AList fun _ : κ => β :=
  ⟨m.entries.filter fun e => p e.1 e.2, List.NodupKeys.sublist List.filter_sublist m.nodupKeys⟩

theorem lookup_retain (m : AList fun _ : κ => β) (p : κ → β → Bool) (k : κ) :
    (retain m p).lookup k = (m.lookup k).filter (p k) := by
  ext v
  rw [Option.filter_eq_some_iff, ← Option.mem_def, ← Option.mem_def, AList.mem_lookup_iff, AList.mem_lookup_iff, retain,
    List.mem_filter]

theorem le_foldl_max {α : Type} [LinearOrder α] (acc : α) (xs : List α) :
    acc ≤ xs.foldl max acc ∧ ∀ x ∈ xs, x ≤ xs.foldl max acc := by
  induction xs generalizing acc with
  | nil => exact ⟨le_rfl, nofun⟩
  | cons x xs ih =>
    obtain ⟨hacc, hxs⟩ := ih (max acc x)
    exact ⟨(le_max_left acc x).trans hacc, List.forall_mem_cons.mpr ⟨(le_max_right acc x).trans hacc, hxs⟩⟩

end Wings.Lib
