import Mathlib.Data.Multiset.DershowitzManna

/-!
# Wings.Lib.Worklist — a loop over a stack of entries

An entry is taken from the stack, acts on a state and puts entries of a lower rank on the stack.  The ranks on the
stack decrease as a multiset, so the loop ends.

* `Worklist`, `Worklist.loop`.
* **`loop_eq_foldl`**
-/

namespace Wings.Lib

structure Worklist (σ ε : Type) where
  rank : ε → ℕ
  act : σ → ε → σ
  /-- The entries that are put on the stack, the uppermost first. -/
  next : σ → ε → List ε
  rank_next : ∀ s e, ∀ e' ∈ next s e, rank e' < rank e

namespace Worklist

variable {σ ε : Type} (w : Worklist σ ε)

def ranks (stack : List ε) : Multiset ℕ := (stack.map w.rank : List ℕ)

theorem ranks_next_lt (s : σ) (e : ε) (stack : List ε) :
    Multiset.IsDershowitzMannaLT (w.ranks (w.next s e ++ stack)) (w.ranks (e :: stack)) := by
  refine ⟨w.ranks stack, w.ranks (w.next s e), {w.rank e}, Multiset.singleton_ne_zero _, ?_, ?_, ?_⟩
  · rw [ranks, List.map_append, ← Multiset.coe_add, add_comm]
    rfl
  · rw [add_comm, Multiset.singleton_add]
    rfl
  · intro rank hrank
    obtain ⟨e', he', rfl⟩ := List.mem_map.mp (Multiset.mem_coe.mp hrank)
    exact ⟨w.rank e, Multiset.mem_singleton_self _, w.rank_next s e e' he'⟩

local instance : WellFoundedRelation (Multiset ℕ) := ⟨_, Multiset.wellFounded_isDershowitzMannaLT⟩

def loop (s : σ) : List ε → σ
  | [] => s
  | e :: stack => loop (w.act s e) (w.next s e ++ stack)
termination_by stack => w.ranks stack
decreasing_by exact w.ranks_next_lt s e stack

/-- **The loop applies a function to the entries of the stack in turn**, if the function follows an entry all the
way down. -/
theorem loop_eq_foldl {visit : σ → ε → σ} (hvisit : ∀ s e, visit s e = (w.next s e).foldl visit (w.act s e))
    (s : σ) (stack : List ε) : w.loop s stack = stack.foldl visit s := by
  induction s, stack using loop.induct w with
  | case1 s => rw [loop, List.foldl_nil]
  | case2 s e stack ih => rw [loop, ih, List.foldl_append, ← hvisit, List.foldl_cons]

end Worklist

end Wings.Lib
