import Mathlib.Data.List.Sort
import Mathlib.Data.Prod.Lex
import Wings.Lib.PathLedger
import Wings.Path

/-!
# Wings.DeduplicatePaths — the topmost of some paths

`deduplicate_paths` of `utils.rs`: the paths are sorted, and a path below the last one kept is
dropped.  Sorting is by components, so that everything below a path follows it without a gap.

* **`deduplicatePaths_spec`**
-/

namespace Wings

open Lib List

/-! ## The order of paths -/

/-- The position of a component among the variants of `Component`, and its bytes. -/
def Component.sortKey : Component → ℕ ×ₗ Name
  | .rootDir => toLex (0, [])
  | .curDir => toLex (1, [])
  | .parentDir => toLex (2, [])
  | .normal name => toLex (3, name.1)

theorem Component.sortKey_injective : Function.Injective sortKey := by
  intro a b h
  cases a <;> cases b <;> simp_all [sortKey, Subtype.ext_iff]

instance : LinearOrder Component := LinearOrder.lift' Component.sortKey Component.sortKey_injective

section order

variable {α : Type} [LinearOrder α]

/-- In the order by components, what lies between a path and one below it is below it. -/
theorem prefix_of_between {p q r : List α} (hpr : p <+: r) (hpq : p ≤ q) (hqr : q ≤ r) : p <+: q := by
  obtain ⟨s, rfl⟩ := hpr
  induction p generalizing q with
  | nil => exact nil_prefix
  | cons a p ih =>
    cases q with
    | nil => exact absurd (nil_lt_cons a p) (not_lt.mpr hpq)
    | cons b q =>
      rw [cons_append, ← not_lt, cons_lt_cons_iff, not_or, not_and] at hqr
      rw [← not_lt, cons_lt_cons_iff, not_or, not_and] at hpq
      obtain rfl : a = b := le_antisymm (not_lt.mp hpq.1) (not_lt.mp hqr.1)
      have hbelow := ih (not_lt.mp (hpq.2 rfl)) (not_lt.mp (hqr.2 rfl))
      exact cons_prefix_cons.mpr ⟨rfl, hbelow⟩

theorem le_of_above {p q : List α} (h : p <+: q) : p ≤ q := by
  obtain ⟨s, rfl⟩ := h
  induction p with
  | nil => exact not_lt.mp (not_lt_nil s)
  | cons a p ih => exact cons_le_cons a ih

end order

/-! ## The function -/

/-- The loop of `deduplicate_paths`; `unique` is what has been kept, last first. -/
def dropCovered (unique : List Path) : List Path → List Path
  | [] => unique.reverse
  | path :: paths =>
    match unique with
    | [] => dropCovered [path] paths
    | last :: rest =>
      if last <+: path then dropCovered (last :: rest) paths
      else dropCovered (path :: last :: rest) paths

/-- `Vec::dedup`: of equal neighbours only the first stays. -/
def dedupNeighbours : List Path → List Path
  | [] => []
  | path :: paths =>
    match dedupNeighbours paths with
    | [] => [path]
    | next :: rest => if path = next then next :: rest else path :: next :: rest

def deduplicatePaths (paths : List Path) : List Path :=
  if paths = [] then [] else dropCovered [] (dedupNeighbours (paths.insertionSort (· ≤ ·)))

/-! ## What it keeps -/

variable (paths : List Path)

theorem dedupNeighbours_sublist : (dedupNeighbours paths).Sublist paths := by
  induction paths with
  | nil => exact Sublist.refl _
  | cons path paths ih =>
    rw [dedupNeighbours]
    cases hd : dedupNeighbours paths with
    | nil => exact (nil_sublist paths).cons_cons path
    | cons next rest =>
      rw [hd] at ih
      dsimp only
      split_ifs
      · exact ih.cons path
      · exact ih.cons_cons path

theorem mem_dedupNeighbours (path : Path) : path ∈ dedupNeighbours paths ↔ path ∈ paths := by
  refine ⟨fun h => (dedupNeighbours_sublist paths).subset h, fun h => ?_⟩
  induction paths with
  | nil => exact h
  | cons first paths ih =>
    rw [dedupNeighbours]
    cases hd : dedupNeighbours paths with
    | nil =>
      rw [hd] at ih
      rcases mem_cons.mp h with rfl | h
      · exact mem_singleton.mpr rfl
      · exact nomatch ih h
    | cons next rest =>
      rw [hd] at ih
      dsimp only
      split_ifs with heq
      · exact (mem_cons.mp h).elim (fun hf => hf ▸ heq ▸ mem_cons_self) ih
      · exact mem_cons.mpr ((mem_cons.mp h).imp id ih)

/-- What the loop keeps, from paths that are apart and in order with everything still to come. -/
theorem dropCovered_spec {unique paths : List Path} (hu : unique.Pairwise Apart)
    (hs : (unique.reverse ++ paths).Pairwise (· ≤ ·)) :
    (dropCovered unique paths).Pairwise Apart ∧ (∀ p ∈ dropCovered unique paths, p ∈ unique.reverse ++ paths) ∧
      ∀ p ∈ unique.reverse ++ paths, ∃ k ∈ dropCovered unique paths, k <+: p := by
  induction paths generalizing unique with
  | nil =>
    rw [dropCovered, append_nil]
    exact ⟨pairwise_reverse.mpr (hu.imp Apart.symm), fun p hp => hp, fun p hp => ⟨p, hp, prefix_rfl⟩⟩
  | cons path paths ih =>
    cases unique with
    | nil => exact @ih [path] (pairwise_singleton _ _) hs
    | cons last rest =>
      rw [dropCovered]
      split_ifs with hcovered
      · have hfewer : (last :: rest).reverse ++ paths <+ (last :: rest).reverse ++ path :: paths :=
          (sublist_cons_self path paths).append_left _
        obtain ⟨hpair, hmem, hcov⟩ := ih hu (hs.sublist hfewer)
        refine ⟨hpair, fun p hp => hfewer.subset (hmem p hp), fun p hp => ?_⟩
        rw [mem_append, mem_cons] at hp
        rcases hp with hp | rfl | hp
        · exact hcov p (mem_append_left _ hp)
        · obtain ⟨k, hk, hkl⟩ := hcov last (mem_append_left _ (mem_reverse.mpr mem_cons_self))
          exact ⟨k, hk, hkl.trans hcovered⟩
        · exact hcov p (mem_append_right _ hp)
      · obtain ⟨hold, -, hle⟩ := pairwise_append.mp hs
        replace hle : ∀ u ∈ last :: rest, u ≤ path := fun u hmem => hle u (mem_reverse.mpr hmem) path mem_cons_self
        -- A kept path above `path` is above everything between them, the last one kept included.
        have hapart : ∀ u ∈ last :: rest, Apart path u := fun u hmem => by
          have habove : ¬ u <+: path := fun hup => by
            rcases mem_cons.mp hmem with rfl | hrest
            · exact hcovered hup
            · have hul := (pairwise_cons.mp (pairwise_reverse.mp hold)).1 u hrest
              exact ((pairwise_cons.mp hu).1 u hrest).2 (prefix_of_between hup hul (hle last mem_cons_self))
          refine ⟨fun hpu => habove ?_, habove⟩
          rw [le_antisymm (hle u hmem) (le_of_above hpu)]
        rw [append_cons, ← reverse_cons] at hs ⊢
        exact ih (pairwise_cons.mpr ⟨hapart, hu⟩) hs

/-- **The topmost paths.**  No path kept is below another, every path kept was given, and every path
given is at or below one that is kept. -/
theorem deduplicatePaths_spec :
    (deduplicatePaths paths).Pairwise Apart ∧ (∀ p ∈ deduplicatePaths paths, p ∈ paths) ∧
      ∀ p ∈ paths, ∃ k ∈ deduplicatePaths paths, k <+: p := by
  rw [deduplicatePaths]
  split_ifs with hnil
  · subst hnil
    exact ⟨Pairwise.nil, fun p hp => hp, fun p hp => nomatch hp⟩
  · have hsorted : (dedupNeighbours (paths.insertionSort (· ≤ ·))).Pairwise (· ≤ ·) :=
      (pairwise_insertionSort (· ≤ ·) paths).sublist (dedupNeighbours_sublist _)
    have hmem : ∀ p, p ∈ dedupNeighbours (paths.insertionSort (· ≤ ·)) ↔ p ∈ paths := fun p => by
      rw [mem_dedupNeighbours, mem_insertionSort]
    obtain ⟨hpair, hin, hcov⟩ := @dropCovered_spec [] _ Pairwise.nil hsorted
    exact ⟨hpair, fun p hp => (hmem p).mp (hin p hp), fun p hp => hcov p ((hmem p).mpr hp)⟩

end Wings
