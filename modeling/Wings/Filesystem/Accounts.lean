import Wings.Filesystem.Tree
import Wings.Filesystem.Usage

/-!
# Wings.Filesystem.Accounts — the two accounts of a server's disk usage

`server/filesystem/mod.rs`: the cached totals and the usage tree, which every operation on files
charges together.  The tree is sorted everywhere; the structure carries it.
-/

namespace Wings.Filesystem

open Lib DiskUsage

structure Accounts where
  cached : Cached
  usage : DiskUsage Name
  sorted : usage.SortedAll

/-- The keys of a directory of the server in the usage tree. -/
def directoryKeys (path : Subpath) : List Name := nodeKeys (path.map .normal)

theorem DiskUsage.SortedAll.updateSize {t : DiskUsage Name} (h : t.SortedAll) (path : Path)
    (delta : SpaceDelta) : (t.updateSize path delta).SortedAll := by
  rw [updateSize_eq]
  exact h.updateSizeIterator delta _

theorem DiskUsage.SortedAll.removePath {t removed t' : DiskUsage Name} (h : t.SortedAll) {path : Path}
    (hr : t.removePath path = some (removed, t')) : removed.SortedAll ∧ t'.SortedAll := by
  rw [removePath_eq] at hr
  by_cases hne : nodeKeys path = []
  · rw [hne] at hr
    cases hr
  · rcases recursiveRemove_spec h hne with ⟨hnone, -⟩ | ⟨removed', t'', hr', hrem⟩
    · rw [hnone] at hr
      cases hr
    · rw [hr'] at hr
      cases hr
      refine ⟨fun q node hq => ?_, hrem.sorted⟩
      refine h (nodeKeys path ++ q) node ?_
      rw [getPathComponents_append, hrem.node]
      exact hq

theorem DiskUsage.SortedAll.addDirectory {t source : DiskUsage Name} (h : t.SortedAll)
    (hs : source.SortedAll) (target : List Name) : (t.addDirectory target source).2.SortedAll := by
  simp only [DiskUsage.addDirectory]
  split_ifs
  · exact h
  · exact graft _ _ h hs target

namespace Accounts

/-- The usage recorded at the keys of a directory, nothing being zero. -/
def sizeAt (a : Accounts) (q : List Name) : ℤ × ℤ := ((a.usage.spaceAt q).getD .zero).amount

/-- `Filesystem::async_allocate_in_path`: whether the limit allows it, and the accounts after it. -/
def asyncAllocateInPath (a : Accounts) (path : Subpath) (delta : ℤ) (ignorant : Bool) : Bool × Accounts :=
  match tryUpdateAtomics a.cached (.ofI64 delta) ignorant with
  | none => (false, a)
  | some cached =>
    (true,
      { cached := cached
        usage := a.usage.updateSize (path.map .normal) (.ofI64 delta)
        sorted := a.sorted.updateSize _ _ })

/-- The directory branch of `rename_path`: the node moves with everything below it. -/
def moveDirectory (a : Accounts) (old absNew : Subpath) : Accounts :=
  match hr : a.usage.removePath (old.map .normal) with
  | none => a
  | some (removed, usage) =>
    { a with
      usage := (usage.addDirectory (absNew.map fun n => toStringLossy n.1) removed).2
      sorted := (a.sorted.removePath hr).2.addDirectory (a.sorted.removePath hr).1 _ }

/-- What `truncate_path` does to the accounts once a directory is gone. -/
def forget (a : Accounts) (path : Subpath) : Accounts :=
  match hr : a.usage.removePath (path.map .normal) with
  | none => a
  | some (removed, usage) =>
    let delta : SpaceDelta := ⟨wrapI64 (-wrapI64 removed.space.logical), wrapI64 (-wrapI64 removed.space.physical)⟩
    { cached := (tryUpdateAtomics a.cached delta false).getD a.cached
      usage := usage
      sorted := (a.sorted.removePath hr).2 }

/-- No counter saturates when the delta is charged to the directory. -/
structure Fits (a : Accounts) (path : Subpath) (delta : ℤ) : Prop where
  logical : 0 ≤ a.cached.logical + delta ∧ a.cached.logical + delta < 2 ^ 64
  physical : 0 ≤ a.cached.physical + delta ∧ a.cached.physical + delta < 2 ^ 64
  nodes : ∀ q, q <+: directoryKeys path → 0 ≤ a.sizeAt q + (delta, delta) ∧ a.sizeAt q + (delta, delta) ≤ maxAmount

/-- **Exactness.**  An ignorant charge that saturates no counter moves the totals by the delta, and
the directory with every directory above it too. -/
theorem asyncAllocateInPath_exact {a : Accounts} {path : Subpath} {delta : ℤ} (hf : a.Fits path delta) :
    ((a.asyncAllocateInPath path delta true).2.cached.logical) = a.cached.logical + delta ∧
      ∀ q, (a.asyncAllocateInPath path delta true).2.sizeAt q =
        a.sizeAt q + if q <+: directoryKeys path then (delta, delta) else 0 := by
  obtain ⟨c', hc'⟩ := Option.isSome_iff_exists.mp (tryUpdateAtomics_ignorant a.cached (.ofI64 delta))
  simp only [asyncAllocateInPath, hc']
  refine ⟨(exact_of_tryUpdateAtomics hc' hf.logical.1 hf.logical.2 hf.physical.1 hf.physical.2).1, fun q => ?_⟩
  have hkeys : nodeKeys (path.map .normal) = directoryKeys path := rfl
  simp only [sizeAt, updateSize_eq]
  rw [hkeys, spaceAt_updateSizeIterator a.sorted]
  by_cases hq : q <+: directoryKeys path
  · obtain ⟨hlow, hhigh⟩ := hf.nodes q hq
    rw [if_pos hq, if_pos hq]
    exact UsedSpace.amount_update hlow hhigh
  · rw [if_neg hq, if_neg hq, add_zero]

end Accounts

end Wings.Filesystem
