import Wings.Lib.MachineInt
import Wings.Lib.TreeWalk
import Wings.Path

/-!
# Wings.Filesystem.WalkDir — walking a directory tree

`server/filesystem/cap/utils.rs`: `WalkDir` keeps a stack of open directories, each with the entries
it has still to yield.  A directory is yielded before what is in it, and symbolic links are yielded
as what they are.

* **`walk_eq_listing`**
-/

namespace Wings.Filesystem

open Lib List FileTree

/-! ## What is on the disk -/

/-- What a stat of an entry reports; directories and other entries alike. -/
structure Metadata where
  len : ℕ
  blocks : ℕ
  ino : ℕ
  nlink : ℕ
  isSymlink : Bool
  deriving DecidableEq, Repr

namespace Metadata

def sizeLogical (m : Metadata) : ℕ := m.len

def sizePhysical (m : Metadata) : ℕ := wrapU64 (m.blocks * 512)

end Metadata

abbrev Disk := FileTree FileName Metadata Metadata

/-- How the host follows links. -/
abbrev LinkRules := FileTree.Resolution FileName Metadata Metadata Metadata.isSymlink

def Disk.metadata : Disk → Metadata
  | .leaf m => m
  | .dir m _ => m

/-! ## The walker -/

/-- `WalkEntry`: the path of an entry, with what is there. -/
abbrev WalkEntry := Subpath × Disk

/-- `WalkDir::stack`: the path of each open directory, with the entries still to be read. -/
abbrev WalkStack := List (Subpath × List (FileName × Disk))

/-- `WalkDir::next_entry`, with nothing ignored and not reversed. -/
def nextEntry : WalkStack → Option (WalkEntry × WalkStack)
  | [] => none
  | (_, []) :: stack => nextEntry stack
  | (parentPath, (name, entry) :: readDir) :: stack =>
    let fullPath := parentPath ++ [name]
    match entry with
    | .dir _ sub => some ((fullPath, entry), (fullPath, sub) :: (parentPath, readDir) :: stack)
    | .leaf _ => some ((fullPath, entry), (parentPath, readDir) :: stack)

/-- What is still to be yielded. -/
def pendingEntries (stack : WalkStack) : List WalkEntry :=
  stack.flatMap fun frame => FileTree.listing frame.1 frame.2

def walkFrom : ℕ → WalkStack → List WalkEntry
  | 0, _ => []
  | fuel + 1, stack =>
    match nextEntry stack with
    | none => []
    | some (entry, stack) => entry :: walkFrom fuel stack

/-- All entries of a `WalkDir` of the directory at `path`; there are as many calls as entries. -/
def walk (path : Subpath) (entries : List (FileName × Disk)) : List WalkEntry :=
  walkFrom (pendingEntries [(path, entries)]).length [(path, entries)]

/-- A call yields the first of the entries that are left, and leaves the others. -/
theorem nextEntry_spec (stack : WalkStack) :
    (nextEntry stack = none ∧ pendingEntries stack = []) ∨
      ∃ entry stack', nextEntry stack = some (entry, stack') ∧
        pendingEntries stack = entry :: pendingEntries stack' := by
  induction stack with
  | nil => exact .inl ⟨rfl, rfl⟩
  | cons frame stack ih =>
    obtain ⟨parentPath, readDir⟩ := frame
    cases readDir with
    | nil =>
      have hskip : pendingEntries ((parentPath, []) :: stack) = pendingEntries stack := by
        rw [pendingEntries, flatMap_cons, listing]
        rfl
      rw [nextEntry, hskip]
      exact ih
    | cons e readDir =>
      obtain ⟨name, entry⟩ := e
      refine .inr ?_
      cases entry with
      | leaf m =>
        refine ⟨_, _, rfl, ?_⟩
        rw [pendingEntries, flatMap_cons, listing_cons, entries, listing]
        rfl
      | dir m sub =>
        refine ⟨_, _, rfl, ?_⟩
        rw [pendingEntries, flatMap_cons, listing_cons]
        simp [pendingEntries, entries]

theorem walkFrom_eq {fuel : ℕ} {stack : WalkStack} (h : (pendingEntries stack).length ≤ fuel) :
    walkFrom fuel stack = pendingEntries stack := by
  induction fuel generalizing stack with
  | zero => rw [walkFrom, length_eq_zero_iff.mp (Nat.le_zero.mp h)]
  | succ fuel ih =>
    rw [walkFrom]
    rcases nextEntry_spec stack with ⟨hnone, hleft⟩ | ⟨entry, stack', hsome, hleft⟩
    · rw [hnone, hleft]
    · rw [hleft, length_cons] at h
      rw [hsome, hleft]
      dsimp only
      rw [ih (by omega)]

/-- **A walk yields everything below its directory**, each directory before what is in it. -/
theorem walk_eq_listing (path : Subpath) (entries : List (FileName × Disk)) :
    walk path entries = listing path entries := by
  rw [walk, walkFrom_eq le_rfl, pendingEntries, flatMap_cons, flatMap_nil, append_nil]

end Wings.Filesystem
