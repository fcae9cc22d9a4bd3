import Wings.DeduplicatePaths

/-!
# Wings.Filesystem.Notifier — the modified paths of a server

`InotifyServerNotifier` of `inotify.rs`: the paths that were modified since they were last taken.  Many paths are
merged into the topmost of them, and too many into the server's directory.
-/

namespace Wings.Filesystem

open Lib List

/-- `InotifyServerNotifier`; the flags are those of the disk checker and of the ownership check. -/
structure InotifyServerNotifier where
  path : Path
  modifiedPaths : List Path
  isTrusted : Bool
  dirtyFlags : Bool × Bool
  firewallFiles : Option (List Path)
  firewallChanged : Bool

namespace InotifyServerNotifier

def maxPathsBeforeDedup : ℕ := 512

def new (path : Path) (dirtyFlags : Bool × Bool) : InotifyServerNotifier :=
  ⟨path, [path], true, dirtyFlags, none, false⟩

def hasFirewallFiles (n : InotifyServerNotifier) : Bool := n.firewallFiles.isSome

def setDirty (n : InotifyServerNotifier) : InotifyServerNotifier := { n with dirtyFlags := (true, true) }

def merged (paths : List Path) : List Path :=
  if maxPathsBeforeDedup ≤ paths.length then deduplicatePaths paths else paths

/-- The paths after one more; when there are still too many, only the server's directory is kept. -/
def pushed (n : InotifyServerNotifier) (path : Path) : List Path :=
  if n.modifiedPaths.head? = some n.path then n.modifiedPaths
  else
    let paths := merged (n.modifiedPaths ++ [path])
    if maxPathsBeforeDedup ≤ paths.length then [n.path] else paths

def record (n : InotifyServerNotifier) (path : Path) : InotifyServerNotifier :=
  { n with
    modifiedPaths := n.pushed path
    firewallChanged := n.firewallChanged || (n.firewallFiles.getD []).any (path <+: ·) }

def addPath (n : InotifyServerNotifier) (path : Path) : InotifyServerNotifier := n.setDirty.record path

def takeModifiedPaths (n : InotifyServerNotifier) : List Path × InotifyServerNotifier :=
  (deduplicatePaths n.modifiedPaths, { n with modifiedPaths := [] })

def clearModifiedPaths (n : InotifyServerNotifier) : InotifyServerNotifier := { n with modifiedPaths := [] }

/-! ## What is noticed -/

/-- One of the paths is at or above this one. -/
def Above (paths : List Path) (path : Path) : Prop := ∃ k ∈ paths, k <+: path

/-- A path at or above this one is recorded. -/
def Noticed (n : InotifyServerNotifier) (path : Path) : Prop := Above n.modifiedPaths path

variable {n : InotifyServerNotifier} {path q : Path}

theorem above_deduplicatePaths {paths : List Path} (h : Above paths path) :
    Above (deduplicatePaths paths) path := by
  obtain ⟨k, hk, hpath⟩ := h
  obtain ⟨k', hk', hle⟩ := (deduplicatePaths_spec paths).2.2 k hk
  exact ⟨k', hk', hle.trans hpath⟩

theorem above_merged {paths : List Path} (h : Above paths path) : Above (merged paths) path := by
  unfold merged
  split_ifs
  · exact above_deduplicatePaths h
  · exact h

/-- After one more path everything that was or becomes noticed is: merging paths only moves them up, to the server's
directory at the most. -/
theorem above_pushed (hq : n.path <+: q) (h : Above n.modifiedPaths q ∨ path <+: q) : Above (n.pushed path) q := by
  have hpaths : Above (n.modifiedPaths ++ [path]) q := by
    rcases h with ⟨k, hk, hle⟩ | hle
    · exact ⟨k, mem_append_left _ hk, hle⟩
    · exact ⟨path, mem_append_right _ (mem_singleton.mpr rfl), hle⟩
  simp only [pushed]
  split_ifs with hroot
  · exact ⟨n.path, mem_of_head? hroot, hq⟩
  · exact ⟨n.path, mem_singleton.mpr rfl, hq⟩
  · exact above_merged hpaths

theorem noticed_record (hq : n.path <+: q) (h : path <+: q) : (n.record path).Noticed q :=
  above_pushed hq (.inr h)

theorem Noticed.record (h : n.Noticed q) (hq : n.path <+: q) (path : Path) : (n.record path).Noticed q :=
  above_pushed hq (.inl h)

theorem noticed_taken (h : n.Noticed q) : Above n.takeModifiedPaths.1 q := above_deduplicatePaths h

/-! ## Runs of calls -/

/-- The calls that change the recorded paths. -/
inductive PathsCall where
  | add (path : Path)
  | take

def PathsCall.run (n : InotifyServerNotifier) : PathsCall → InotifyServerNotifier
  | .add path => n.addPath path
  | .take => n.takeModifiedPaths.2

/-- The paths that were added since they were last taken. -/
def addedSince (calls : List PathsCall) : List Path :=
  calls.foldl (fun paths call =>
    match call with
    | .add path => path :: paths
    | .take => []) []

theorem length_pushed_lt (h : n.modifiedPaths.length < 512) : (n.pushed path).length < 512 := by
  simp only [pushed]
  split_ifs with hroot hmany
  · exact h
  · exact (by decide : 1 < 512)
  · exact Nat.lt_of_not_le hmany

theorem noticed_of_calls (root : Path) (dirtyFlags : Bool × Bool) {calls : List PathsCall}
    (hroot : ∀ path, .add path ∈ calls → root <+: path) :
    let n := calls.foldl PathsCall.run (new root dirtyFlags)
    n.path = root ∧ n.modifiedPaths.length < 512 ∧ ∀ path ∈ addedSince calls, root <+: path ∧ n.Noticed path := by
  induction calls using reverseRecOn with
  | nil => exact ⟨rfl, (by decide : 1 < 512), forall_mem_nil _⟩
  | append_singleton calls call ih =>
    obtain ⟨hpath, hlength, hadded⟩ := ih fun path h => hroot path (mem_append_left _ h)
    simp only [addedSince, foldl_append, foldl_cons, foldl_nil]
    generalize calls.foldl PathsCall.run (new root dirtyFlags) = n at hpath hlength hadded
    subst hpath
    cases call with
    | take => exact ⟨rfl, (by decide : 0 < 512), forall_mem_nil _⟩
    | add path =>
      have hbelow : n.path <+: path := hroot path (by simp)
      refine ⟨rfl, length_pushed_lt hlength, forall_mem_cons.mpr ⟨⟨hbelow, ?_⟩, fun q hq => ?_⟩⟩
      · exact noticed_record hbelow prefix_rfl
      · exact ⟨(hadded q hq).1, (hadded q hq).2.record (hadded q hq).1 path⟩

/-- **A minimal cover.**  The paths that are returned were given, none is below another, and each path given is at
or below exactly one of them.  After any calls with paths in the server's directory, all the paths added since the
last `take` are covered by what the next one returns, and few are stored. -/
theorem minimal_cover (root : Path) (dirtyFlags : Bool × Bool) :
    (∀ paths : List Path, (∀ k ∈ deduplicatePaths paths, k ∈ paths) ∧ (deduplicatePaths paths).Pairwise Apart ∧
      ∀ path ∈ paths, ∃! k, k ∈ deduplicatePaths paths ∧ k <+: path) ∧
    ∀ calls : List PathsCall, (∀ path, .add path ∈ calls → root <+: path) →
      let n := calls.foldl PathsCall.run (new root dirtyFlags)
      n.modifiedPaths.length < 512 ∧ ∀ path ∈ addedSince calls, Above n.takeModifiedPaths.1 path := by
  refine ⟨fun paths => ?_, fun calls hroot => ?_⟩
  · obtain ⟨hapart, hgiven, hcovered⟩ := deduplicatePaths_spec paths
    refine ⟨hgiven, hapart, fun path hpath => ?_⟩
    obtain ⟨k, hk, hle⟩ := hcovered path hpath
    refine ⟨k, ⟨hk, hle⟩, fun k' ⟨hk', hle'⟩ => ?_⟩
    rcases prefix_or_prefix_of_prefix hle' hle with h | h
    · exact eq_of_above hapart hk' hk h
    · exact (eq_of_above hapart hk hk' h).symm
  · obtain ⟨_, hlength, hadded⟩ := noticed_of_calls root dirtyFlags hroot
    exact ⟨hlength, fun path hpath => noticed_taken (hadded path hpath).2⟩

end InotifyServerNotifier

end Wings.Filesystem
