import Wings.Filesystem.Accounts

/-!
# Wings.Filesystem.RenamePath — moving a file or directory within a server

`server/filesystem/mod.rs`, `Filesystem::rename_path`: the parents of the new path may be made, the
old path is moved, and its size is taken from the old parent and charged to the new one.  Forgetting
the upload of the old path is not modelled.

* **`renameExact_iff`**
-/

namespace Wings.Filesystem

open Lib List Option

inductive RenameParents
  | create
  | require
  deriving DecidableEq

/-- How a call fails: `virtual_path_error`, an error of its own, or one of the operating system. -/
inductive FsError
  | virtualPath
  | message (text : String)
  | io
  deriving DecidableEq

/-- A server's tree and the accounts of its disk usage. -/
structure ServerFs where
  fs : Fs
  accounts : Accounts

def parent (path : Subpath) : Option Subpath :=
  if path = [] then none else some path.dropLast

def Accounts.moveFile (a : Accounts) (oldParent newParent : Subpath) (size : ℤ)
    (newSize : Option ℤ) : Accounts :=
  match newSize with
  | some newSize =>
    let sizeDelta := newSize - size
    let a := (a.asyncAllocateInPath oldParent (-size) true).2
    (a.asyncAllocateInPath newParent sizeDelta true).2
  | none =>
    let a := (a.asyncAllocateInPath oldParent (-size) true).2
    (a.asyncAllocateInPath newParent size true).2

section model

variable (h : Host) (f : Faults)

/-- The first step of `rename_path`: the parents of the new path, if the caller wants them made. -/
def makeParents (t : Fs) (new : Subpath) (parents : RenameParents) : Bool × Fs :=
  match parents, parent new with
  | .create, some dir => asyncCreateChownedDirAll h f t dir
  | _, _ => (true, t)

/-- The rest of `rename_path`, once the metadata of the old path are known. -/
def renameFound (t : Fs) (a : Accounts) (old new : Subpath) (oldMetadata : Fs) :
    Except FsError Unit × ServerFs :=
  let newMetadata := if f.statNew then none else h.stat t new
  match parent old, parent new, new.getLast? with
  | none, _, _ => (.error (.message "failed to get old path parent"), ⟨t, a⟩)
  | some _, none, _ => (.error (.message "failed to get new path parent"), ⟨t, a⟩)
  | some _, some _, none => (.error (.message "failed to get new path file name"), ⟨t, a⟩)
  | some oldParent, some newParent, some name =>
    -- a parent that cannot be resolved counts as the root
    let oldParent := (if f.canonOldParent then none else h.canon t oldParent).getD []
    let newParent := (if f.canonNewParent then none else h.canon t newParent).getD []
    match if f.rename then none else rename h t old new with
    | none => (.error .io, ⟨t, a⟩)
    | some t' =>
      if oldMetadata.isDir then
        (.ok (), ⟨t', a.moveDirectory old (newParent ++ [name])⟩)
      else
        (.ok (), ⟨t', a.moveFile oldParent newParent (len oldMetadata).1 (newMetadata.map fun m => ((len m).1 : ℤ))⟩)

/-- `Filesystem::rename_path`, on relative paths.  A failure keeps whatever was done before it. -/
def renameRelative (s : ServerFs) (old new : Subpath) (parents : RenameParents) :
    Except FsError Unit × ServerFs :=
  if h.isProtected s.fs old || h.isProtected s.fs new then (.error .virtualPath, s)
  else
    let (made, t) := makeParents h f s.fs new parents
    if made = false then (.error .io, ⟨t, s.accounts⟩)
    else
      match if f.statOld then none else h.stat t old with
      | none => (.error .io, ⟨t, s.accounts⟩)
      | some oldMetadata => renameFound h f t s.accounts old new oldMetadata

def renamePath (s : ServerFs) (old new : Path) (parents : RenameParents) : Except FsError Unit × ServerFs :=
  renameRelative h f s (h.relativePath old) (h.relativePath new) parents

end model

/-! ## What a rename can do -/

section spec

variable {h : Host} {f : Faults} {t : Fs} {a : Accounts} {s : ServerFs} {old new : Subpath}
  {parents : RenameParents}

/-- Nothing stands in the way of a rename: neither path is protected, the parents are made, and
neither `stat` nor `rename` fails. -/
structure GoesThrough (h : Host) (f : Faults) (t : Fs) (old new : Subpath)
    (parents : RenameParents) : Prop where
  oldFree : h.isProtected t old = false
  newFree : h.isProtected t new = false
  made : (makeParents h f t new parents).1 = true
  statOld : f.statOld = false
  found : (h.stat (makeParents h f t new parents).2 old).isSome = true
  renamed : f.rename = false
  moved : (rename h (makeParents h f t new parents).2 old new).isSome = true

def accountsAfter (h : Host) (f : Faults) (t : Fs) (a : Accounts) (old new : Subpath)
    (oldMetadata : Fs) : Accounts :=
  let oldParent := (if f.canonOldParent then none else h.canon t old.dropLast).getD []
  let newParent := (if f.canonNewParent then none else h.canon t new.dropLast).getD []
  if oldMetadata.isDir then a.moveDirectory old (newParent ++ new.getLast?.toList)
  else a.moveFile oldParent newParent (len oldMetadata).1
    ((if f.statNew then none else h.stat t new).map fun m => ((len m).1 : ℤ))

theorem renameFound_ok {t' m : Fs} (hf : f.rename = false) (hr : rename h t old new = some t') :
    renameFound h f t a old new m = (.ok (), ⟨t', accountsAfter h f t a old new m⟩) := by
  obtain ⟨od, on, nd, nn, u, -, ho, hn, -⟩ := rename_spec hr
  obtain ⟨q, rfl, -⟩ := h.place_eq_some_iff.mp ho
  obtain ⟨q', rfl, -⟩ := h.place_eq_some_iff.mp hn
  have hlast : (q' ++ [nn]).getLast? = some nn := by simp
  simp only [renameFound, parent, append_ne_nil_of_right_ne_nil _ (cons_ne_nil _ _), hlast,
    hf, hr, if_false, Bool.false_eq_true, accountsAfter, toList_some]
  by_cases hm : m.isDir = true
  · rw [if_pos hm, if_pos hm]
  · rw [if_neg hm, if_neg hm]

theorem renameFound_error {m : Fs} (hr : (if f.rename then none else rename h t old new) = none) :
    ∃ err, renameFound h f t a old new m = (.error err, ⟨t, a⟩) := by
  simp only [renameFound, hr]
  cases parent old with
  | none => exact ⟨_, rfl⟩
  | some oldParent =>
    cases parent new with
    | none => exact ⟨_, rfl⟩
    | some newParent => cases new.getLast? <;> exact ⟨_, rfl⟩

/-- **What a rename does when it goes through.** -/
theorem renameRelative_ok (hg : GoesThrough h f s.fs old new parents) :
    ∃ m t', h.stat (makeParents h f s.fs new parents).2 old = some m ∧
      rename h (makeParents h f s.fs new parents).2 old new = some t' ∧
      renameRelative h f s old new parents = (.ok (), ⟨t', accountsAfter h f
        (makeParents h f s.fs new parents).2 s.accounts old new m⟩) := by
  obtain ⟨m, hm⟩ := isSome_iff_exists.mp hg.found
  obtain ⟨t', ht'⟩ := isSome_iff_exists.mp hg.moved
  refine ⟨m, t', hm, ht', ?_⟩
  simp only [renameRelative, hg.oldFree, hg.newFree, hg.made, hg.statOld, hm, Bool.or_self,
    Bool.false_eq_true, if_false, Bool.true_eq_false]
  exact renameFound_ok hg.renamed ht'

/-- **A rename that does not go through** fails, leaves the accounts alone, and has at most made the
parents of the new path. -/
theorem renameRelative_error (hg : ¬ GoesThrough h f s.fs old new parents) :
    ∃ err t, renameRelative h f s old new parents = (.error err, ⟨t, s.accounts⟩) ∧
      (t = s.fs ∨ t = (makeParents h f s.fs new parents).2) := by
  unfold renameRelative
  by_cases hp : (h.isProtected s.fs old || h.isProtected s.fs new) = true
  · rw [if_pos hp]
    exact ⟨_, s.fs, rfl, .inl rfl⟩
  rw [if_neg hp]
  obtain ⟨hold, hnew⟩ := Bool.or_eq_false_iff.mp (Bool.eq_false_of_not_eq_true hp)
  simp only
  by_cases hmade : (makeParents h f s.fs new parents).1 = false
  · rw [if_pos hmade]
    exact ⟨_, _, rfl, .inr rfl⟩
  rw [if_neg hmade]
  cases hstat : (if f.statOld then none else h.stat (makeParents h f s.fs new parents).2 old) with
  | none => exact ⟨_, _, rfl, .inr rfl⟩
  | some m =>
    -- everything before the call of `rename` went well, so that call failed
    have hr : (if f.rename then none else
        rename h (makeParents h f s.fs new parents).2 old new) = none := by
      by_cases hf : f.rename = true
      · rw [if_pos hf]
      · rw [if_neg hf]
        refine eq_none_iff_forall_ne_some.mpr fun t' ht' => hg ?_
        split_ifs at hstat with hs
        exact ⟨hold, hnew, by simpa using hmade, by simpa using hs, by rw [hstat]; rfl,
          by simpa using hf, by rw [ht']; rfl⟩
    obtain ⟨err, herr⟩ := renameFound_error hr
    exact ⟨err, _, herr, .inr rfl⟩

theorem makeParents_made : Made h t (makeParents h f t new parents).2 new.dropLast := by
  unfold makeParents parent
  cases parents with
  | require => exact .refl t _
  | create =>
    by_cases hn : new = []
    · rw [if_pos hn]
      exact .refl t _
    · rw [if_neg hn]
      exact asyncCreateChownedDirAll_spec t _

/-- Making the parents of the new path does not change what is there. -/
theorem makeParents_new (hn : new ≠ []) :
    h.lstat (makeParents h f t new parents).2 new = h.lstat t new ∧
      h.stat (makeParents h f t new parents).2 new = h.stat t new := by
  have hm : Made h t (makeParents h f t new parents).2 new.dropLast := makeParents_made
  have hnew : new.dropLast ++ [new.getLast hn] = new := dropLast_append_getLast hn
  have heq := hm.lstat_concat (new.getLast hn)
  rwa [hnew] at heq

end spec

/-! ## The accounts of a moved file -/

/-- The length of the regular file at a path, nothing else having one. -/
def regularLen : Option Fs → ℕ
  | some (.leaf (.file content)) => content.1.length
  | _ => 0

/-- The accounts come out right when a file of length `s` is moved from one directory to another,
over a file of length `r`: the old directory loses `s` and the new one gains `s - r`, each with every
directory above it, so that the total changes by `-r`. -/
structure RenameExact (before after : Accounts) (oldParent newParent : Subpath) (s r : ℤ) :
    Prop where
  cached : (after.cached.logical : ℤ) = before.cached.logical - r
  nodes : ∀ q, after.sizeAt q = before.sizeAt q +
    (if q <+: directoryKeys oldParent then (-s, -s) else 0) +
    (if q <+: directoryKeys newParent then (s - r, s - r) else 0)

/-- What the node of a directory gets from the two charges of a move. -/
def moveCharges (oldParent newParent : Subpath) (s d : ℤ) (q : List Name) : ℤ × ℤ :=
  (if q <+: directoryKeys oldParent then (-s, -s) else 0) + (if q <+: directoryKeys newParent then (d, d) else 0)

/-- What `rename_path` charges to the new parent. -/
def newParentDelta (size : ℤ) (newSize : Option ℤ) : ℤ :=
  match newSize with
  | some newSize => newSize - size
  | none => size

/-- No counter saturates in the two charges. -/
structure MoveFits (a : Accounts) (oldParent newParent : Subpath) (size : ℤ) (newSize : Option ℤ) : Prop where
  old : a.Fits oldParent (-size)
  new : (a.asyncAllocateInPath oldParent (-size) true).2.Fits newParent (newParentDelta size newSize)

section accounts

variable {a : Accounts} {oldParent newParent oldCharged newCharged : Subpath} {size r : ℤ} {newSize : Option ℤ}

theorem moveFile_eq : a.moveFile oldParent newParent size newSize =
    ((a.asyncAllocateInPath oldParent (-size) true).2.asyncAllocateInPath newParent
      (newParentDelta size newSize) true).2 := by
  cases newSize <;> rfl

/-- The two charges of a move come out right exactly when the second is what it should be, and the directories that
they go to make no difference. -/
theorem renameExact_moveFile_iff (hfit : MoveFits a oldCharged newCharged size newSize) :
    RenameExact a (a.moveFile oldCharged newCharged size newSize) oldParent newParent size r ↔
      newParentDelta size newSize = size - r ∧
        moveCharges oldCharged newCharged size (size - r) = moveCharges oldParent newParent size (size - r) := by
  obtain ⟨hc, hn⟩ := Accounts.asyncAllocateInPath_exact hfit.old
  obtain ⟨hc', hn'⟩ := Accounts.asyncAllocateInPath_exact hfit.new
  rw [moveFile_eq]
  constructor
  · rintro ⟨hcached, hnodes⟩
    have hdelta : newParentDelta size newSize = size - r := by omega
    refine ⟨hdelta, funext fun q => add_left_cancel (a := a.sizeAt q) ?_⟩
    rw [moveCharges, moveCharges, ← add_assoc, ← add_assoc, ← hnodes, hn', hn, hdelta]
  · rintro ⟨hdelta, hcharged⟩
    refine ⟨?_, fun q => ?_⟩
    · omega
    · rw [hn', hn, hdelta, add_assoc, add_assoc]
      exact congrArg (a.sizeAt q + ·) (congrFun hcharged q)

end accounts

section files

variable {h : Host} {f : Faults} {s : ServerFs} {old new : Path} {parents : RenameParents} {content : Content}
  {p : Subpath}

theorem stat_of_regularLen {t : Fs} (hp : p ≠ []) (hs : h.stat t p = none) : regularLen (h.lstat t p) = 0 := by
  cases hl : h.lstat t p with
  | none => rfl
  | some u =>
    cases u with
    | dir size es => rfl
    | leaf l =>
      cases l with
      | symlink target => rfl
      | special => rfl
      | file c =>
        have heq : p.dropLast ++ [p.getLast hp] = p := dropLast_append_getLast hp
        have hfound := h.resolution.stat_of_lstat (u := .leaf (.file c)) (by rw [heq]; exact hl) Bool.false_ne_true
        rw [heq] at hfound
        have hnone : h.resolution.stat t p = none := hs
        rw [hnone] at hfound
        cases hfound

theorem newParentDelta_eq_iff {t : Fs} (hp : p ≠ []) (size : ℕ) :
    newParentDelta size ((if f.statNew then none else h.stat t p).map fun m => ((len m).1)) =
        size - regularLen (h.lstat t p) ↔
      (f.statNew = true → regularLen (h.lstat t p) = 0) ∧ (f.statNew = false →
        ∀ m, h.stat t p = some m → (len m).1 + regularLen (h.lstat t p) = 2 * size) := by
  cases hfault : f.statNew with
  | true =>
    have hiff : (size : ℤ) = size - regularLen (h.lstat t p) ↔ regularLen (h.lstat t p) = 0 := by omega
    simpa [newParentDelta] using hiff
  | false =>
    cases hs : h.stat t p with
    | none =>
      rw [stat_of_regularLen hp hs]
      simp [newParentDelta]
    | some m =>
      simp only [Bool.false_eq_true, if_false, map_some, newParentDelta, some.injEq, forall_eq', IsEmpty.forall_iff,
        true_and, forall_const]
      omega

/-- A regular file is found by every call, before and after the parents of another path are made. -/
theorem file_found {t t' : Fs} (hp : p ≠ []) (hext : FileTree.Extends t t')
    (hl : h.lstat t p = some (.leaf (.file content))) :
    (∃ d, h.canon t p.dropLast = some d ∧ h.canon t' p.dropLast = some d) ∧
      h.stat t' p = some (.leaf (.file content)) := by
  obtain ⟨d, n, hplace, hu⟩ := h.place_of_lstat hp hl
  obtain ⟨q, rfl, hq⟩ := h.place_eq_some_iff.mp hplace
  have hq' : h.resolution.canon t' q = some d := h.resolution.canon_extends hext hq
  refine ⟨⟨d, by rwa [dropLast_concat], by rwa [dropLast_concat]⟩, ?_⟩
  refine h.resolution.stat_of_lstat ?_ (Bool.false_ne_true)
  rw [FileTree.Resolution.lstat_concat, hq']
  exact hext.lookup_leaf hu

theorem accountsAfter_file {t : Fs} {a : Accounts} {p n d d' : Subpath}
    (hp : h.canon t p.dropLast = some d) (hn : h.canon t n.dropLast = some d') :
    accountsAfter h f t a p n (.leaf (.file content)) =
      a.moveFile (if f.canonOldParent then [] else d) (if f.canonNewParent then [] else d') content.1.length
        ((if f.statNew then none else h.stat t n).map fun m => ((len m).1)) := by
  rw [accountsAfter, hp, hn]
  cases f.canonOldParent <;> cases f.canonNewParent <;> rfl

/-- **The accounts of a renamed file.**  A rename of a regular file that succeeds knows both real parents; if no
counter saturates, its accounts come out right exactly when whatever the new path named before, links followed, had
a length that makes up `2 s` with the length `r` of the regular file there.  Where a regular file is replaced, that
is `r = s`.  The failures that the call passes over matter: without `stat` of the new path `r` has to be 0, and a
charge to the root in place of a parent must make no difference. -/
theorem renameExact_iff (hold : h.lstat s.fs (h.relativePath old) = some (.leaf (.file content)))
    (hok : (renamePath h f s old new parents).1 = .ok ()) :
    ∃ oldParent newParent,
      h.canon s.fs (h.relativePath old).dropLast = some oldParent ∧
      h.canon (makeParents h f s.fs (h.relativePath new) parents).2
        (h.relativePath new).dropLast = some newParent ∧
      let r := regularLen (h.lstat s.fs (h.relativePath new))
      let oldCharged := if f.canonOldParent then [] else oldParent
      let newCharged := if f.canonNewParent then [] else newParent
      (MoveFits s.accounts oldCharged newCharged content.1.length
          ((if f.statNew then none else h.stat s.fs (h.relativePath new)).map fun m => ((len m).1)) →
        (RenameExact s.accounts (renamePath h f s old new parents).2.accounts oldParent newParent content.1.length r ↔
          ((f.statNew = true → r = 0) ∧ (f.statNew = false → ∀ m, h.stat s.fs (h.relativePath new) = some m →
            (len m).1 + r = 2 * content.1.length)) ∧
          moveCharges oldCharged newCharged content.1.length (content.1.length - r) =
            moveCharges oldParent newParent content.1.length (content.1.length - r))) := by
  unfold renamePath at hok ⊢
  generalize h.relativePath old = o at *
  generalize h.relativePath new = n at *
  by_cases hg : GoesThrough h f s.fs o n parents
  · obtain ⟨m, t', hm, ht', heq⟩ := renameRelative_ok hg
    obtain ⟨od, on, nd, nn, u, -, ho, hn, -⟩ := rename_spec ht'
    obtain ⟨q, rfl, -⟩ := h.place_eq_some_iff.mp ho
    obtain ⟨q', rfl, hnd⟩ := h.place_eq_some_iff.mp hn
    have hne : q' ++ [nn] ≠ [] := by simp
    have hmade := @makeParents_made h f s.fs (q' ++ [nn]) parents
    obtain ⟨⟨d, hd, hd'⟩, hstat⟩ := file_found (by simp) hmade.extends_ hold
    obtain rfl : m = .leaf (.file content) := some.inj (hm.symm.trans hstat)
    have hnd' : h.canon (makeParents h f s.fs (q' ++ [nn]) parents).2
        (q' ++ [nn]).dropLast = some nd := by rwa [dropLast_concat]
    refine ⟨d, nd, hd, hnd', fun hfit => ?_⟩
    rw [heq, accountsAfter_file hd' hnd', (makeParents_new hne).2, renameExact_moveFile_iff hfit,
      newParentDelta_eq_iff hne]
  · obtain ⟨err, t, herr, -⟩ := renameRelative_error hg
    rw [herr] at hok
    cases hok

/-- A server that accounts for `total` bytes, all in its root. -/
def serverOf (entries : List (FileName × Fs)) (total : ℕ) : ServerFs where
  fs := .dir ⟨0, Nat.zero_le _⟩ entries
  accounts :=
    { cached := ⟨0, total, total, 0⟩
      usage := ⟨⟨total, total⟩, []⟩
      sorted := DiskUsage.sortedAll_iff.mpr ⟨List.Pairwise.nil, fun _ _ h => nomatch h⟩ }

theorem fits_root {a : Accounts} {delta : ℤ} (hl : 0 ≤ a.cached.logical + delta ∧ a.cached.logical + delta < 2 ^ 64)
    (hp : 0 ≤ a.cached.physical + delta ∧ a.cached.physical + delta < 2 ^ 64)
    (hr : 0 ≤ a.sizeAt [] + (delta, delta) ∧ a.sizeAt [] + (delta, delta) ≤ maxAmount) : a.Fits [] delta := by
  refine ⟨hl, hp, fun q hq => ?_⟩
  obtain rfl : q = [] := prefix_nil.mp hq
  exact hr

/-- To a free name, in the root; that a parent is not resolved makes no difference there. -/
theorem renameExact_iff_free :
    RenameExact (serverOf [(nameA, fileOf 3 (by decide))] 3).accounts
      (renamePath plainHost { Faults.none with canonOldParent := true } (serverOf [(nameA, fileOf 3 (by decide))] 3)
        [.normal nameA] [.normal nameB] .create).2.accounts [] [] 3 0 := by
  obtain ⟨d, d', hd, hd', hiff⟩ := @renameExact_iff plainHost { Faults.none with canonOldParent := true }
    (serverOf [(nameA, fileOf 3 (by decide))] 3) [.normal nameA] [.normal nameB] .create
    ⟨[0, 0, 0], by decide⟩ rfl rfl
  obtain rfl : [] = d := some.inj hd
  obtain rfl : [] = d' := some.inj hd'
  refine (hiff ⟨?_, ?_⟩).mpr ⟨⟨nofun, fun _ m hm => nomatch hm⟩, rfl⟩
  · exact fits_root (by decide) (by decide) (by decide)
  · exact fits_root (by decide) (by decide) (by decide)

/-- Three bytes are moved over one: the accounts lose five bytes where one was lost. -/
theorem overwrite_charged_backwards :
    let s := serverOf [(nameA, fileOf 3 (by decide)), (nameB, fileOf 1 (by decide))] 100
    let r := renamePath plainHost .none s [.normal nameA] [.normal nameB] .create
    r.1 = .ok () ∧ MoveFits s.accounts [] [] 3 (some 1) ∧
      regularLen (plainHost.lstat s.fs [nameB]) = 1 ∧ r.2.accounts.cached.logical = 95 ∧
      r.2.accounts.usage.space = ⟨95, 95⟩ ∧
      ¬ RenameExact s.accounts r.2.accounts [] [] 3 1 := by
  refine ⟨rfl, ⟨?_, ?_⟩, rfl, rfl, rfl, fun hexact => ?_⟩
  · exact fits_root (by decide) (by decide) (by decide)
  · exact fits_root (by decide) (by decide) (by decide)
  · exact absurd hexact.cached (by decide)

end files

end Wings.Filesystem
