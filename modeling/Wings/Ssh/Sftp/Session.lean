import Wings.Filesystem.IgnoreList
import Wings.Filesystem.RenamePath
import Wings.Lib.RealPath

/-!
# Wings.Ssh.Sftp.Session — what an SFTP session works on

`ssh/sftp/mod.rs` and `server/filesystem/cap/mod.rs`: the tree of a server in which a file is an inode, so that it
may have several names and be open under none; what a user may not see; and the paths that a request names.

* `Tree`, `Layout`, `State` — all of a disk but the bytes, and the bytes.
* `Session.isIgnored` — whether a path is hidden from the user.
-/

namespace Wings.Ssh.Sftp

open Lib Filesystem List

/-! ## The tree -/

inductive FileType where
  | file
  | dir
  | symlink
  | unknown
  deriving DecidableEq

inductive Entry where
  | file (ino : ℕ)
  | symlink (target : Name)
  | special
  deriving DecidableEq

def Entry.isLink : Entry → Bool
  | .symlink _ => true
  | _ => false

abbrev Tree := FileTree FileName Entry Unit

def typeOf : Tree → FileType
  | .leaf (.file _) => .file
  | .leaf (.symlink _) => .symlink
  | .leaf .special => .unknown
  | .dir _ _ => .dir

/-! ## Handles -/

structure FileHandle where
  path : Subpath
  ino : ℕ
  readable : Bool
  writable : Bool
  append : Bool
  eofAt : Option ℕ

structure DirHandle where
  path : Subpath
  /-- Where the open directory is now, unless it has been removed. -/
  location : Option Subpath
  pending : Subpath
  consumed : ℕ

inductive ServerHandle where
  | file (handle : FileHandle)
  | dir (handle : DirHandle)

def ServerHandle.path : ServerHandle → Subpath
  | .file handle => handle.path
  | .dir handle => handle.path

/-- All of the disk and the session but the bytes of files. -/
structure Layout where
  tree : Tree
  nextIno : ℕ
  handleId : ℕ
  handles : List (ℕ × ServerHandle)

structure State where
  layout : Layout
  content : ℕ → List UInt8

/-! ## The user -/

inductive IgnoredFiles where
  | unrestricted
  | matcher (list : IgnoreList)
  | unusable

def IgnoredFiles.matchesPath (git : Gitignore) (path : Subpath) (fileType : FileType) : IgnoredFiles → Bool
  | .unrestricted => false
  | .matcher list => list.excluded git path (fileType = .dir)
  | .unusable => true

def IgnoredFiles.isUnrestricted : IgnoredFiles → Bool
  | .unrestricted => true
  | _ => false

inductive FilePermission where
  | fileRead
  | fileReadContent
  | fileCreate
  | fileUpdate
  | fileDelete
  deriving DecidableEq

/-- What does not change during a session: the user, the configuration, and what the tree rests on. -/
structure Session where
  git : Gitignore
  basePath : Path
  realPath : FileTree.RealPath FileName Entry Unit Entry.isLink
  /-- The directory and the name where `O_CREAT` makes a file that does not exist. -/
  createAt : Tree → Subpath → Option (Subpath × FileName)
  isProtected : Tree → Subpath → Bool
  isVirtualWriteTarget : Subpath → FileType → Bool
  /-- Whether there are virtual directories or mounts at all. -/
  mayBeVirtual : Bool
  may_of_virtual : ∀ path fileType, isVirtualWriteTarget path fileType = true → mayBeVirtual = true
  diskIgnored : IgnoreList
  ignoredFiles : IgnoredFiles
  hasPermission : FilePermission → Bool
  readOnly : Bool
  maxHandlesPerChannel : ℕ
  directoryEntryLimit : ℕ
  directoryEntrySendAmount : ℕ
  /-- The hash algorithms of `check-file`. -/
  digest : Name → Option (List UInt8 → List UInt8)

namespace Session

variable (session : Session) (t : Tree)

/-! ## Paths -/

def relativePath (path : Path) : Subpath :=
  resolvePath <|
    if session.basePath <+: path then path.drop session.basePath.length
    else if [.rootDir] <+: path then path.drop 1
    else path

def canonicalize (path : Subpath) : Option Subpath := session.realPath.canon t path

/-- The loop of `try_canonicalize_parent`, from the ancestor with `k` components upwards; `none` is an error. -/
def canonicalizeAncestor (path : Subpath) (k : ℕ) : Option Subpath :=
  match session.canonicalize t (path.take k) with
  | some resolved => some (resolved ++ path.drop k)
  | none =>
    if session.realPath.notFound t (path.take k) then
      match k with
      | 0 => some path
      | k + 1 => canonicalizeAncestor path k
    else none

def tryCanonicalizeParent (path : Subpath) : Option Subpath :=
  match path.length with
  | 0 => some path
  | k + 1 => session.canonicalizeAncestor t path k

def canonicalizeParent (path : Subpath) : Subpath := (session.tryCanonicalizeParent t path).getD path

/-! ## What is hidden -/

/-- `ignore_path`: only a symbolic link is followed. -/
def ignorePath (path : Subpath) (fileType : FileType) : Subpath :=
  if fileType = .symlink then (session.canonicalize t path).getD path else path

/-- `is_ignored_server`, for a path that is not the root. -/
def isIgnoredBelow (path : Subpath) (fileType : FileType) : Bool :=
  (session.isVirtualWriteTarget path fileType ||
    session.diskIgnored.excluded session.git (session.ignorePath t path fileType) (fileType = .dir)) ||
  session.ignoredFiles.matchesPath session.git (session.ignorePath t path fileType) fileType

def isIgnored (path : Subpath) (fileType : FileType) : Bool :=
  path ≠ [] && session.isIgnoredBelow t path fileType

def mayIgnore : Bool :=
  session.mayBeVirtual || !session.diskIgnored.rules.isEmpty || !session.ignoredFiles.isUnrestricted

theorem isIgnored_of_not_mayIgnore (h : session.mayIgnore = false) (path : Subpath) (fileType : FileType) :
    session.isIgnored t path fileType = false := by
  simp only [mayIgnore, Bool.or_eq_false_iff, Bool.not_eq_false'] at h
  have hvirtual : session.isVirtualWriteTarget path fileType = false := by
    by_contra hvirtual
    have hmay := session.may_of_virtual path fileType (Bool.not_eq_false _ ▸ hvirtual)
    rw [h.1.1] at hmay
    cases hmay
  have hdisk : ∀ q isDir, session.diskIgnored.excluded session.git q isDir = false := fun q isDir => by
    rw [IgnoreList.excluded, isEmpty_iff.mp h.1.2]
    split_ifs <;> rfl
  have huser : ∀ q, session.ignoredFiles.matchesPath session.git q fileType = false := fun q => by
    cases hfiles : session.ignoredFiles with
    | unrestricted => rfl
    | matcher list => rw [hfiles] at h; cases h.2
    | unusable => rw [hfiles] at h; cases h.2
  simp [isIgnored, isIgnoredBelow, hvirtual, hdisk, huser]

/-- A regular file is hidden by its own path, whatever the links are. -/
def hides (path : Subpath) : Bool := session.isIgnored (.dir () []) path .file

/-! ## Plain paths -/

variable {session t}

open FileTree.RealPath

theorem plain_below_resolved {path resolved : Subpath} {k : ℕ} (hk : k < path.length)
    (hbelow : k + 1 = path.length ∨
      session.realPath.canon t (path.take (k + 1)) = none ∧ session.realPath.notFound t (path.take (k + 1)) = true)
    (h : session.realPath.canon t (path.take k) = some resolved) :
    Plain session.realPath t (resolved ++ path.drop k).dropLast := by
  have hliteral := session.realPath.canon_literal h
  rw [drop_eq_getElem_cons hk]
  rcases hbelow with hlast | ⟨hnone, hmissing⟩
  · rw [hlast, drop_length, dropLast_concat]
    exact plain_of_literal hliteral
  · rw [← take_concat_get' path k hk] at hnone hmissing
    have hmiss := session.realPath.canon_real h hnone hmissing
    cases hrest : path.drop (k + 1) with
    | nil =>
      rw [dropLast_concat]
      exact plain_of_literal hliteral
    | cons m rest =>
      rw [dropLast_append_of_ne_nil (cons_ne_nil _ _)]
      exact plain_of_missing hliteral hmiss _

theorem canonicalizeAncestor_of_some {path r : Subpath} {k : ℕ} (h : session.canonicalize t (path.take k) = some r) :
    session.canonicalizeAncestor t path k = some (r ++ path.drop k) := by
  cases k <;> rw [canonicalizeAncestor, h]

/-- The loop ends where a beginning of the path exists, or with an error other than that something does not. -/
theorem canonicalizeAncestor_spec (path : Subpath) (k : ℕ) :
    (∃ j ≤ k, ∃ r, session.canonicalize t (path.take j) = some r ∧ (∀ i, j < i → i ≤ k →
        session.canonicalize t (path.take i) = none ∧ session.realPath.notFound t (path.take i) = true) ∧
        session.canonicalizeAncestor t path k = some (r ++ path.drop j)) ∨
      ∃ j ≤ k, session.canonicalize t (path.take j) = none ∧ session.realPath.notFound t (path.take j) = false ∧
        session.canonicalizeAncestor t path k = none := by
  induction k with
  | zero =>
    have hroot : session.canonicalize t (path.take 0) = some [] := session.realPath.canon_nil t
    exact .inl ⟨0, le_rfl, [], hroot, fun i hi hi' => by omega, canonicalizeAncestor_of_some hroot⟩
  | succ k ih =>
    cases hcanon : session.canonicalize t (path.take (k + 1)) with
    | some r => exact .inl ⟨k + 1, le_rfl, r, hcanon, fun i hi hi' => by omega, canonicalizeAncestor_of_some hcanon⟩
    | none =>
      rw [canonicalizeAncestor, hcanon]
      dsimp only
      split_ifs with hmissing
      · rcases ih with ⟨j, hj, r, hr, hbetween, heq⟩ | ⟨j, hj, hblocked⟩
        · refine .inl ⟨j, Nat.le_succ_of_le hj, r, hr, fun i hi hi' => ?_, heq⟩
          rcases Nat.le_succ_iff.mp hi' with hle | rfl
          · exact hbetween i hi hle
          · exact ⟨hcanon, hmissing⟩
        · exact .inr ⟨j, Nat.le_succ_of_le hj, hblocked⟩
      · exact .inr ⟨k + 1, le_rfl, hcanon, by simpa using hmissing, rfl⟩

/-- **The directory of the path that `canonicalize_parent` answers is plain.** -/
theorem canonicalizeParent_plain (path : Subpath) :
    Plain session.realPath t (session.canonicalizeParent t path).dropLast := by
  rw [canonicalizeParent, tryCanonicalizeParent]
  cases hlen : path.length with
  | zero =>
    rw [length_eq_zero_iff.mp hlen]
    exact plain_of_literal trivial
  | succ k =>
    dsimp only
    rcases canonicalizeAncestor_spec path k with ⟨j, hj, r, hr, hbetween, heq⟩ | ⟨j, hj, hnone, hother, heq⟩ <;> rw [heq]
    · refine plain_below_resolved (by omega) ?_ hr
      rcases hj.eq_or_lt with rfl | hlt
      · exact .inl hlen.symm
      · exact .inr (hbetween _ (Nat.lt_succ_self j) hlt)
    · refine plain_of_blocked ?_ hnone hother
      rw [Option.getD_none, dropLast_eq_take]
      exact take_prefix_take_left (by omega)

end Session

end Wings.Ssh.Sftp
