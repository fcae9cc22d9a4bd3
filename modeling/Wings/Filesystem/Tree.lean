import Wings.Lib.FileTree
import Wings.Lib.OpenFile
import Wings.Path

/-!
# Wings.Filesystem.Tree — a server's directory tree and the calls that change it

`server/filesystem/cap/mod.rs` on top of the operating system: paths are made relative to the
server's base directory and then given to `mkdir`, `rename`, `unlink` and so on.  How symbolic links
are followed is a parameter (`Resolution`); a call may also fail for a reason of its own, which is
an input (`Faults`).

* `relativePath` — `CapFilesystem::relative_path`.
-/

namespace Wings.Filesystem

open Lib List FileTree

/-! ## The tree -/

/-- A size as `stat(2)` reports it, an `off_t`. -/
abbrev Size := { n : ℕ // n ≤ maxOffset }

/-- What is not a directory; the target of a symbolic link is as long as `lstat(2)` says. -/
inductive Leaf
  | file (content : Content)
  | symlink (target : { target : Name // target.length ≤ maxOffset })
  | special

def Leaf.isLink : Leaf → Bool
  | .symlink _ => true
  | _ => false

/-- The tree of a server; a directory carries the size `stat(2)` reports for it. -/
abbrev Fs := FileTree FileName Leaf Size

def len : Fs → Size
  | .leaf (.file content) => ⟨content.1.length, content.length_le⟩
  | .leaf (.symlink target) => ⟨target.1.length, target.2⟩
  | .leaf .special => ⟨0, Nat.zero_le _⟩
  | .dir size _ => size

/-- What a server's filesystem rests on: the absolute path of the directory it lives in, the
resolution of paths, the size of a new directory, and the paths that are protected (mounts and
virtual directories). -/
structure Host where
  basePath : Path
  absolute : [.rootDir] <+: basePath
  resolution : FileTree.Resolution FileName Leaf Size Leaf.isLink
  newDirLen : Size
  isProtected : Fs → Subpath → Bool

/-- `CapFilesystem::resolve_path`, on a path without a root. -/
def resolvePath (path : Path) : Subpath :=
  path.foldl (fun result component =>
    match component with
    | .parentDir => result.dropLast
    | .curDir => result
    | .normal name => result ++ [name]
    | .rootDir => []) []

namespace Host

variable (h : Host)

def relativePath (path : Path) : Subpath :=
  resolvePath <|
    if h.basePath <+: path then path.drop h.basePath.length
    else if [.rootDir] <+: path then path.drop 1
    else path

theorem resolvePath_normal (p : Subpath) : resolvePath (p.map .normal) = p := by
  have hfold : ∀ acc : Subpath, (p.map Component.normal).foldl (fun result component =>
      match component with
      | .parentDir => result.dropLast
      | .curDir => result
      | .normal name => result ++ [name]
      | .rootDir => []) acc = acc ++ p := by
    induction p with
    | nil => simp
    | cons n p ih =>
      intro acc
      rw [map_cons, foldl_cons, ih]
      simp
  exact hfold []

theorem relativePath_normal (p : Subpath) : h.relativePath (p.map .normal) = p := by
  have hroot : ¬ [.rootDir] <+: p.map Component.normal := by
    cases p with
    | nil => simp
    | cons n p => simp
  rw [relativePath, if_neg fun hpre => hroot (h.absolute.trans hpre), if_neg hroot, resolvePath_normal]

def canon (t : Fs) (p : Subpath) : Option Subpath := h.resolution.canon t p

def lstat (t : Fs) (p : Subpath) : Option Fs := h.resolution.lstat t p

def stat (t : Fs) (p : Subpath) : Option Fs := h.resolution.stat t p

/-- The directory a call works in and the name it works on; the root has none. -/
def place (t : Fs) (p : Subpath) : Option (Subpath × FileName) :=
  match p.getLast? with
  | none => none
  | some n => (h.canon t p.dropLast).map fun d => (d, n)

theorem place_eq_some_iff {t : Fs} {p d : Subpath} {n : FileName} :
    h.place t p = some (d, n) ↔ ∃ q, p = q ++ [n] ∧ h.canon t q = some d := by
  induction p using reverseRecOn with
  | nil => simp [place]
  | append_singleton q m _ =>
    simp only [place, getLast?_append, getLast?_singleton, Option.some_or,
      dropLast_concat, Option.map_eq_some_iff, Prod.mk.injEq]
    constructor
    · rintro ⟨d', hd, rfl, rfl⟩
      exact ⟨q, rfl, hd⟩
    · rintro ⟨q', hq, hd⟩
      obtain ⟨rfl, hm⟩ := append_inj' hq rfl
      exact ⟨d, hd, rfl, by simpa using hm⟩

theorem place_of_lstat {t u : Fs} {p : Subpath} (hne : p ≠ []) (hp : h.lstat t p = some u) :
    ∃ d n, h.place t p = some (d, n) ∧ t.lookup (d ++ [n]) = some u := by
  induction p using reverseRecOn with
  | nil => exact absurd rfl hne
  | append_singleton q m _ =>
    rw [lstat, Resolution.lstat_concat, Option.bind_eq_some_iff] at hp
    obtain ⟨d, hd, hu⟩ := hp
    exact ⟨d, m, h.place_eq_some_iff.mpr ⟨q, rfl, hd⟩, hu⟩

end Host

/-! ## Failures -/

inductive MkdirError
  | alreadyExists
  | notFound
  | other
  deriving DecidableEq

/-- Failures that do not come from the tree: of each `mkdir` and `chown` of a call that makes
directories, and of the calls `rename_path` makes. -/
structure Faults where
  mkdir : ℕ → Option MkdirError
  chown : ℕ → Bool
  statOld : Bool
  statNew : Bool
  canonOldParent : Bool
  canonNewParent : Bool
  rename : Bool

def Faults.none : Faults := ⟨fun _ => .none, fun _ => false, false, false, false, false, false⟩

/-! ## Making directories -/

section mkdir

variable (h : Host) (f : Faults)

def createDir (fault : Option MkdirError) (t : Fs) (p : Subpath) : Except MkdirError Fs :=
  match fault with
  | some err => .error err
  | none =>
    match h.place t p with
    | none => .error .notFound
    | some (d, n) =>
      match t.lookup d with
      | none => .error .notFound
      | some parent =>
        if parent.isDir = false then .error .other
        else
          match t.lookup (d ++ [n]) with
          | some _ => .error .alreadyExists
          | none => .ok (t.insertAt d n (.dir h.newDirLen []))

/-- The loop over the components; `i` counts the calls. -/
def createDirs : ℕ → Fs → Subpath → Subpath → Bool × Fs
  | _, t, _, [] => (true, t)
  | i, t, done, n :: rest =>
    match createDir h (f.mkdir i) t (done ++ [n]) with
    | .ok t' => if f.chown i then (false, t') else createDirs (i + 1) t' (done ++ [n]) rest
    | .error .alreadyExists => createDirs (i + 1) t (done ++ [n]) rest
    | .error _ => (false, t)

/-- `Filesystem::async_create_chowned_dir_all`: whether it succeeds, and the tree it leaves. -/
def asyncCreateChownedDirAll (t : Fs) (p : Subpath) : Bool × Fs :=
  if p = [] then (true, t)
  else
    match createDir h (f.mkdir 0) t p with
    | .ok t' => (!f.chown 0, t')
    | .error .alreadyExists => (true, t)
    | .error .other => (false, t)
    | .error .notFound => createDirs h f 1 t [] p

/-- What making directories up to `p` does to a tree: nothing that was there changes, and what was
made ends in an empty directory. -/
structure Made (t t' : Fs) (p : Subpath) : Prop where
  extends_ : FileTree.Extends t t'
  fresh : t' = t ∨ ∃ q d, q <+: p ∧ h.canon t' q = some d ∧ t'.lookup d = some (.dir h.newDirLen [])

variable {h f} {p : Subpath} {fault : Option MkdirError} {t' t : Fs} {q : Subpath}

theorem Made.refl (t : Fs) (p : Subpath) : Made h t t p := ⟨.refl t, .inl rfl⟩

theorem createDir_spec (hc : createDir h fault t p = .ok t') :
    ∃ d n parent, h.place t p = some (d, n) ∧ t.lookup d = some parent ∧ parent.isDir = true ∧
      t.lookup (d ++ [n]) = none ∧ t' = t.insertAt d n (.dir h.newDirLen []) := by
  unfold createDir at hc
  cases fault with
  | some err => cases hc
  | none =>
    cases hp : h.place t p with
    | none => rw [hp] at hc; cases hc
    | some place =>
      obtain ⟨d, n⟩ := place
      simp only [hp] at hc
      cases hd : t.lookup d with
      | none => rw [hd] at hc; cases hc
      | some parent =>
        simp only [hd] at hc
        split_ifs at hc with hdir
        cases hn : t.lookup (d ++ [n]) with
        | some u => rw [hn] at hc; cases hc
        | none =>
          rw [hn] at hc
          cases hc
          exact ⟨d, n, parent, rfl, hd, by simpa using hdir, hn, rfl⟩

theorem createDir_made (hc : createDir h fault t p = .ok t') :
    Extends t t' ∧ ∃ d, h.canon t' p = some d ∧ t'.lookup d = some (.dir h.newDirLen []) := by
  obtain ⟨d, n, parent, hp, hd, hdir, hn, rfl⟩ := createDir_spec hc
  have hext := extends_insertAt (.dir h.newDirLen []) hd hdir hn
  have hnew : (t.insertAt d n (.dir h.newDirLen [])).lookup (d ++ [n]) =
      some (.dir h.newDirLen []) := by
    rw [lookup_insertAt hd hdir]
    simp
  obtain ⟨q, rfl, hq⟩ := h.place_eq_some_iff.mp hp
  exact ⟨hext, d ++ [n], h.resolution.canon_concat (h.resolution.canon_extends hext hq) hnew id, hnew⟩

theorem Made.createDir {t'' : Fs} (hm : Made h t t' p) (hq : q <+: p) (hc : createDir h fault t' q = .ok t'') :
    Made h t t'' p := by
  obtain ⟨hext, d, hd, hnew⟩ := createDir_made hc
  exact ⟨hm.extends_.trans hext, .inr ⟨q, d, hq, hd, hnew⟩⟩

section induction

variable {P : Fs → Prop} (hstep : ∀ {t t' fault q}, P t → q <+: p → createDir h fault t q = .ok t' → P t')
include hstep

theorem createDirs_induction {done rest : Subpath} (i : ℕ) (hp : done ++ rest = p) (ht : P t) :
    P (createDirs h f i t done rest).2 := by
  induction rest generalizing i t done with
  | nil => exact ht
  | cons n rest ih =>
    have hall : done ++ [n] ++ rest = p := by simpa using hp
    rw [createDirs]
    cases hc : createDir h (f.mkdir i) t (done ++ [n]) with
    | ok t' =>
      have ht' := hstep ht ⟨rest, hall⟩ hc
      split_ifs
      · exact ht'
      · exact ih (i + 1) hall ht'
    | error err =>
      cases err with
      | alreadyExists => exact ih (i + 1) hall ht
      | notFound => exact ht
      | other => exact ht

/-- What a directory that is made keeps is kept when all of them are made. -/
theorem asyncCreateChownedDirAll_induction (ht : P t) : P (asyncCreateChownedDirAll h f t p).2 := by
  unfold asyncCreateChownedDirAll
  split_ifs
  · exact ht
  · cases hc : createDir h (f.mkdir 0) t p with
    | ok t' => exact hstep ht prefix_rfl hc
    | error err =>
      cases err with
      | alreadyExists => exact ht
      | other => exact ht
      | notFound => exact createDirs_induction hstep 1 rfl ht

end induction

/-- **Making directories**, whether it succeeds or not and whatever fails on the way, changes
nothing that was there; and if anything was made, it ends in an empty directory on the way to `p`. -/
theorem asyncCreateChownedDirAll_spec (t : Fs) (p : Subpath) :
    Made h t (asyncCreateChownedDirAll h f t p).2 p :=
  asyncCreateChownedDirAll_induction (P := (Made h t · p)) Made.createDir (.refl t p)

theorem Made.lstat_concat (hm : Made h t t' p) (n : FileName) :
    h.lstat t' (p ++ [n]) = h.lstat t (p ++ [n]) ∧ h.stat t' (p ++ [n]) = h.stat t (p ++ [n]) := by
  rcases hm.fresh with rfl | ⟨q, d, ⟨s, rfl⟩, hd, hnew⟩
  · exact ⟨rfl, rfl⟩
  · -- the path goes on below an empty directory, so it names nothing, now or before
    obtain ⟨m, rest, hrest⟩ : ∃ m rest, s ++ [n] = m :: rest := by
      cases s with
      | nil => exact ⟨n, [], rfl⟩
      | cons m s => exact ⟨m, s ++ [n], rfl⟩
    have hmiss : t'.lookup (d ++ [m]) = none := by
      rw [lookup_concat, hnew]
      rfl
    have hpre : q ++ [m] <+: q ++ s ++ [n] := ⟨rest, by simp [hrest]⟩
    obtain ⟨hl, hs⟩ := h.resolution.lstat_none_of_prefix hd hmiss hpre
    have hl' : h.lstat t' (q ++ s ++ [n]) = none := hl
    have hs' : h.stat t' (q ++ s ++ [n]) = none := hs
    rw [hl', hs']
    constructor
    · cases hb : h.lstat t (q ++ s ++ [n]) with
      | none => rfl
      | some u =>
        obtain ⟨u', hu', -⟩ := h.resolution.lstat_of_extends hm.extends_ hb
        rw [hl] at hu'
        cases hu'
    · cases hb : h.stat t (q ++ s ++ [n]) with
      | none => rfl
      | some u =>
        obtain ⟨u', hu', -⟩ := h.resolution.stat_of_extends hm.extends_ hb
        rw [hs] at hu'
        cases hu'

/-- What making directories up to `p` does where no link is on the way: nothing off the way
changes. -/
structure MadeAlong (t t' : Fs) (p : Subpath) : Prop where
  noLink : FileTree.Resolution.NoLink Leaf.isLink t' p
  elsewhere : ∀ q, ¬ q <+: p → t'.lookup q = t.lookup q

theorem MadeAlong.createDir {t'' : Fs} (hm : MadeAlong t t' p) (hq : q <+: p) (hc : createDir h fault t' q = .ok t'') :
    MadeAlong t t'' p := by
  obtain ⟨d, n, parent, hp, hd, hdir, hn, rfl⟩ := createDir_spec hc
  obtain ⟨q', rfl, hq'⟩ := h.place_eq_some_iff.mp hp
  have hpre : q' <+: p := (prefix_append q' [n]).trans hq
  obtain ⟨rfl, -⟩ := (h.resolution.canon_eq_some_iff (hm.noLink.of_prefix hpre)).mp hq'
  refine ⟨hm.noLink.insertAt _ hd hdir hn, fun r hr => ?_⟩
  rw [lookup_insertAt_elsewhere _ hd hdir hn hq hr, hm.elsewhere r hr]

end mkdir

/-! ## Writing -/

/-- `write` of a whole file, which follows a link and replaces what the file held. -/
def writeFile (h : Host) (t : Fs) (p : Subpath) (content : Content) : Option Fs :=
  match h.canon t p with
  | some q =>
    match t.lookup q with
    | some (.leaf (.file _)) => some (t.modifyAt (fun _ => .leaf (.file content)) q)
    | _ => none
  | none =>
    match h.place t p with
    | none => none
    | some (d, n) =>
      match t.lookup d, t.lookup (d ++ [n]) with
      | some parent, none =>
        if parent.isDir then some (t.insertAt d n (.leaf (.file content))) else none
      | _, _ => none

/-! ## Renaming -/

/-- Whether `rename(2)` lets the first replace the second. -/
def replaces (u v : Fs) : Bool :=
  if v.isDir then u.isDir && v.entries.isEmpty else !u.isDir

/-- `rename(2)`; two names of one file are two files here. -/
def rename (h : Host) (t : Fs) (old new : Subpath) : Option Fs :=
  match h.place t old, h.place t new with
  | some (od, on), some (nd, nn) =>
    match t.lookup (od ++ [on]), t.lookup nd with
    | some u, some parent =>
      if parent.isDir = false then none
      else if od ++ [on] = nd ++ [nn] then some t
      -- a directory cannot go below itself
      else if od ++ [on] <+: nd ++ [nn] then none
      else if ((t.lookup (nd ++ [nn])).all (replaces u)) then
        some ((t.eraseAt od on).insertAt nd nn u)
      else none
    | _, _ => none
  | _, _ => none

theorem rename_spec {h : Host} {t t' : Fs} {old new : Subpath} (hr : rename h t old new = some t') :
    ∃ od on nd nn u parent, h.place t old = some (od, on) ∧ h.place t new = some (nd, nn) ∧
      t.lookup (od ++ [on]) = some u ∧ t.lookup nd = some parent ∧ parent.isDir = true ∧
      (od ++ [on] = nd ++ [nn] ∧ t' = t ∨
        ¬ od ++ [on] <+: nd ++ [nn] ∧ (t.lookup (nd ++ [nn])).all (replaces u) = true ∧
          t' = (t.eraseAt od on).insertAt nd nn u) := by
  unfold rename at hr
  cases ho : h.place t old with
  | none => rw [ho] at hr; cases hr
  | some o =>
    cases hn : h.place t new with
    | none => rw [ho, hn] at hr; cases hr
    | some n =>
      obtain ⟨od, on⟩ := o
      obtain ⟨nd, nn⟩ := n
      simp only [ho, hn] at hr
      cases hu : t.lookup (od ++ [on]) with
      | none => rw [hu] at hr; cases hr
      | some u =>
        cases hp : t.lookup nd with
        | none => rw [hu, hp] at hr; cases hr
        | some parent =>
          simp only [hu, hp] at hr
          split_ifs at hr with hdir hsame hsub hrep
          · cases hr
            exact ⟨od, on, nd, nn, u, parent, rfl, rfl, hu, hp, by simpa using hdir, .inl ⟨hsame, rfl⟩⟩
          · cases hr
            exact ⟨od, on, nd, nn, u, parent, rfl, rfl, hu, hp, by simpa using hdir, .inr ⟨hsub, hrep, rfl⟩⟩

/-! ## A small server -/

/-- A server whose tree has no links and whose files may all be touched. -/
def plainHost : Host where
  basePath := [.rootDir]
  absolute := List.prefix_rfl
  resolution := .literal FileName Leaf Size Leaf.isLink
  newDirLen := ⟨0, Nat.zero_le _⟩
  isProtected _ _ := false

def fileOf (n : ℕ) (hn : n ≤ maxOffset) : Fs :=
  .leaf (.file ⟨List.replicate n 0, by rw [List.length_replicate]; exact hn⟩)

theorem two_le_maxOffset : 2 ≤ maxOffset := by decide

def nameA : FileName := ⟨[0x61], isFileName_a⟩

def nameB : FileName := ⟨[0x62], by decide⟩

end Wings.Filesystem
