import Wings.Filesystem.RenamePath

/-!
# Wings.Filesystem.Trash — restoring a trashed file

`server/filesystem/trash.rs`: a trashed file or directory lies in `.trash/<uuid>/<name>`, next to its
metadata, and an index in memory lists it.  Here are the index, `truncate_path` and `restore`; the
diff storage, the lock of the entry and the times of the restored file are not modelled.

* **`restore_atomic_iff`**
-/

namespace Wings.Filesystem

open Lib

/-! ## The trash -/

inductive TrashSource
  | api
  | schedule
  deriving DecidableEq

/-- `TrashMeta`, without the log of partial restorations. -/
structure TrashMeta where
  path : Name
  name : Name
  directory : Bool
  size : ℕ
  deleted : ℤ
  source : TrashSource
  deriving DecidableEq

structure TrashEntry (U : Type) where
  uuid : U
  name : Name
  path : Name
  directory : Bool
  file : Bool
  size : ℕ
  deleted : ℤ

/-- How a `Uuid` is written and read: any of its spellings is read, its own in particular. -/
structure UuidNames (U : Type) where
  toName : U → FileName
  parse : Name → Option U
  parse_toName : ∀ uuid, parse (toName uuid).1 = some uuid
  utf8 : ∀ uuid, validUtf8 (toName uuid).1 = true

def trashDirectory : FileName := ⟨[0x2E, 0x74, 0x72, 0x61, 0x73, 0x68], by decide⟩

def pathToStringLossy (path : Subpath) : Name :=
  toStringLossy (List.intercalate [slash] (path.map (·.1)))

section layout

variable {U : Type} (names : UuidNames U)

def entryDirectory (uuid : U) : Subpath := [trashDirectory, names.toName uuid]

def payloadPath (uuid : U) (name : Name) : Path :=
  Path.join ((entryDirectory names uuid).map .normal) (Path.components name)

def TrashMeta.entry (m : TrashMeta) (uuid : U) (usage : DiskUsage Name) : TrashEntry U where
  uuid := uuid
  name := m.name
  path := m.path
  directory := m.directory
  file := !m.directory
  size :=
    if m.directory then
      ((usage.getSize (payloadPath names uuid m.name)).map UsedSpace.logical).getD m.size
    else m.size
  deleted := m.deleted

end layout

/-- The index and the server it belongs to. -/
structure Trash (U : Type) where
  entries : U → Option TrashMeta
  server : ServerFs

/-! ## Removing -/

/-- A removal of a directory that failed on the way: some of it may be left, and nothing else. -/
structure Removal where
  rest : Fs → Option Fs
  pruned : ∀ u v, rest u = some v → FileTree.Extends v u

/-- The failures of `truncate_path` that do not come from the tree. -/
structure TruncateFaults where
  lstat : Bool
  remove : Option Removal

def TruncateFaults.none : TruncateFaults := ⟨false, .none⟩

section truncate

variable (h : Host)

/-- The tree without what is at a path; the root only loses its entries. -/
def takeAway (t : Fs) (p : Subpath) : Fs :=
  match h.place t p with
  | some (d, n) => t.eraseAt d n
  | none =>
    match p, t with
    | [], .dir size _ => .dir size []
    | _, t => t

/-- The tree with something else, or nothing, at a path. -/
def leaveAt (t : Fs) (p : Subpath) (rest : Option Fs) : Fs :=
  match rest, h.place t p with
  | some v, some (d, n) => t.modifyAt (fun _ => v) (d ++ [n])
  | some v, none => if p = [] then v else t
  | none, _ => takeAway h t p

/-- `Filesystem::truncate_path`, on a relative path. -/
def truncateRelative (f : TruncateFaults) (s : ServerFs) (p : Subpath) : Except FsError Unit × ServerFs :=
  if h.isProtected s.fs p then (.error .virtualPath, s)
  else
    match if f.lstat then none else h.lstat s.fs p with
    | none => (.error .io, s)
    | some u =>
      if u.isDir then
        match f.remove with
        | some removal => (.error .io, ⟨leaveAt h s.fs p (removal.rest u), s.accounts⟩)
        | none => (.ok (), ⟨takeAway h s.fs p, s.accounts.forget p⟩)
      else
        match f.remove, parent p with
        -- a single file is removed or it is not
        | some _, _ => (.error .io, s)
        | none, some dir =>
          (.ok (), ⟨takeAway h s.fs p, (s.accounts.asyncAllocateInPath dir (-(len u).1) false).2⟩)
        | none, none => (.ok (), ⟨takeAway h s.fs p, s.accounts⟩)

variable {h} {p : Subpath}

open FileTree

/-- In a smaller tree, a path that still names something names it at the same place. -/
theorem lookup_of_smaller {t t' w : Fs} {d : Subpath} {n : FileName}
    (hext : Extends t' t) (hp : h.place t p = some (d, n)) (hw : h.lstat t' p = some w) :
    t'.lookup (d ++ [n]) = some w := by
  obtain ⟨q, rfl, hq⟩ := h.place_eq_some_iff.mp hp
  obtain ⟨d', n', hp', hw'⟩ := h.place_of_lstat (by simp) hw
  obtain ⟨q', hqq, hq'⟩ := h.place_eq_some_iff.mp hp'
  obtain ⟨rfl, rfl⟩ := List.append_singleton_inj.mp hqq
  have hd : h.canon t q = some d' := h.resolution.canon_extends hext hq'
  rw [hq] at hd
  obtain rfl : d = d' := Option.some.inj hd
  exact hw'

theorem lstat_takeAway {t : Fs} {d : Subpath} {n : FileName}
    (hp : h.place t p = some (d, n)) : h.lstat (takeAway h t p) p = none := by
  have htree : takeAway h t p = t.eraseAt d n := by simp only [takeAway, hp]
  rw [htree]
  cases hw : h.lstat (t.eraseAt d n) p with
  | none => rfl
  | some w =>
    have hlook := lookup_of_smaller (extends_eraseAt t d n) hp hw
    cases hd : t.lookup d with
    | none =>
      obtain ⟨u', hu', -⟩ := extends_eraseAt t d n _ _ hlook
      rw [lookup_concat, hd] at hu'
      cases hu'
    | some parent =>
      rw [lookup_eraseAt hd, if_pos List.prefix_rfl] at hlook
      cases hlook

theorem lstat_leaveAt {t u w : Fs} {rest : Option Fs} (hne : p ≠ []) (hu : h.lstat t p = some u)
    (hrest : ∀ v, rest = some v → Extends v u) (hw : h.lstat (leaveAt h t p rest) p = some w) : rest = some w := by
  obtain ⟨d, n, hp, hlook⟩ := h.place_of_lstat hne hu
  cases rest with
  | none =>
    rw [leaveAt, lstat_takeAway hp] at hw
    cases hw
  | some v =>
    simp only [leaveAt, hp] at hw
    have hext : Extends (t.modifyAt (fun _ => v) (d ++ [n])) t := by
      refine extends_of_modifyAt fun u' hu' => ?_
      obtain rfl : u = u' := Option.some.inj (hlook.symm.trans hu')
      exact hrest v rfl
    have hsame := lookup_of_smaller hext hp hw
    rw [lookup_modifyAt, hlook] at hsame
    simpa using hsame

theorem leaveAt_self {t u : Fs} (hne : p ≠ []) (hu : h.lstat t p = some u) : leaveAt h t p (some u) = t := by
  obtain ⟨d, n, hp, hlook⟩ := h.place_of_lstat hne hu
  simp only [leaveAt, hp]
  exact modifyAt_self hlook rfl

/-- **What removing something does**: it is refused and changes nothing, it fails and may have
removed a part of a directory, or it is done. -/
theorem truncateRelative_cases {f : TruncateFaults} {s : ServerFs} {u : Fs} (hu : h.lstat s.fs p = some u) :
    ((h.isProtected s.fs p = true ∨ f.lstat = true) ∧ ∃ err, truncateRelative h f s p = (.error err, s)) ∨
      (h.isProtected s.fs p = false ∧ f.lstat = false ∧ ∃ removal, f.remove = some removal ∧
        truncateRelative h f s p = (.error .io,
          ⟨if u.isDir then leaveAt h s.fs p (removal.rest u) else s.fs, s.accounts⟩)) ∨
      (h.isProtected s.fs p = false ∧ f.lstat = false ∧ f.remove = none ∧
        ∃ a, truncateRelative h f s p = (.ok (), ⟨takeAway h s.fs p, a⟩)) := by
  unfold truncateRelative
  cases hp : h.isProtected s.fs p with
  | true => exact .inl ⟨.inl rfl, _, rfl⟩
  | false =>
    rw [if_neg Bool.false_ne_true]
    cases hl : f.lstat with
    | true => exact .inl ⟨.inr rfl, _, rfl⟩
    | false =>
      rw [if_neg Bool.false_ne_true, hu]
      dsimp only
      cases hr : f.remove with
      | some removal =>
        refine .inr (.inl ⟨rfl, rfl, removal, rfl, ?_⟩)
        split_ifs <;> rfl
      | none =>
        refine .inr (.inr ⟨rfl, rfl, rfl, ?_⟩)
        split_ifs
        · exact ⟨_, rfl⟩
        · cases parent p <;> exact ⟨_, rfl⟩

end truncate

/-! ## Restoring -/

inductive RestoreOutcome (U : Type)
  | restored (entry : TrashEntry U)
  | conflict
  | missing

/-- The failures of `restore` that do not come from the tree. -/
structure RestoreFaults where
  lstatTarget : Bool
  truncate : TruncateFaults
  rename : Faults
  cleanup : TruncateFaults

section restore

variable {U : Type} [DecidableEq U] (h : Host) (names : UuidNames U) (f : RestoreFaults)

/-- The second half of `restore`, once the target is free: the payload moves back, the entry is
forgotten and its directory removed. -/
def moveBack (s : Trash U) (uuid : U) (m : TrashMeta) (target : Subpath) :
    Except FsError (RestoreOutcome U) × Trash U :=
  let payload := h.relativePath (payloadPath names uuid m.name)
  match renameRelative h f.rename s.server payload target .create with
  | (.error err, server) => (.error err, { s with server })
  | (.ok (), server) =>
    let entries := fun other => if other = uuid then none else s.entries other
    -- a failure to remove the directory of the entry is only logged
    let server := (truncateRelative h f.cleanup server (entryDirectory names uuid)).2
    let entry := m.entry names uuid server.accounts.usage
    (.ok (.restored { entry with
        path := pathToStringLossy target
        name := (target.getLast?.map fun n => toStringLossy n.1).getD entry.name }),
      { entries, server })

/-- The branch of `restore` that removes what is at the target first. -/
def restoreOver (s : Trash U) (uuid : U) (m : TrashMeta) (target : Subpath) :
    Except FsError (RestoreOutcome U) × Trash U :=
  match truncateRelative h f.truncate s.server target with
  | (.error err, server) => (.error err, { s with server })
  | (.ok (), server) => moveBack h names f { s with server } uuid m target

def restore (s : Trash U) (uuid : U) (target : Path) (overwrite : Bool) :
    Except FsError (RestoreOutcome U) × Trash U :=
  match s.entries uuid with
  | none => (.ok .missing, s)
  | some m =>
    let target := h.relativePath target
    if target = [] then (.ok .conflict, s)
    else
      match if f.lstatTarget then none else h.lstat s.server.fs target with
      | none => moveBack h names f s uuid m target
      | some _ =>
        if overwrite = false then (.ok .conflict, s)
        else restoreOver h names f s uuid m target

/-- Nothing is lost: what was at the target is there as it was, and the payload is still in the
trash, with everything in it, and listed. -/
structure NothingLost (s s' : Trash U) (uuid : U) (target : Path) : Prop where
  target : ∀ u, h.lstat s.server.fs (h.relativePath target) = some u →
    h.lstat s'.server.fs (h.relativePath target) = some u
  payload : ∀ m u, s.entries uuid = some m →
    h.lstat s.server.fs (h.relativePath (payloadPath names uuid m.name)) = some u →
    ∃ u', h.lstat s'.server.fs (h.relativePath (payloadPath names uuid m.name)) = some u' ∧ FileTree.Extends u u'
  listed : s'.entries uuid = s.entries uuid

/-- An existing target is not put at risk: it is not to be overwritten, it cannot be removed and
nothing of it goes, or it is removed and then nothing stands in the way of the payload. -/
def TargetSafe (s : Trash U) (uuid : U) (target : Subpath) (overwrite : Bool) : Prop :=
  ∀ m u, s.entries uuid = some m → target ≠ [] → f.lstatTarget = false →
    h.lstat s.server.fs target = some u → overwrite = true →
    h.isProtected s.server.fs target = true ∨ f.truncate.lstat = true ∨
      (∃ removal, f.truncate.remove = some removal ∧ (u.isDir = true → removal.rest u = some u)) ∨
      (f.truncate.remove = none ∧ GoesThrough h f.rename (takeAway h s.server.fs target)
        (h.relativePath (payloadPath names uuid m.name)) target .create)

variable {h names f} {s : Trash U} {uuid : U} {m : TrashMeta}

omit [DecidableEq U] in
theorem NothingLost.refl (s : Trash U) (uuid : U) (target : Path) : NothingLost h names s s uuid target :=
  ⟨fun _ hu => hu, fun _ u _ hu => ⟨u, hu, .refl u⟩, rfl⟩

variable {target : Subpath} {err : FsError}

/-- A payload that does not move back leaves the tree as it was, directories above the target
apart. -/
theorem moveBack_error (herr : (moveBack h names f s uuid m target).1 = .error err) :
    ¬ GoesThrough h f.rename s.server.fs (h.relativePath (payloadPath names uuid m.name)) target
        .create ∧
      ∃ t, (moveBack h names f s uuid m target).2 = { s with server := ⟨t, s.server.accounts⟩ } ∧
        (t = s.server.fs ∨ t = (makeParents h f.rename s.server.fs target .create).2) := by
  unfold moveBack at herr ⊢
  by_cases hg : GoesThrough h f.rename s.server.fs
      (h.relativePath (payloadPath names uuid m.name)) target .create
  · obtain ⟨u, t', -, -, hok⟩ := renameRelative_ok hg
    simp only [hok] at herr
    cases herr
  · obtain ⟨err', t, hfail, ht⟩ := renameRelative_error hg
    simp only [hfail]
    exact ⟨hg, t, rfl, ht⟩

theorem moveBack_lstat (hne : target ≠ []) (herr : (moveBack h names f s uuid m target).1 = .error err) :
    h.lstat (moveBack h names f s uuid m target).2.server.fs target = h.lstat s.server.fs target := by
  obtain ⟨-, t, heq, rfl | rfl⟩ := moveBack_error herr
  · rw [heq]
  · rw [heq]
    exact (makeParents_new hne).1

theorem moveBack_nothingLost {target : Path} (hne : h.relativePath target ≠ [])
    (herr : (moveBack h names f s uuid m (h.relativePath target)).1 = .error err) :
    NothingLost h names s (moveBack h names f s uuid m (h.relativePath target)).2 uuid target := by
  have htarget := moveBack_lstat hne herr
  obtain ⟨-, t, heq, ht⟩ := moveBack_error herr
  refine ⟨fun u hu => htarget.trans hu, fun m' u _ hu => ?_, by rw [heq]⟩
  have hext : FileTree.Extends s.server.fs t := by
    rcases ht with rfl | rfl
    · exact .refl _
    · exact makeParents_made.extends_
  rw [heq]
  exact h.resolution.lstat_of_extends hext hu

/-- Removing the target first loses nothing exactly when nothing of it goes, or everything that
follows goes through. -/
theorem restoreOver_iff {target : Path} (hne : h.relativePath target ≠ []) {u : Fs}
    (hu : h.lstat s.server.fs (h.relativePath target) = some u) :
    (∀ err, (restoreOver h names f s uuid m (h.relativePath target)).1 = .error err →
        NothingLost h names s (restoreOver h names f s uuid m (h.relativePath target)).2 uuid target) ↔
      h.isProtected s.server.fs (h.relativePath target) = true ∨ f.truncate.lstat = true ∨
      (∃ removal, f.truncate.remove = some removal ∧ (u.isDir = true → removal.rest u = some u)) ∨
      (f.truncate.remove = none ∧ GoesThrough h f.rename (takeAway h s.server.fs (h.relativePath target))
        (h.relativePath (payloadPath names uuid m.name)) (h.relativePath target) .create) := by
  unfold restoreOver
  rcases truncateRelative_cases (f := f.truncate) hu with ⟨hrefused, err, heq⟩ |
    ⟨hp, hl, removal, hr, heq⟩ | ⟨hp, hl, hr, a, heq⟩
  · simp only [heq]
    exact ⟨fun _ => hrefused.imp_right .inl, fun _ _ _ => .refl s uuid target⟩
  · simp only [heq, hp, hl, hr, Bool.false_eq_true, false_or, Option.some.injEq, exists_eq_left',
      reduceCtorEq, false_and, or_false]
    constructor
    · intro hlost hdir
      have hkept := (hlost .io rfl).target u hu
      rw [if_pos hdir] at hkept
      exact lstat_leaveAt hne hu (removal.pruned u) hkept
    · intro hall err _
      have htree : (if u.isDir then leaveAt h s.server.fs (h.relativePath target) (removal.rest u)
          else s.server.fs) = s.server.fs := by
        by_cases hdir : u.isDir = true
        · rw [if_pos hdir, hall hdir, leaveAt_self hne hu]
        · rw [if_neg hdir]
      rw [htree]
      exact .refl s uuid target
  · simp only [heq, hp, hl, hr, Bool.false_eq_true, false_or, reduceCtorEq, false_and, exists_false, true_and]
    constructor
    · intro hlost
      by_contra hg
      obtain ⟨err, t, hfail, -⟩ := renameRelative_error (s := ⟨takeAway h s.server.fs
        (h.relativePath target), a⟩) hg
      have herr : (moveBack h names f { s with server := ⟨takeAway h s.server.fs
          (h.relativePath target), a⟩ } uuid m (h.relativePath target)).1 = .error err := by
        simp only [moveBack, hfail]
      -- the target is gone, and nothing brings it back
      obtain ⟨d, n, hplace, -⟩ := h.place_of_lstat hne hu
      have hkept := (hlost err herr).target u hu
      rw [moveBack_lstat hne herr, lstat_takeAway hplace] at hkept
      cases hkept
    · intro hg err herr
      obtain ⟨_, _, -, -, hok⟩ := renameRelative_ok (s := ⟨takeAway h s.server.fs (h.relativePath target), a⟩) hg
      simp only [moveBack, hok] at herr
      cases herr

/-- **A failed restore has lost nothing exactly when the target was safe.** -/
theorem restore_atomic_iff (s : Trash U) (uuid : U) (target : Path) (overwrite : Bool) :
    (∀ err, (restore h names f s uuid target overwrite).1 = .error err →
        NothingLost h names s (restore h names f s uuid target overwrite).2 uuid target) ↔
      TargetSafe h names f s uuid (h.relativePath target) overwrite := by
  unfold restore TargetSafe
  cases hm : s.entries uuid with
  | none => exact ⟨fun _ m' u h' => (nomatch h'), fun _ err h' => (nomatch h')⟩
  | some m =>
    dsimp only
    by_cases hne : h.relativePath target = []
    · rw [if_pos hne]
      exact ⟨fun _ m' u _ h' => absurd hne h', fun _ err h' => (nomatch h')⟩
    rw [if_neg hne]
    cases hfound : (if f.lstatTarget then none else h.lstat s.server.fs (h.relativePath target)) with
    | none =>
      -- nothing is removed, so nothing can be lost
      refine ⟨fun _ m' u _ _ hl hu _ => ?_, fun _ err herr => moveBack_nothingLost hne herr⟩
      rw [hl, hu] at hfound
      cases hfound
    | some u =>
      split_ifs at hfound with hl
      cases overwrite with
      | false => exact ⟨fun _ m' u' _ _ _ _ h' => (nomatch h'), fun _ err h' => (nomatch h')⟩
      | true =>
        rw [if_neg (Bool.true_eq_false.mp), restoreOver_iff hne hfound]
        constructor
        · intro hsafe m' u' hm' _ _ hu' _
          obtain rfl : m = m' := Option.some.inj hm'
          obtain rfl : u = u' := Option.some.inj (hfound.symm.trans hu')
          exact hsafe
        · intro hsafe
          exact hsafe m u rfl hne (by simpa using hl) hfound rfl

end restore

/-- Names for a trash that holds a single entry. -/
def singleName : UuidNames Unit where
  toName _ := ⟨[0x75], by decide⟩
  parse _ := some ()
  parse_toName _ := rfl
  utf8 _ := by decide

/-- A file `b` of two bytes was trashed, and a file `a` of one byte exists. -/
def trashedB : Trash Unit where
  entries _ := some ⟨[0x62], [0x62], false, 2, 0, .api⟩
  server := serverOf
    [(nameA, fileOf 1 (by decide)),
      (trashDirectory, .dir ⟨0, by decide⟩
        [(singleName.toName (), .dir ⟨0, by decide⟩ [(nameB, fileOf 2 (by decide))])])] 3

/-- The entry is restored over `a`, and the rename fails: `a` is gone. -/
theorem restore_loses_target :
    let f : RestoreFaults := ⟨false, .none, { Faults.none with rename := true }, .none⟩
    let r := restore plainHost singleName f trashedB () [.normal nameA] true
    r.1 = .error .io ∧
      plainHost.lstat trashedB.server.fs [nameA] = some (fileOf 1 (by decide)) ∧
      plainHost.lstat r.2.server.fs [nameA] = none ∧
      ¬ NothingLost plainHost singleName trashedB r.2 () [.normal nameA] := by
  refine ⟨rfl, rfl, rfl, fun hlost => ?_⟩
  exact nomatch hlost.target _ (rfl : _ = some (fileOf 1 (by decide)))

end Wings.Filesystem
