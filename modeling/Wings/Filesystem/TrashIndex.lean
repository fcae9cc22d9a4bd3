import Wings.Filesystem.Trash

/-!
# Wings.Filesystem.TrashIndex — trashing a file, and reading the trash back

`server/filesystem/trash.rs`: `trash` writes the metadata of an entry and moves the payload next to
it; `load` rebuilds the index from what it finds on disk.  Clearing inode flags and the diff storage
are not modelled.

* **`trash_survives_iff`**
-/

namespace Wings.Filesystem

open Lib List FileTree Option Resolution

/-! ## The model -/

def metaFile : FileName :=
  ⟨[0x6D, 0x65, 0x74, 0x61, 0x2E, 0x6A, 0x73, 0x6F, 0x6E], by decide⟩

def metaSizeCap : ℕ := 64 * 1024

/-- How the metadata are written and read: `serde_json::to_vec`, and `String::from_utf8` followed by
`serde_json::from_str`. -/
structure MetaCodec where
  toVec : TrashMeta → List UInt8
  fromStr : List UInt8 → Option TrashMeta

/-- What is written is read back, and a text cut short is not an object. -/
structure MetaCodec.Faithful (codec : MetaCodec) (m : TrashMeta) : Prop where
  readBack : codec.fromStr (codec.toVec m) = some m
  cut : ∀ n, n < (codec.toVec m).length → codec.fromStr ((codec.toVec m).take n) = none

section model

variable {U : Type} [DecidableEq U] (h : Host) (names : UuidNames U) (codec : MetaCodec) (f : Faults)

/-- The metadata `trash` writes for what it found at the path. -/
def newMeta (usage : DiskUsage Name) (path : Subpath) (fileName : FileName) (u : Fs) (now : ℤ)
    (source : TrashSource) : TrashMeta where
  path := pathToStringLossy path
  name := toStringLossy fileName.1
  directory := u.isDir
  size :=
    if u.isDir then ((usage.getSize (path.map .normal)).map UsedSpace.logical).getD 0
    else (len u).1
  deleted := now
  source := source

/-- The part of `trash` that is undone when it fails: the metadata are written, the payload moves. -/
def moveToTrash (s : ServerFs) (uuid : U) (m : TrashMeta) (path : Subpath) : Except FsError Unit × ServerFs :=
  if hlen : (codec.toVec m).length ≤ maxOffset then
    match writeFile h s.fs (entryDirectory names uuid ++ [metaFile]) ⟨codec.toVec m, hlen⟩ with
    | none => (.error .io, s)
    | some t =>
      let accounts := (s.accounts.asyncAllocateInPath (entryDirectory names uuid) (codec.toVec m).length true).2
      renameRelative h f ⟨t, accounts⟩ path (h.relativePath (payloadPath names uuid m.name)) .require
  else (.error .io, s)

/-- `Trash::trash`; `uuid` is the new identifier and `now` the time. -/
def trash (s : Trash U) (uuid : U) (now : ℤ) (p : Path) (source : TrashSource) :
    Except FsError (TrashEntry U) × Trash U :=
  let path := h.relativePath p
  match path.getLast? with
  | none => (.error (.message "path has no file name"), s)
  | some fileName =>
    match h.lstat s.server.fs path with
    | none => (.error .io, s)
    | some u =>
      let m := newMeta s.server.accounts.usage path fileName u now source
      let (made, t) := asyncCreateChownedDirAll h f s.server.fs (entryDirectory names uuid)
      if made = false then (.error .io, { s with server := ⟨t, s.server.accounts⟩ })
      else
        match moveToTrash h names codec f ⟨t, s.server.accounts⟩ uuid m path with
        | (.error err, server) =>
          (.error err, { s with server := (truncateRelative h .none server (entryDirectory names uuid)).2 })
        | (.ok (), server) =>
          (.ok (m.entry names uuid server.accounts.usage),
            { entries := fun other => if other = uuid then some m else s.entries other
              server := server })

/-- The metadata file of an entry, read up to the cap. -/
def readMeta (t : Fs) (uuid : U) : Option TrashMeta :=
  match h.stat t (entryDirectory names uuid ++ [metaFile]) with
  | some (.leaf (.file content)) => codec.fromStr (content.1.take metaSizeCap)
  | _ => none

/-- One round of the loop of `load`, on an entry of the trash directory. -/
def loadEntry (state : (U → Option TrashMeta) × Fs) (entry : FileName × Fs) : (U → Option TrashMeta) × Fs :=
  if entry.2.isDir = false then state
  else
    match names.parse (toStringLossy entry.1.1) with
    | none => state
    | some uuid =>
      match readMeta h names codec state.2 uuid with
      | none => state
      | some m =>
        match h.lstat state.2 (h.relativePath (payloadPath names uuid m.name)) with
        | none => (state.1, takeAway h state.2 (entryDirectory names uuid))
        | some _ => (fun other => if other = uuid then some m else state.1 other, state.2)

/-- `Trash::load`: the index, and the tree without the entries that have no payload. -/
def load (old : U → Option TrashMeta) (t : Fs) : (U → Option TrashMeta) × Fs :=
  match h.stat t [trashDirectory] with
  | none => (fun _ => none, t)
  -- what is not a directory cannot be read, and the index stays
  | some (.leaf _) => (old, t)
  | some (.dir _ entries) => entries.foldl (loadEntry h names codec) (fun _ => none, t)

end model

/-! ## A trash without links -/

/-- No link is in the way: the root is a directory, the trash is one if it exists, and none of its
entries is a link. -/
structure TrashPlain (t : Fs) : Prop where
  root : t.isDir = true
  trash : ∀ v, t.lookup [trashDirectory] = some v → v.isDir = true
  entries : ∀ n w, t.lookup [trashDirectory, n] = some w → ¬ w.IsLink Leaf.isLink

section plain

variable {U : Type} {h : Host} {names : UuidNames U} {codec : MetaCodec} {t : Fs} {n : FileName} (hp : TrashPlain t)
include hp

theorem TrashPlain.noLink_trash : NoLink Leaf.isLink t [trashDirectory] := by
  have hroot : NoLink Leaf.isLink t [] :=
    noLink_of_isDir rfl hp.root
  exact hroot.concat fun v hv => not_isLink_of_isDir (hp.trash v hv)

theorem TrashPlain.noLink (n : FileName) : NoLink Leaf.isLink t [trashDirectory, n] :=
  hp.noLink_trash.concat (hp.entries n)

theorem TrashPlain.takeAway (n : FileName) :
    TrashPlain (takeAway h t [trashDirectory, n]) ∧
      (∀ m, m ≠ n → (takeAway h t [trashDirectory, n]).lookup [trashDirectory, m] = t.lookup [trashDirectory, m]) ∧
      (takeAway h t [trashDirectory, n]).lookup [trashDirectory, n] = none := by
  cases hv : t.lookup [trashDirectory] with
  | none =>
    have hnone : ∀ m, t.lookup [trashDirectory, m] = none := fun m => by
      rw [show [trashDirectory, m] = [trashDirectory] ++ [m] from rfl, lookup_concat, hv]
      rfl
    have hplace : h.place t [trashDirectory, n] = none := by
      cases hpl : h.place t [trashDirectory, n] with
      | none => rfl
      | some dn =>
        obtain ⟨q, hq, hd⟩ := h.place_eq_some_iff.mp hpl
        have hq' : [trashDirectory] ++ [n] = q ++ [dn.2] := hq
        obtain ⟨rfl, -⟩ := append_inj' hq' rfl
        obtain ⟨-, u, hu⟩ := (h.resolution.canon_eq_some_iff hp.noLink_trash).mp hd
        rw [hv] at hu
        cases hu
    have htree : Filesystem.takeAway h t [trashDirectory, n] = t := by
      simp only [Filesystem.takeAway, hplace]
    rw [htree]
    exact ⟨hp, fun _ _ => rfl, hnone n⟩
  | some v =>
    have hcanon : h.canon t [trashDirectory] = some [trashDirectory] :=
      (h.resolution.canon_eq_some_iff hp.noLink_trash).mpr ⟨rfl, v, hv⟩
    have hplace : h.place t [trashDirectory, n] = some ([trashDirectory], n) :=
      h.place_eq_some_iff.mpr ⟨_, rfl, hcanon⟩
    have htree : Filesystem.takeAway h t [trashDirectory, n] =
        t.eraseAt [trashDirectory] n := by
      simp only [Filesystem.takeAway, hplace]
    have hlook : ∀ m, (t.eraseAt [trashDirectory] n).lookup [trashDirectory, m] =
        if m = n then none else t.lookup [trashDirectory, m] := fun m => by
      rw [lookup_eraseAt hv]
      by_cases hm : m = n
      · rw [if_pos hm, if_pos (by simp [hm])]
      · rw [if_neg hm, if_neg (by simpa using Ne.symm hm), if_neg (by simp)]
    rw [htree]
    refine ⟨⟨?_, fun w hw => ?_, fun m w hw => ?_⟩, fun m hm => by rw [hlook, if_neg hm],
      by rw [hlook, if_pos rfl]⟩
    · rw [isDir_eraseAt]
      exact hp.root
    · rw [lookup_eraseAt hv, hv] at hw
      obtain rfl : _ = w := some.inj hw
      rw [isDir_eraseAt]
      exact hp.trash v hv
    · rw [hlook] at hw
      split_ifs at hw
      exact hp.entries m w hw

end plain

/-! ## Reading one entry back -/

section load

variable {U : Type} [DecidableEq U] {h : Host} {names : UuidNames U} {codec : MetaCodec}
  {idx : U → Option TrashMeta} {t e₀ : Fs} {uuid : U}

/-- The metadata in an entry directory. -/
def metaIn (codec : MetaCodec) (entry : Fs) : Option TrashMeta :=
  match entry.child metaFile with
  | some (.leaf (.file content)) => codec.fromStr (content.1.take metaSizeCap)
  | _ => none

omit [DecidableEq U] in
theorem toName_injective {a b : U} (hab : names.toName a = names.toName b) : a = b := by
  have ha := names.parse_toName a
  rw [hab, names.parse_toName b] at ha
  exact (Option.some.inj ha).symm

omit [DecidableEq U] in
theorem readMeta_eq (hp : TrashPlain t)
    (hmeta : ∀ w, t.lookup (entryDirectory names uuid ++ [metaFile]) = some w → ¬ w.IsLink Leaf.isLink) :
    readMeta h names codec t uuid = (t.lookup (entryDirectory names uuid)).bind (metaIn codec) := by
  have hstat : h.stat t (entryDirectory names uuid ++ [metaFile]) =
      t.lookup (entryDirectory names uuid ++ [metaFile]) :=
    h.resolution.stat_of_noLink ((hp.noLink (names.toName uuid)).concat hmeta)
  rw [readMeta, hstat, lookup_concat]
  cases t.lookup (entryDirectory names uuid) <;> rfl

section metadata

variable (hmeta : ∀ w, e₀.child metaFile = some w → ¬ w.IsLink Leaf.isLink)
include hmeta

omit [DecidableEq U] in
theorem lookup_meta_of_entry
    (he : t.lookup (entryDirectory names uuid) = some e₀ ∨ t.lookup (entryDirectory names uuid) = none) :
    ∀ w, t.lookup (entryDirectory names uuid ++ [metaFile]) = some w → ¬ w.IsLink Leaf.isLink := by
  intro w hw
  rw [lookup_concat] at hw
  rcases he with he | he
  · rw [he] at hw
    exact hmeta w hw
  · rw [he] at hw
    cases hw

/-- The state of the loop of `load`, as far as one entry is concerned: its directory is untouched or
gone, and it is listed with the metadata in it or not at all. -/
structure LoadInv (names : UuidNames U) (codec : MetaCodec) (uuid : U) (e₀ : Fs)
    (state : (U → Option TrashMeta) × Fs) : Prop where
  plain : TrashPlain state.2
  tree : state.2.lookup (entryDirectory names uuid) = some e₀ ∨ state.2.lookup (entryDirectory names uuid) = none
  index : state.1 uuid = none ∨ state.1 uuid = metaIn codec e₀

omit [DecidableEq U] hmeta in
theorem TrashPlain.takeAway_entry (hp : TrashPlain t) {other : U}
    (he : t.lookup (entryDirectory names uuid) = some e₀ ∨ t.lookup (entryDirectory names uuid) = none) :
    (Wings.Filesystem.takeAway h t (entryDirectory names other)).lookup (entryDirectory names uuid) = some e₀ ∨
      (Wings.Filesystem.takeAway h t (entryDirectory names other)).lookup (entryDirectory names uuid) = none := by
  obtain ⟨-, hothers, hgone⟩ := hp.takeAway (h := h) (names.toName other)
  by_cases hn : names.toName uuid = names.toName other
  · refine .inr ?_
    rw [entryDirectory, entryDirectory, hn]
    exact hgone
  · have hsame := hothers _ hn
    rw [entryDirectory, entryDirectory, hsame]
    exact he

variable {state : (U → Option TrashMeta) × Fs}

/-- **Step lemma.** -/
theorem LoadInv.loadEntry (hinv : LoadInv names codec uuid e₀ state) (entry : FileName × Fs) :
    LoadInv names codec uuid e₀ (loadEntry h names codec state entry) := by
  unfold Filesystem.loadEntry
  split_ifs
  · exact hinv
  cases names.parse (toStringLossy entry.1.1) with
  | none => exact hinv
  | some other =>
    dsimp only
    cases hread : readMeta h names codec state.2 other with
    | none => exact hinv
    | some m =>
      dsimp only
      cases h.lstat state.2 (h.relativePath (payloadPath names other m.name)) with
      | none =>
        exact ⟨(hinv.plain.takeAway (names.toName other)).1, hinv.plain.takeAway_entry hinv.tree, hinv.index⟩
      | some u =>
        refine ⟨hinv.plain, hinv.tree, ?_⟩
        dsimp only
        by_cases ho : uuid = other
        · subst ho
          rw [if_pos rfl]
          rw [readMeta_eq hinv.plain (lookup_meta_of_entry hmeta hinv.tree)] at hread
          rcases hinv.tree with he | he
          · rw [he] at hread
            exact .inr hread.symm
          · rw [he] at hread
            cases hread
        · rw [if_neg ho]
          exact hinv.index

/-- **Run lemma.** -/
theorem LoadInv.foldl (hinv : LoadInv names codec uuid e₀ state) (entries : List (FileName × Fs)) :
    LoadInv names codec uuid e₀ (entries.foldl (Filesystem.loadEntry h names codec) state) := by
  induction entries generalizing state with
  | nil => exact hinv
  | cons entry entries ih => exact ih (hinv.loadEntry hmeta entry)

/-- The payload the metadata in an entry directory speak of is there, as long as the directory is. -/
structure HasPayload (h : Host) (names : UuidNames U) (codec : MetaCodec) (uuid : U) (e₀ : Fs)
    (m : TrashMeta) : Prop where
  read : metaIn codec e₀ = some m
  found : ∀ t : Fs, TrashPlain t → t.lookup (entryDirectory names uuid) = some e₀ →
    (h.lstat t (h.relativePath (payloadPath names uuid m.name))).isSome = true

/-- **Step lemma.**  An entry with a payload stays, and stays listed; its own round lists it. -/
theorem HasPayload.loadEntry {m : TrashMeta} (hpay : HasPayload h names codec uuid e₀ m) (hplain : TrashPlain state.2)
    (htree : state.2.lookup (entryDirectory names uuid) = some e₀) (entry : FileName × Fs) :
    (loadEntry h names codec state entry).2.lookup (entryDirectory names uuid) = some e₀ ∧
      (state.1 uuid = some m → (loadEntry h names codec state entry).1 uuid = some m) ∧
      (entry.2.isDir = true → names.parse (toStringLossy entry.1.1) = some uuid →
        (loadEntry h names codec state entry).1 uuid = some m) := by
  have hread : readMeta h names codec state.2 uuid = some m := by
    rw [readMeta_eq hplain (lookup_meta_of_entry hmeta (.inl htree)), htree]
    exact hpay.read
  have hfound := hpay.found state.2 hplain htree
  unfold Filesystem.loadEntry
  by_cases hdir : entry.2.isDir = false
  · rw [if_pos hdir]
    exact ⟨htree, id, fun hd => by rw [hdir] at hd; cases hd⟩
  rw [if_neg hdir]
  cases names.parse (toStringLossy entry.1.1) with
  | none => exact ⟨htree, id, fun _ hparse => nomatch hparse⟩
  | some other =>
    dsimp only
    by_cases ho : uuid = other
    · subst ho
      obtain ⟨u, hu⟩ := isSome_iff_exists.mp hfound
      rw [hread]
      dsimp only
      rw [hu]
      dsimp only
      rw [if_pos rfl]
      exact ⟨htree, fun _ => rfl, fun _ _ => rfl⟩
    · have hother : some other ≠ some uuid := fun heq => ho (some.inj heq).symm
      cases readMeta h names codec state.2 other with
      | none => exact ⟨htree, id, fun _ hparse => absurd hparse hother⟩
      | some m' =>
        dsimp only
        cases h.lstat state.2 (h.relativePath (payloadPath names other m'.name)) with
        | none =>
          obtain ⟨-, hothers, -⟩ := hplain.takeAway (names.toName other)
          refine ⟨?_, id, fun _ hparse => absurd hparse hother⟩
          have hsame := hothers (names.toName uuid) fun hn => ho (toName_injective hn)
          rw [← htree]
          exact hsame
        | some u =>
          refine ⟨htree, fun hs => ?_, fun _ hparse => absurd hparse hother⟩
          dsimp only
          rw [if_neg ho]
          exact hs

/-- **Run lemma.** -/
theorem HasPayload.foldl {m : TrashMeta} (hpay : HasPayload h names codec uuid e₀ m) (entries : List (FileName × Fs))
    (hinv : LoadInv names codec uuid e₀ state) (htree : state.2.lookup (entryDirectory names uuid) = some e₀)
    (hlisted : state.1 uuid = some m ∨ ∃ entry ∈ entries, entry.2.isDir = true ∧
      names.parse (toStringLossy entry.1.1) = some uuid) :
    (entries.foldl (Filesystem.loadEntry h names codec) state).1 uuid = some m ∧
      (entries.foldl (Filesystem.loadEntry h names codec) state).2.lookup
        (entryDirectory names uuid) = some e₀ := by
  induction entries generalizing state with
  | nil =>
    rcases hlisted with hl | ⟨entry, hmem, -⟩
    · exact ⟨hl, htree⟩
    · cases hmem
  | cons entry entries ih =>
    obtain ⟨htree', hstay, hown⟩ := hpay.loadEntry hmeta hinv.plain htree entry
    refine ih (hinv.loadEntry hmeta entry) htree' ?_
    rcases hlisted with hl | ⟨e, hmem, hdir, hparse⟩
    · exact .inl (hstay hl)
    · rcases mem_cons.mp hmem with rfl | hmem
      · exact .inl (hown hdir hparse)
      · exact .inr ⟨e, hmem, hdir, hparse⟩

variable (h codec) in
/-- **What `load` makes of one entry.**  It is listed with the metadata in its directory or not at
all, and it is listed and kept if the payload these speak of is there. -/
theorem load_own (hp : TrashPlain t) (he : t.lookup (entryDirectory names uuid) = some e₀)
    (hdir : e₀.isDir = true) (old : U → Option TrashMeta) :
    (∀ m, (load h names codec old t).1 uuid = some m → metaIn codec e₀ = some m) ∧
      ∀ m, HasPayload h names codec uuid e₀ m → (load h names codec old t).1 uuid = some m ∧
        TrashPlain (load h names codec old t).2 ∧
        (load h names codec old t).2.lookup (entryDirectory names uuid) = some e₀ := by
  have hentry : ([trashDirectory] ++ [names.toName uuid] : Subpath) =
    entryDirectory names uuid := rfl
  have htree := he
  rw [← hentry, lookup_concat, bind_eq_some_iff] at he
  obtain ⟨trash, htrash, hchild⟩ := he
  have hstat : h.stat t [trashDirectory] = some trash :=
    (h.resolution.stat_of_noLink hp.noLink_trash).trans htrash
  cases trash with
  | leaf a => cases hchild
  | dir size entries =>
    have hinv : LoadInv names codec uuid e₀ (fun _ => none, t) := ⟨hp, .inl htree, .inl rfl⟩
    have hload : load h names codec old t =
        entries.foldl (loadEntry h names codec) (fun _ => none, t) := by
      simp only [load, hstat]
    rw [hload]
    have hrun := hinv.foldl (h := h) hmeta entries
    refine ⟨fun m hm => ?_, fun m hpay => ?_⟩
    · rcases hrun.index with hnone | hread
      · rw [hnone] at hm
        cases hm
      · rw [← hread, hm]
    · have hspelled : names.parse (toStringLossy (names.toName uuid).1) = some uuid := by
        rw [toStringLossy_of_valid (names.utf8 uuid), names.parse_toName]
      obtain ⟨hlisted, hkept⟩ := hpay.foldl hmeta entries hinv htree
        (.inr ⟨(names.toName uuid, e₀), mem_of_entry hchild, hdir, hspelled⟩)
      exact ⟨hlisted, hrun.plain, hkept⟩

end metadata

end load

/-! ## What trashing leaves on disk -/

section trash

variable {U : Type} {h : Host} {names : UuidNames U} {codec : MetaCodec} {f : Faults} {t t' : Fs}
  {uuid : U} {path : Subpath} {name : FileName} {u : Fs} {content : Content} {p : Subpath} {n : FileName}

theorem relativePath_payload (name : FileName) :
    h.relativePath (payloadPath names uuid (toStringLossy name.1)) = entryDirectory names uuid ++ [name.lossy] := by
  have hcomp : Path.components (toStringLossy name.1) = [.normal name.lossy] :=
    Path.components_fileName name.lossy
  have hpath : payloadPath names uuid (toStringLossy name.1) =
      (entryDirectory names uuid ++ [name.lossy]).map .normal := by
    rw [payloadPath, hcomp]
    rfl
  rw [hpath, h.relativePath_normal]

theorem Made.entry_empty {v : Fs} (hm : Made h t t' p) (hno : NoLink Leaf.isLink t' p) (hfresh : t.lookup p = none)
    (hv : t'.lookup p = some v) : v = .dir h.newDirLen [] := by
  rcases hm.fresh with rfl | ⟨q, d, hq, hd, hnew⟩
  · rw [hfresh] at hv
    cases hv
  · obtain ⟨rfl, -⟩ := (h.resolution.canon_eq_some_iff (hno.of_prefix hq)).mp hd
    obtain ⟨s, rfl⟩ := hq
    rw [FileTree.lookup_append, hnew, bind_some] at hv
    cases s with
    | nil => exact (some.inj hv).symm
    | cons m s => cases hv

theorem writeFile_new (hm : Made h t t' p) (hno : NoLink Leaf.isLink t' p) (hfresh : t.lookup p = none) {tw : Fs}
    (hw : writeFile h t' (p ++ [n]) content = some tw) :
    t'.lookup p = some (.dir h.newDirLen []) ∧ tw = t'.insertAt p n (.leaf (.file content)) := by
  have hlook : ∀ v, t'.lookup p = some v → t'.lookup (p ++ [n]) = none := fun v hv => by
    rw [lookup_concat, hv, hm.entry_empty hno hfresh hv]
    rfl
  -- the directory resolves, or nothing could have been written
  have hdir : ∀ d, h.canon t' p = some d → d = p ∧ t'.lookup p = some (.dir h.newDirLen []) := by
    intro d hd
    obtain ⟨rfl, v, hv⟩ := (h.resolution.canon_eq_some_iff hno).mp hd
    exact ⟨rfl, by rw [hv, hm.entry_empty hno hfresh hv]⟩
  unfold writeFile at hw
  cases hc : h.canon t' (p ++ [n]) with
  | some q =>
    cases hd : h.canon t' p with
    | none =>
      have hnone : h.canon t' (p ++ [n]) = none := h.resolution.canon_parent hd
      rw [hc] at hnone
      cases hnone
    | some d =>
      obtain ⟨rfl, hv⟩ := hdir d hd
      have hnone : h.canon t' (d ++ [n]) = none := h.resolution.canon_missing hd (hlook _ hv)
      rw [hc] at hnone
      cases hnone
  | none =>
    rw [hc] at hw
    cases hpl : h.place t' (p ++ [n]) with
    | none => rw [hpl] at hw; cases hw
    | some place =>
      obtain ⟨d, m⟩ := place
      obtain ⟨q, hq, hd⟩ := h.place_eq_some_iff.mp hpl
      obtain ⟨rfl, rfl⟩ := append_singleton_inj.mp hq
      obtain ⟨rfl, hv⟩ := hdir d hd
      rw [hpl] at hw
      simp only [hv, hlook _ hv, isDir, if_true] at hw
      exact ⟨hv, (some.inj hw).symm⟩

/-- `tw` is `t` with a new directory at `p` that holds a single file. -/
structure Written (h : Host) (t tw : Fs) (p : Subpath) (n : FileName) (content : Content) :
    Prop where
  extends_ : FileTree.Extends t tw
  entry : tw.lookup p = some (.dir h.newDirLen [(n, .leaf (.file content))])
  elsewhere : ∀ q, ¬ q <+: p → ¬ p <+: q → tw.lookup q = t.lookup q

theorem written_of_writeFile (hno : NoLink Leaf.isLink t p) (hfresh : t.lookup p = none) {tw : Fs}
    (hw : writeFile h (asyncCreateChownedDirAll h f t p).2 (p ++ [n]) content = some tw) :
    Written h t tw p n content := by
  have hmade : Made h t (asyncCreateChownedDirAll h f t p).2 p := asyncCreateChownedDirAll_spec t p
  have halong : MadeAlong t (asyncCreateChownedDirAll h f t p).2 p :=
    asyncCreateChownedDirAll_induction (P := (MadeAlong t · p)) MadeAlong.createDir ⟨hno, fun _ _ => rfl⟩
  generalize (asyncCreateChownedDirAll h f t p).2 = t' at *
  obtain ⟨hv, rfl⟩ := writeFile_new hmade halong.noLink hfresh hw
  have hnone : t'.lookup (p ++ [n]) = none := by
    rw [lookup_concat, hv]
    rfl
  refine ⟨hmade.extends_.trans (extends_insertAt _ hv rfl hnone), ?_, fun q hq hq' => ?_⟩
  · rw [lookup_insertAt hv rfl, if_neg fun hpre => ?_, hv]
    · simp [insertAt, modifyAt, setChild, putEntry]
    · exact not_prefix_append_cons _ _ _ hpre
  · have hpn : ¬ p ++ [n] <+: q := fun hpre => hq' ((prefix_append p [n]).trans hpre)
    rw [lookup_insertAt hv rfl, if_neg hpn, if_neg hq]
    exact halong.elsewhere q hq

/-- What a move into the new directory leaves: the payload is in it, next to the file unless it took
its place, and elsewhere nothing became a leaf that was none. -/
structure MovedInto (t t' : Fs) (p : Subpath) (n : FileName) (content : Content)
    (name : FileName) (u : Fs) : Prop where
  root : t'.isDir = t.isDir
  entry : ∃ e₀, t'.lookup p = some e₀ ∧ e₀.isDir = true ∧ e₀.child name = some u ∧
    (name ≠ n → e₀.child n = some (.leaf (.file content)))
  leaves : ∀ q a, ¬ q <+: p → ¬ p <+: q → t'.lookup q = some (.leaf a) → t.lookup q = some (.leaf a)

theorem Written.movedInto {tw : Fs} (hw : Written h t tw p n content) (hfresh : t.lookup p = none) (hne : path ≠ [])
    (hu : h.lstat t path = some u) (hr : rename h tw path (p ++ [name]) = some t') :
    MovedInto t t' p n content name u := by
  obtain ⟨od, on, nd, nn, u', dir, ho, hn, hu', -, -, hcase⟩ := rename_spec hr
  -- both places are what they look like
  have hno : NoLink Leaf.isLink tw p :=
    noLink_of_isDir hw.entry rfl
  obtain ⟨q, hq, hnd⟩ := h.place_eq_some_iff.mp hn
  obtain ⟨rfl, rfl⟩ := append_singleton_inj.mp hq
  obtain ⟨rfl, -⟩ := (h.resolution.canon_eq_some_iff hno).mp hnd
  have hold : t.lookup (od ++ [on]) = some u := by
    obtain ⟨d, m, hp, hlook⟩ := h.place_of_lstat hne hu
    obtain ⟨r, rfl, hd⟩ := h.place_eq_some_iff.mp hp
    obtain ⟨r', hr', hod⟩ := h.place_eq_some_iff.mp ho
    obtain ⟨rfl, hm⟩ := append_inj' hr' rfl
    obtain rfl : m = on := by simpa using hm
    have hd' : h.canon tw r = some d := h.resolution.canon_extends hw.extends_ hd
    obtain rfl : d = od := some.inj (hd'.symm.trans hod)
    exact hlook
  -- the payload was there before the directory was, so it is not in it
  have hbelow : ∀ s, t.lookup (nd ++ s) = none := fun s => by
    rw [FileTree.lookup_append, hfresh]
    rfl
  have hnotin : ¬ nd <+: od ++ [on] := by
    rintro ⟨s, hs⟩
    rw [← hs, hbelow] at hold
    cases hold
  rcases hcase with ⟨hsame, -⟩ | ⟨hsub, -, rfl⟩
  · exact absurd (hsame ▸ prefix_append nd [name]) hnotin
  have hnotabove : ¬ od ++ [on] <+: nd := fun hpre => hsub (hpre.trans (prefix_append nd _))
  obtain rfl : u' = u := by
    rw [hw.elsewhere _ hnotabove hnotin, hold] at hu'
    exact (some.inj hu').symm
  obtain ⟨parent, hparent⟩ : ∃ parent, tw.lookup od = some parent := by
    rw [lookup_concat, bind_eq_some_iff] at hu'
    obtain ⟨parent, hparent, -⟩ := hu'
    exact ⟨parent, hparent⟩
  have herase : (tw.eraseAt od on).lookup nd =
      some (.dir h.newDirLen [(n, .leaf (.file content))]) := by
    have hod : ¬ nd <+: od := fun hpre => hnotin (hpre.trans (prefix_append od [on]))
    rw [lookup_eraseAt hparent, if_neg hnotabove, if_neg hod]
    exact hw.entry
  refine ⟨?_, ?_, fun q a hq hq' hleaf => ?_⟩
  · obtain ⟨r, hr, hdir, -⟩ := hw.extends_ [] t rfl
    obtain rfl : tw = r := some.inj hr
    rw [isDir_insertAt, isDir_eraseAt, hdir]
  · refine ⟨setChild (.dir h.newDirLen [(n, .leaf (.file content))]) name u', ?_, rfl, ?_, fun hne => ?_⟩
    · rw [lookup_insertAt herase rfl, if_neg (not_prefix_append_cons _ _ _), herase]
      simp [insertAt, modifyAt]
    · rw [child_setChild rfl, if_pos rfl]
    · rw [child_setChild rfl, if_neg (Ne.symm hne)]
      simp [child, entries, FileTree.entry]
  · have hin : ¬ nd ++ [name] <+: q := fun hpre => hq' ((prefix_append nd _).trans hpre)
    rw [lookup_insertAt herase rfl, if_neg hin, if_neg hq] at hleaf
    have hkept := (extends_eraseAt tw od on).lookup_leaf hleaf
    rwa [hw.elsewhere q hq hq'] at hkept

theorem MovedInto.plain (hp : TrashPlain t)
    (hm : MovedInto t t' (entryDirectory names uuid) n content name u) : TrashPlain t' := by
  obtain ⟨e₀, he₀, hdir, -⟩ := hm.entry
  refine ⟨hm.root.trans hp.root, fun v hv => ?_, fun m w hw => ?_⟩
  · exact isDir_above he₀ (fun _ => hdir) ⟨[names.toName uuid], rfl⟩ hv
  · cases w with
    | dir size es => exact id
    | leaf a =>
      by_cases hmn : m = names.toName uuid
      · rw [hmn] at hw
        obtain rfl : e₀ = .leaf a := some.inj (he₀.symm.trans hw)
        cases hdir
      · have hne : ¬ [trashDirectory, m] <+: entryDirectory names uuid := by
          simpa [entryDirectory] using hmn
        have hne' : ¬ entryDirectory names uuid <+: [trashDirectory, m] := by
          simpa [entryDirectory] using Ne.symm hmn
        exact hp.entries m _ (hm.leaves _ a hne hne' hw)

variable [DecidableEq U]

/-- **What a successful `trash` leaves on disk**: an entry directory with the payload under its lossy
name and, unless that is the name of the metadata file, the metadata next to it. -/
theorem trash_movedInto {s s' : Trash U} {now : ℤ} {p : Path} {source : TrashSource} {e : TrashEntry U}
    (hplain : TrashPlain s.server.fs) (hfresh : s.server.fs.lookup (entryDirectory names uuid) = none)
    (hname : (h.relativePath p).getLast? = some name) (hu : h.lstat s.server.fs (h.relativePath p) = some u)
    (hok : trash h names codec f s uuid now p source = (.ok e, s')) :
    ∃ content : Content, content.1 = codec.toVec (newMeta s.server.accounts.usage
        (h.relativePath p) name u now source) ∧
      MovedInto s.server.fs s'.server.fs (entryDirectory names uuid) metaFile content name.lossy u ∧
      e.uuid = uuid ∧ e.path = pathToStringLossy (h.relativePath p) ∧ e.directory = u.isDir ∧
      e.name = toStringLossy name.1 := by
  have hne : h.relativePath p ≠ [] := by
    intro hnil
    rw [hnil] at hname
    cases hname
  simp only [trash, hname, hu] at hok
  split_ifs at hok with hmade
  · cases (Prod.mk.inj hok).1
  generalize hm : newMeta s.server.accounts.usage (h.relativePath p) name u now source = m at *
  have hmname : m.name = toStringLossy name.1 := by rw [← hm]; rfl
  unfold moveToTrash at hok
  split_ifs at hok with hlen
  swap
  · cases (Prod.mk.inj hok).1
  cases hw : writeFile h (asyncCreateChownedDirAll h f s.server.fs (entryDirectory names uuid)).2
      (entryDirectory names uuid ++ [metaFile]) ⟨codec.toVec m, hlen⟩ with
  | none =>
    rw [hw] at hok
    cases (Prod.mk.inj hok).1
  | some tw =>
    simp only [hw, hmname, relativePath_payload] at hok
    have hwritten := written_of_writeFile (hplain.noLink _) hfresh hw
    refine ⟨⟨codec.toVec m, hlen⟩, rfl, ?_⟩
    generalize hserver : (⟨tw, _⟩ : ServerFs) = server at hok
    have hfs : server.fs = tw := by rw [← hserver]
    by_cases hg : GoesThrough h f server.fs (h.relativePath p)
        (entryDirectory names uuid ++ [name.lossy]) .require
    · obtain ⟨m', t₂, -, hr, heq⟩ := renameRelative_ok hg
      rw [heq] at hok
      obtain ⟨he, hs'⟩ := Prod.mk.inj hok
      cases he
      cases hs'
      rw [hfs] at hr
      refine ⟨hwritten.movedInto hfresh hne hu hr, rfl, ?_, ?_, hmname⟩
      · rw [← hm]; rfl
      · rw [← hm]; rfl
    · obtain ⟨err, t₂, heq, -⟩ := renameRelative_error hg
      rw [heq] at hok
      cases (Prod.mk.inj hok).1

/-- The entry is in an index rebuilt from the tree, with the same path, source and kind, and its
payload is where it was put, unchanged. -/
def Survives (h : Host) (names : UuidNames U) (codec : MetaCodec) (old : U → Option TrashMeta)
    (t : Fs) (e : TrashEntry U) (source : TrashSource) (u : Fs) : Prop :=
  ∃ m, (load h names codec old t).1 e.uuid = some m ∧ m.path = e.path ∧ m.source = source ∧
    m.directory = e.directory ∧
    h.relativePath (payloadPath names e.uuid m.name) = h.relativePath (payloadPath names e.uuid e.name) ∧
    h.lstat (load h names codec old t).2 (h.relativePath (payloadPath names e.uuid m.name)) = some u

/-- The metadata can be read back: they fit the cap and the payload does not bear the name of the
metadata file; or it does, and is itself such a file for this very entry. -/
def Readable (h : Host) (names : UuidNames U) (codec : MetaCodec) (uuid : U) (m : TrashMeta)
    (name : FileName) (u : Fs) : Prop :=
  (name.lossy ≠ metaFile ∧ (codec.toVec m).length ≤ metaSizeCap) ∨
    (name.lossy = metaFile ∧ ∃ content m', u = .leaf (.file content) ∧
      codec.fromStr (content.1.take metaSizeCap) = some m' ∧ m'.path = m.path ∧
      m'.source = m.source ∧ m'.directory = m.directory ∧
      h.relativePath (payloadPath names uuid m'.name) = entryDirectory names uuid ++ [metaFile])

omit [DecidableEq U] in
theorem metaIn_of_child {e₀ : Fs} {c : Content} (hc : e₀.child metaFile = some (.leaf (.file c))) :
    metaIn codec e₀ = codec.fromStr (c.1.take metaSizeCap) := by
  rw [metaIn, hc]

/-- **Trash metadata survive a restart exactly when they can be read back.** -/
theorem trash_survives_iff {s s' : Trash U} {now : ℤ} {p : Path} {source : TrashSource}
    {e : TrashEntry U} (old : U → Option TrashMeta) (hplain : TrashPlain s.server.fs)
    (hfresh : s.server.fs.lookup (entryDirectory names uuid) = none) (hname : (h.relativePath p).getLast? = some name)
    (hu : h.lstat s.server.fs (h.relativePath p) = some u) (hkind : u.isDir = true ∨ ∃ c, u = .leaf (.file c))
    (hcodec : codec.Faithful (newMeta s.server.accounts.usage (h.relativePath p) name u now source))
    (hok : trash h names codec f s uuid now p source = (.ok e, s')) :
    Survives h names codec old s'.server.fs e source u ↔
      Readable h names codec uuid
        (newMeta s.server.accounts.usage (h.relativePath p) name u now source) name u := by
  obtain ⟨content, hcontent, hmoved, huuid, hpath, hdirectory, hename⟩ :=
    trash_movedInto hplain hfresh hname hu hok
  obtain ⟨e₀, he₀, hdir, hpayload, hmetaFile⟩ := hmoved.entry
  generalize hm : newMeta s.server.accounts.usage (h.relativePath p) name u now source = m at *
  subst huuid
  have hnotlink : ¬ u.IsLink Leaf.isLink := by
    rcases hkind with hd | ⟨c, rfl⟩
    · exact not_isLink_of_isDir hd
    · exact Bool.false_ne_true
  have hmeta : ∀ w, e₀.child metaFile = some w → ¬ w.IsLink Leaf.isLink := by
    intro w hw
    by_cases hn : name.lossy = metaFile
    · rw [← hn, hpayload] at hw
      exact some.inj hw ▸ hnotlink
    · rw [hmetaFile hn] at hw
      exact some.inj hw ▸ Bool.false_ne_true
  obtain ⟨hlisted, hkept⟩ := load_own h codec hmeta (hmoved.plain hplain) he₀ hdir old
  -- metadata that lead to the payload are listed, and the payload is kept
  have hsurvives : ∀ m', metaIn codec e₀ = some m' → m'.path = m.path → m'.source = m.source →
      m'.directory = m.directory →
      h.relativePath (payloadPath names e.uuid m'.name) = entryDirectory names e.uuid ++ [name.lossy] →
      Survives h names codec old s'.server.fs e source u := by
    intro m' hread hpath' hsource' hdir' hplace
    have hfound : ∀ t : Fs, TrashPlain t → t.lookup (entryDirectory names e.uuid) = some e₀ →
        h.lstat t (h.relativePath (payloadPath names e.uuid m'.name)) = some u := by
      intro t ht hte
      rw [hplace, show h.lstat t (entryDirectory names e.uuid ++ [name.lossy]) =
        t.lookup (entryDirectory names e.uuid ++ [name.lossy]) from
          h.resolution.lstat_of_noLink (ht.noLink _) _, lookup_concat, hte]
      exact hpayload
    obtain ⟨hlist, hplain', htree⟩ :=
      hkept m' ⟨hread, fun t ht hte => by rw [hfound t ht hte]; rfl⟩
    refine ⟨m', hlist, ?_, ?_, ?_, ?_, hfound _ hplain' htree⟩
    · rw [hpath', hpath, ← hm]; rfl
    · rw [hsource', ← hm]; rfl
    · rw [hdir', hdirectory, ← hm]; rfl
    · rw [hplace, hename, relativePath_payload]
  constructor
  · rintro ⟨m', hlist, hpath', hsource', hdir', hplace, -⟩
    have hread := hlisted m' hlist
    by_cases hn : name.lossy = metaFile
    · refine .inr ⟨hn, ?_⟩
      rcases hkind with hd | ⟨c, rfl⟩
      · -- a directory cannot be read as metadata
        rw [metaIn, ← hn, hpayload] at hread
        cases u with
        | leaf a => cases hd
        | dir size es => cases hread
      · rw [metaIn_of_child (hn ▸ hpayload)] at hread
        refine ⟨c, m', rfl, hread, ?_, ?_, ?_, ?_⟩
        · rw [hpath', hpath, ← hm]; rfl
        · rw [hsource', ← hm]; rfl
        · rw [hdir', hdirectory, ← hm]; rfl
        · rw [hplace, hename, relativePath_payload, hn]
    · refine .inl ⟨hn, ?_⟩
      by_contra hlong
      rw [metaIn_of_child (hmetaFile hn), hcontent, hcodec.cut _ (Nat.lt_of_not_le hlong)] at hread
      cases hread
  · rintro (⟨hn, hfits⟩ | ⟨hn, c, m', rfl, hread, hpath', hsource', hdir', hplace⟩)
    · refine hsurvives m ?_ rfl rfl rfl ?_
      · rw [metaIn_of_child (hmetaFile hn), hcontent, take_of_length_le hfits, hcodec.readBack]
      · rw [← hm]
        exact relativePath_payload name
    · refine hsurvives m' ?_ hpath' hsource' hdir' (hn ▸ hplace)
      rw [metaIn_of_child (hn ▸ hpayload), hread]

end trash

/-- A format that writes one byte and reads it as the given metadata. -/
def codecOf (m : TrashMeta) : MetaCodec where
  toVec _ := [1]
  fromStr text := if text = [1] then some m else none

theorem codecOf_faithful (m : TrashMeta) : (codecOf m).Faithful m := by
  refine ⟨rfl, fun n hn => ?_⟩
  obtain rfl : n = 0 := Nat.lt_one_iff.mp hn
  rfl

/-- An empty trash on a server with a single file of two bytes. -/
def trashOf (name : FileName) : Trash Unit where
  entries _ := none
  server := serverOf [(name, fileOf 2 two_le_maxOffset)] 2

theorem trashPlain_trashOf {name : FileName} (hn : name ≠ trashDirectory) :
    TrashPlain (trashOf name).server.fs := by
  have hnone : (trashOf name).server.fs.lookup [trashDirectory] = none := by
    simp [trashOf, serverOf, FileTree.lookup, child, entries, entry, hn]
  refine ⟨rfl, fun v hv => ?_, fun n w hw => ?_⟩
  · rw [hnone] at hv
    cases hv
  · rw [show [trashDirectory, n] = [trashDirectory] ++ [n] from rfl, lookup_concat, hnone] at hw
    cases hw

/-- The metadata of the single file of `trashOf`. -/
def singleMeta (name : Name) : TrashMeta := ⟨name, name, false, 2, 0, .api⟩

theorem trash_survives_iff_plain :
    ∃ e, (trash plainHost singleName (codecOf (singleMeta [0x61])) .none (trashOf nameA) () 0
        [.normal nameA] .api).1 = .ok e ∧
      Survives plainHost singleName (codecOf (singleMeta [0x61])) (fun _ => none)
        (trash plainHost singleName (codecOf (singleMeta [0x61])) .none (trashOf nameA) () 0
          [.normal nameA] .api).2.server.fs e .api (fileOf 2 (by decide)) := by
  have hplain : TrashPlain (trashOf nameA).server.fs := trashPlain_trashOf (by decide)
  refine ⟨_, rfl, (trash_survives_iff (f := .none) (p := [.normal nameA]) _
    hplain rfl rfl rfl (.inr ⟨_, rfl⟩) (codecOf_faithful (singleMeta [0x61])) rfl).mpr (.inl ⟨?_, ?_⟩)⟩
  · decide
  · decide

/-- A file named `meta.json` takes the place of its own metadata: the trashed file is on disk, and a
rebuilt index does not list it. -/
theorem trashed_meta_lost :
    let codec := codecOf (singleMeta metaFile.1)
    let r := trash plainHost singleName codec .none (trashOf metaFile) () 0 [.normal metaFile] .api
    ∃ e, r.1 = .ok e ∧ codec.Faithful (singleMeta metaFile.1) ∧
      r.2.entries () = some (singleMeta metaFile.1) ∧
      plainHost.lstat r.2.server.fs [trashDirectory, singleName.toName (), metaFile] = some (fileOf 2 (by decide)) ∧
      (load plainHost singleName codec (fun _ => none) r.2.server.fs).1 () = none ∧
      ¬ Survives plainHost singleName codec (fun _ => none) r.2.server.fs e .api (fileOf 2 (by decide)) := by
  refine ⟨_, rfl, codecOf_faithful _, rfl, rfl, rfl, ?_⟩
  rintro ⟨m, hm, -⟩
  cases hm

end Wings.Filesystem
