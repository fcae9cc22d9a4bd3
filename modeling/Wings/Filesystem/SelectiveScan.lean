import Wings.Filesystem.Rescan

/-!
# Wings.Filesystem.SelectiveScan — a selective scan against a full one

`run_inner` of `server/filesystem/disk_checker.rs`, for a tree that changed only at and below the
directories it picks, starting from what a full scan found before.

* **`selective_eq_full_iff`**
-/

namespace Wings.Filesystem

open Lib List FileTree PathLedger Option Prod

/-! ## Against a full scan -/

/-- The physical size of the files directly in a directory, as it was counted by the walk that
recorded the directory: the one of the scanned directory it is in, or else the full one before. -/
def recordedFiles (dirs : List Subpath) (old new : Disk) (q : Subpath) : ℤ :=
  match dirs.find? (· <+: q) with
  | some d => filesPhysical (entriesAt new d) (q.drop d.length)
  | none => filesPhysical old.entries q

/-- When scanning some directories again is as good as scanning everything. -/
structure ScanAgrees (dirs : List Subpath) (old new : Disk) : Prop where
  /-- No scanned directory has a length of its own. -/
  dirLen : ∀ d ∈ dirs, ∀ v : Disk, new.lookup d = some v → v.metadata.len = 0
  /-- No scanned directory is in the place of what had a length and was no directory. -/
  replaced : ∀ d ∈ dirs, ∀ m, old.lookup d = some (.leaf m) → m.len = 0
  /-- The walks count the same blocks in every directory, up to those of the scanned directories
  themselves. -/
  blocks : ∀ (q : Subpath) (v : Disk), new.lookup q = some v → v.isDir = true →
    recordedFiles dirs old new q =
      filesPhysical new.entries q + if q ∈ dirs then (v.metadata.sizePhysical : ℤ) else 0

/-- A tree that changed at and below some directories only. -/
structure ChangedAt (dirs : List Subpath) (old new : Disk) : Prop where
  oldDir : old.isDir = true
  newDir : new.isDir = true
  oldDistinct : FileTree.DistinctEntries old.entries
  newDistinct : FileTree.DistinctEntries new.entries
  apart : dirs.Pairwise Apart
  isDir : ∀ d ∈ dirs, ∃ v, new.lookup d = some v ∧ v.isDir = true
  nonroot : [] ∉ dirs
  same : FileTree.SameOutside dirs old new

/-- The length of a file, from what its node holds. -/
def datumLen : Metadata ⊕ Metadata → ℤ × ℤ
  | .inl m => (m.len, 0)
  | .inr _ => 0

theorem fileLen_eq (u : Disk) : fileLen u = datumLen u.datum := by
  cases u <;> rfl

theorem datumLen_nonneg (x : Metadata ⊕ Metadata) : 0 ≤ datumLen x := by
  cases x with
  | inl m => exact ⟨by simp [datumLen], le_rfl⟩
  | inr m => exact le_rfl

theorem filesLen_snd (u : Disk) : (filesLen u).2 = 0 := by
  rw [filesLen]
  induction u.entries with
  | nil => rfl
  | cons e es ih =>
    rw [map_cons, sum_cons, snd_add, ih, fileLen]
    split_ifs <;> rfl

theorem diskBytes_of_datum_eq {u w : Disk} (h : u.datum = w.datum) : diskBytes u = diskBytes w := by
  cases u <;> cases w <;> simp_all [datum, diskBytes, Disk.metadata]

theorem mem_entries_iff {disk v : Disk} {q : Subpath}
    (hd : DistinctEntries disk.entries) (hl : disk.lookup q = some v) {n : FileName}
    {u : Disk} : (n, u) ∈ v.entries ↔ disk.lookup (q ++ [n]) = some u := by
  rw [lookup_concat, hl]
  exact ⟨fun hmem => ((hd.lookup hl).of_mem hmem).1, mem_of_entry⟩

section compare

variable {dirs : List Subpath} {old new : Disk} {q : Subpath} {v : Disk}

section

variable (h : ChangedAt dirs old new)
include h

/-- Outside the scanned directories only files that were replaced by one make a difference. -/
theorem ChangedAt.filesLen_eq_iff {w : Disk} (hv : new.lookup q = some v)
    (hw : old.lookup q = some w) (hface : face dirs q w = face dirs q v) :
    filesLen w = filesLen v ↔ ∀ n m, q ++ [n] ∈ dirs → old.lookup (q ++ [n]) = some (.leaf m) → m.len = 0 := by
  have hsum : ∀ u : Disk, filesLen u =
      ((covered dirs q u).map fun e => datumLen e.2.datum).sum +
        ((face dirs q u).2.map fun e => datumLen e.2).sum := fun u => by
    simp only [filesLen, fileLen_eq]
    exact sum_entries_eq dirs q datumLen u
  have hnew : ((covered dirs q v).map fun e => datumLen e.2.datum).sum = 0 := by
    refine sum_eq_zero fun x hx => ?_
    obtain ⟨e, he, rfl⟩ := mem_map.mp hx
    obtain ⟨hmem, hpick⟩ := mem_covered.mp he
    obtain ⟨u, hu, hdir⟩ := h.isDir _ hpick
    rw [(mem_entries_iff h.newDistinct hv).mp hmem] at hu
    cases hu
    rw [← fileLen_eq, fileLen, if_pos hdir]
  rw [hsum w, hsum v, hnew, hface, zero_add, add_eq_right]
  constructor
  · intro hzero n m hpick hl
    have hmem : (n, leaf m) ∈ covered dirs q w :=
      mem_covered.mpr ⟨(mem_entries_iff h.oldDistinct hw).mpr hl, hpick⟩
    have hle := single_le_sum (fun x hx => ?_) _
      (mem_map_of_mem (f := fun e : FileName × Disk => datumLen e.2.datum) hmem)
    · rw [hzero] at hle
      have hlen : (m.len : ℤ) ≤ 0 := hle.1
      omega
    · obtain ⟨e, -, rfl⟩ := mem_map.mp hx
      exact datumLen_nonneg _
  · intro hall
    refine sum_eq_zero fun x hx => ?_
    obtain ⟨⟨n, u⟩, he, rfl⟩ := mem_map.mp hx
    obtain ⟨hmem, hpick⟩ := mem_covered.mp he
    have hl := (mem_entries_iff h.oldDistinct hw).mp hmem
    cases u with
    | leaf m =>
      show ((m.len : ℤ), 0) = 0
      rw [hall n m hpick hl]
      rfl
    | dir m es => rfl

/-- **One directory.**  What is recorded for it after a selective scan is what a full scan charges. -/
theorem ChangedAt.own_eq_iff (hv : new.lookup q = some v) (hdir : v.isDir = true) :
    own (rescanned new dirs (scanLedger old.entries)) q =
        own (scanLedger new.entries) q ↔
      (q ∈ dirs → v.metadata.len = 0) ∧
      (∀ n m, q ++ [n] ∈ dirs → old.lookup (q ++ [n]) = some (.leaf m) → m.len = 0) ∧
      recordedFiles dirs old new q =
        filesPhysical new.entries q + if q ∈ dirs then (v.metadata.sizePhysical : ℤ) else 0 := by
  rw [own_rescanned h.apart, own_scanLedger h.newDistinct hv hdir, recordedFiles]
  cases hf : dirs.find? (· <+: q) with
  | some d =>
    have hd := mem_of_find?_eq_some hf
    have hdq : d <+: q := by simpa using find?_some hf
    obtain ⟨s, rfl⟩ := hdq
    obtain ⟨w, hw, -⟩ := h.isDir d hd
    have hws : w.lookup s = some v := by
      rw [FileTree.lookup_append, hw] at hv
      exact hv
    have hne : d ≠ [] := fun hnil => h.nonroot (hnil ▸ hd)
    have hbelow : ∀ n, d ++ s ++ [n] ∉ dirs := by
      intro n hn
      have heq := eq_of_above h.apart hd hn ⟨s ++ [n], by simp⟩
      have hlen := congrArg length heq
      simp at hlen
    have hroot : ¬ d ++ s = [] := by simp [hne]
    dsimp only
    rw [drop_left, entriesAt_eq hw, own_scanLedger (h.newDistinct.lookup hw) hws hdir, if_neg hroot]
    by_cases hs : s = []
    · -- The scanned directory itself: its own size is not charged again.
      subst hs
      rw [append_nil] at hbelow ⊢
      rw [if_pos rfl, if_pos hd, Prod.ext_iff]
      simp only [hd, hbelow, diskBytes, fst_add, snd_add, fst_zero, snd_zero,
        forall_const, IsEmpty.forall_iff, implies_true, true_and]
      constructor
      · omega
      · omega
    · have hout : d ++ s ∉ dirs := by
        intro hmem
        have heq := eq_of_above h.apart hd hmem (prefix_append d s)
        exact hs (self_eq_append_right.mp heq)
      rw [if_neg hs, if_neg hout, add_right_inj, mk_right_inj, add_zero]
      simp only [hout, hbelow, IsEmpty.forall_iff, implies_true, true_and]
  | none =>
    have hout := find_above_eq_none_iff.mp hf
    obtain ⟨w, hw, hface⟩ := h.same.lookup hout hv
    have hq : q ∉ dirs := fun hq => hout q hq prefix_rfl
    have hdatum : w.datum = v.datum := congrArg fst hface
    rw [own_scanLedger h.oldDistinct hw ((isDir_of_datum_eq hdatum).trans hdir),
      diskBytes_of_datum_eq hdatum, ← h.filesLen_eq_iff hv hw hface, if_neg hq,
      add_assoc, add_assoc, add_right_inj, Prod.ext_iff, Prod.ext_iff]
    have hw2 := filesLen_snd w
    have hv2 := filesLen_snd v
    simp only [fst_add, snd_add, add_zero, hw2, hv2, hq, IsEmpty.forall_iff, true_and, and_true, zero_add]

theorem ChangedAt.mem_rescanned_iff (q : Subpath) :
    q ∈ (rescanned new dirs (scanLedger old.entries)).map fst ↔ ∃ v, new.lookup q = some v ∧ v.isDir = true := by
  rw [Filesystem.mem_rescanned_iff h.apart]
  cases hf : dirs.find? (· <+: q) with
  | some d =>
    have hdq : d <+: q := by simpa using find?_some hf
    obtain ⟨s, rfl⟩ := hdq
    obtain ⟨w, hw, hwdir⟩ := h.isDir d (mem_of_find?_eq_some hf)
    dsimp only
    rw [drop_left, entriesAt_eq hw, mem_scanLedger_iff hwdir (h.newDistinct.lookup hw), FileTree.lookup_append, hw]
    rfl
  | none =>
    have hout := find_above_eq_none_iff.mp hf
    rw [mem_scanLedger_iff h.oldDir h.oldDistinct]
    constructor
    · rintro ⟨w, hw, hdir⟩
      obtain ⟨v, hv, hface⟩ := h.same.symm.lookup hout hw
      exact ⟨v, hv, (isDir_of_datum_eq (congrArg fst hface)).trans hdir⟩
    · rintro ⟨v, hv, hdir⟩
      obtain ⟨w, hw, hface⟩ := h.same.lookup hout hv
      exact ⟨w, hw, (isDir_of_datum_eq (congrArg fst hface)).trans hdir⟩

end

theorem total_eq_zero_of_not_dir {log : Charges}
    (hlog : ∀ p, p ∈ log.map fst ↔ ∃ v, new.lookup p = some v ∧ v.isDir = true)
    (hq : ¬ ∃ v, new.lookup q = some v ∧ v.isDir = true) : total log q = 0 := by
  refine total_eq_zero fun e he hqe => hq ?_
  obtain ⟨v, hv, hdir⟩ := (hlog e.1).mp (mem_map.mpr ⟨e, he, rfl⟩)
  obtain ⟨s, hs⟩ := hqe
  rw [← hs, FileTree.lookup_append, bind_eq_some_iff] at hv
  obtain ⟨w, hw, hv⟩ := hv
  have hlong : new.lookup (q ++ s) = some v := by rw [FileTree.lookup_append, hw]; exact hv
  exact ⟨w, hw, isDir_above hlong (fun _ => hdir) (prefix_append q s) hw⟩

/-- **All directories.**  The totals of every directory agree exactly when the scans agree. -/
theorem ChangedAt.totals_iff (h : ChangedAt dirs old new) :
    (∀ q v, new.lookup q = some v → v.isDir = true → total (rescanned new dirs (scanLedger old.entries)) q =
        total (scanLedger new.entries) q) ↔ ScanAgrees dirs old new := by
  have hnew := mem_scanLedger_iff h.newDir h.newDistinct
  -- Away from directories both ledgers have nothing, so they agree there.
  have hdirs : ∀ {f g : Subpath → ℤ × ℤ}, (∀ q, (¬ ∃ v, new.lookup q = some v ∧ v.isDir = true) → f q = g q) →
      ((∀ q v, new.lookup q = some v → v.isDir = true → f q = g q) ↔ ∀ q, f q = g q) := by
    refine fun haway => ⟨fun hall q => ?_, fun hall q v _ _ => hall q⟩
    by_cases hq : ∃ v, new.lookup q = some v ∧ v.isDir = true
    · obtain ⟨v, hv, hdir⟩ := hq
      exact hall q v hv hdir
    · exact haway q hq
  rw [hdirs fun q hq => by rw [total_eq_zero_of_not_dir h.mem_rescanned_iff hq, total_eq_zero_of_not_dir hnew hq],
    total_eq_iff_own_eq, ← hdirs fun q hq => by
      rw [own_eq_zero fun hmem => hq ((h.mem_rescanned_iff q).mp hmem), own_eq_zero fun hmem => hq ((hnew q).mp hmem)]]
  constructor
  · intro hall
    refine ⟨fun d hd v hv => ?_, fun d hd m hm => ?_, fun q v hv hdir => ?_⟩
    · obtain ⟨w, hw, hdir⟩ := h.isDir d hd
      obtain rfl : w = v := some.inj (hw.symm.trans hv)
      exact ((h.own_eq_iff hw hdir).mp (hall d w hw hdir)).1 hd
    · rcases eq_nil_or_concat d with rfl | ⟨q, n, rfl⟩
      · exact absurd hd h.nonroot
      · rw [concat_eq_append] at hd hm
        obtain ⟨w, hw, -⟩ := h.isDir _ hd
        rw [lookup_concat, bind_eq_some_iff] at hw
        obtain ⟨v, hv, hchild⟩ := hw
        have hdir := isDir_of_child hchild
        exact ((h.own_eq_iff hv hdir).mp (hall q v hv hdir)).2.1 n m hd hm
    · exact ((h.own_eq_iff hv hdir).mp (hall q v hv hdir)).2.2
  · intro hagree q v hv hdir
    refine (h.own_eq_iff hv hdir).mpr ⟨fun hq => hagree.dirLen q hq v hv, fun n m hn hm => ?_,
      hagree.blocks q v hv hdir⟩
    exact hagree.replaced _ hn m hm

end compare

/-- The scan succeeded, and every directory and both totals are as in the other check. -/
structure SameUsage (disk : Disk) (r : Bool × Checked) (fresh : Checked) : Prop where
  ok : r.1 = true
  size : ∀ (q : Subpath) (v : Disk), disk.lookup q = some v → v.isDir = true →
    r.2.usage.getSize (q.map .normal) = fresh.usage.getSize (q.map .normal)
  logical : r.2.cachedLogical = fresh.cachedLogical
  physical : r.2.cachedPhysical = fresh.cachedPhysical

section result

variable {h : Host} {R : LinkRules}
  {disk old new : Disk} {names : List Name} {c c' : Checked} {dirs : List Subpath}

theorem readDir_root (h : Host) (R : LinkRules) (disk : Disk) :
    readDir h R disk [] = if disk.isDir then some disk.entries else none := by
  have hroot : h.relativePath [] = [] := h.relativePath_normal []
  rw [readDir, hroot, Resolution.stat, R.canon_nil]
  cases disk <;> rfl

/-- What a full scan leaves behind does not depend on what was there before. -/
theorem fullScan_eq (hok : fullScan h R disk c = (true, c')) (c₀ : Checked) :
    fullScan h R disk c₀ = (true, c') := by
  rw [fullScan, readDir_root] at hok ⊢
  cases hdir : disk.isDir with
  | true =>
    rw [hdir] at hok
    exact hok
  | false =>
    rw [hdir] at hok
    cases hok

theorem isDir_of_fullScan (hok : fullScan h R disk c = (true, c')) : disk.isDir = true := by
  rw [fullScan, readDir_root] at hok
  by_contra hdir
  rw [if_neg hdir] at hok
  cases hok

theorem fullScan_inv (hd : DistinctKeys names) (hnames : namesBelow disk.entries ⊆ names)
    (hfits : Fits disk.entries) (hok : fullScan h R disk c = (true, c')) :
    CheckedInv names c' (scanLedger disk.entries) := by
  have hdir := isDir_of_fullScan hok
  rw [fullScan, readDir_root, if_pos hdir] at hok
  cases hok
  obtain ⟨hrec, hsize, hphys⟩ := scan_records hd hnames hfits []
  exact ⟨hrec, Prod.ext hsize hphys, scanLedger_nonneg _⟩

theorem amount_injective : Function.Injective UsedSpace.amount := by
  intro u w huw
  obtain ⟨hl, hp⟩ := Prod.ext_iff.mp huw
  simp only [UsedSpace.amount, Nat.cast_inj] at hl hp
  cases u
  simp_all

/-- Two checks report the same size of a directory exactly when its totals agree. -/
theorem CheckedInv.getSize_eq_iff {log log' : Charges} {q : Subpath}
    (hc : CheckedInv names c log) (hc' : CheckedInv names c' log') (hd : DistinctKeys names)
    (hused : q.map (·.1) ⊆ names) (hq : q ∈ log.map fst) (hq' : q ∈ log'.map fst) :
    c.usage.getSize (q.map .normal) = c'.usage.getSize (q.map .normal) ↔ total log q = total log' q := by
  have hsize : ∀ {c : Checked} {log : Charges}, CheckedInv names c log →
      q ∈ log.map fst → ∃ u, c.usage.getSize (q.map .normal) = some u ∧ u.amount = total log q := by
    intro c log hc hq
    obtain ⟨e, he, heq⟩ := mem_map.mp hq
    have hfaithful := hc.records.faithful hd
    have hfound := hfaithful.found (q.map .normal) (e.1.map (·.1), e.2)
      (mem_map.mpr ⟨e, he, rfl⟩) (by rw [location_normal, heq])
    have htotal := hfaithful.size (q.map .normal) (by rw [location_normal]; exact hused)
    obtain ⟨u, hu⟩ := isSome_iff_exists.mp hfound
    rw [location_normal, total_mapKeys _ fun e _ => prefix_of_names, hu] at htotal
    exact ⟨u, hu, htotal⟩
  obtain ⟨u, hu, hamount⟩ := hsize hc hq
  obtain ⟨u', hu', hamount'⟩ := hsize hc' hq'
  rw [hu, hu', ← hamount, ← hamount', amount_injective.eq_iff, some.injEq]

theorem head_eq_root_iff (hP : dirs.Pairwise Apart) :
    (dirs.map (·.map Component.normal)).head? = some [] ↔ [] ∈ dirs := by
  cases dirs with
  | nil => simp
  | cons d dirs =>
    rw [map_cons, head?_cons, some.injEq, map_eq_nil_iff]
    refine ⟨fun hd => hd ▸ mem_cons_self, fun hmem => ?_⟩
    rcases mem_cons.mp hmem with heq | hmem
    · exact heq.symm
    · exact absurd nil_prefix ((pairwise_cons.mp hP).1 [] hmem).2

section

variable (hkeys : DistinctKeys (namesBelow old.entries ++ namesBelow new.entries))
  (hchanged : ChangedAt dirs old new)
include hkeys hchanged

theorem ChangedAt.rescanDirs_inv (hfits : Fits old.entries) (hfits' : Fits new.entries)
    (hc : CheckedInv (namesBelow old.entries ++ namesBelow new.entries) c (scanLedger old.entries)) :
    (rescanDirs h R new c (dirs.map (·.map .normal))).1 = true ∧
      CheckedInv (namesBelow old.entries ++ namesBelow new.entries)
        (rescanDirs h R new c (dirs.map (·.map .normal))).2
        (rescanned new dirs (scanLedger old.entries)) := by
  have hright : namesBelow new.entries ⊆ namesBelow old.entries ++ namesBelow new.entries :=
    subset_append_right _ _
  refine rescanDirs_records hkeys (fun d hd => ?_) hc ?_
  · obtain ⟨v, hv, hdir⟩ := hchanged.isDir d hd
    rw [entriesAt_eq hv]
    exact ⟨fun hnil => hchanged.nonroot (hnil ▸ hd), Subset.trans (names_subset hv hchanged.newDistinct) hright,
      Subset.trans (namesBelow_subset hv) hright, fits_below hfits' hv, v, hv, hdir⟩
  · have hbefore : total (scanLedger old.entries) [] ≤ maxDelta := by
      rw [total_scanLedger]
      exact (total_charges_le _ _).trans hfits
    refine (add_le_add hbefore (sum_scans_le hfits' hchanged.apart hchanged.isDir)).trans ?_
    simp only [maxDelta, maxAmount, mk_add_mk, mk_le_mk, i64Max, u64Max]
    omega

/-- Two checks report the same everywhere exactly when the totals of all directories agree. -/
theorem ChangedAt.sameUsage_iff {r : Bool × Checked} {fresh : Checked} (hok : r.1 = true)
    (hc : CheckedInv (namesBelow old.entries ++ namesBelow new.entries) r.2
      (rescanned new dirs (scanLedger old.entries)))
    (hc' : CheckedInv (namesBelow old.entries ++ namesBelow new.entries) fresh (scanLedger new.entries)) :
    SameUsage new r fresh ↔ ∀ q v, new.lookup q = some v → v.isDir = true →
      total (rescanned new dirs (scanLedger old.entries)) q = total (scanLedger new.entries) q := by
  have hsize : ∀ q v, new.lookup q = some v → v.isDir = true →
      (r.2.usage.getSize (q.map .normal) = fresh.usage.getSize (q.map .normal) ↔
        total (rescanned new dirs (scanLedger old.entries)) q =
          total (scanLedger new.entries) q) := fun q v hv hdir =>
    hc.getSize_eq_iff hc' hkeys
      (Subset.trans (names_subset hv hchanged.newDistinct) (subset_append_right _ _))
      ((hchanged.mem_rescanned_iff q).mpr ⟨v, hv, hdir⟩)
      ((mem_scanLedger_iff hchanged.newDir hchanged.newDistinct q).mpr ⟨v, hv, hdir⟩)
  constructor
  · intro hsame q v hv hdir
    exact (hsize q v hv hdir).mp (hsame.size q v hv hdir)
  · intro hall
    have htotals := hall [] new rfl hchanged.newDir
    rw [← hc.cached, ← hc'.cached, mk.injEq, Nat.cast_inj, Nat.cast_inj] at htotals
    exact ⟨hok, fun q v hv hdir => (hsize q v hv hdir).mpr (hall q v hv hdir), htotals.1, htotals.2⟩

end

/-- **A selective scan against a full one.**  Let a tree change only at and below the directories that a selective
scan picks, none of them the server's own, after a full scan.  The selective scan then leaves what a full scan
would exactly when no picked directory has a length of its own, none has replaced a file that had one, and each
directory's blocks are counted alike.  Distinct keys and sizes that fit are only needed there. -/
theorem selective_eq_full_iff (h : Host) (R : LinkRules)
    {modifiedPaths : List Path} {before fresh : Checked} (hmodified : modifiedPaths ≠ [])
    (hbefore : runInner h R old none c = (true, before)) (hfresh : runInner h R new none c' = (true, fresh))
    (hold : DistinctEntries old.entries) (hnew : DistinctEntries new.entries)
    (hbooks : [] ∉ scannedDirs h R new modifiedPaths → DistinctKeys (namesBelow old.entries ++ namesBelow new.entries) ∧
      Fits old.entries ∧ Fits new.entries) (hplain : ∀ path ∈ modifiedPaths, PlainPath h new path)
    (hsame : SameOutside (scannedDirs h R new modifiedPaths) old new) :
    SameUsage new (runInner h R new (some modifiedPaths) before) fresh ↔
      [] ∈ scannedDirs h R new modifiedPaths ∨ ScanAgrees (scannedDirs h R new modifiedPaths) old new := by
  have hnewDir := isDir_of_fullScan hfresh
  obtain ⟨hdirs, hapart, hisDir⟩ := dirsToScan_spec hnewDir hplain
  have hhead := head_eq_root_iff hapart
  rw [← hdirs] at hhead
  simp only [runInner, if_neg hmodified]
  by_cases hroot : [] ∈ scannedDirs h R new modifiedPaths
  · rw [if_pos (hhead.mpr hroot), fullScan_eq hfresh before]
    exact ⟨fun _ => .inl hroot, fun _ => ⟨rfl, fun _ _ _ _ => rfl, rfl, rfl⟩⟩
  · obtain ⟨hkeys, hfits, hfits'⟩ := hbooks hroot
    have hbeforeInv := fullScan_inv hkeys (subset_append_left _ _) hfits hbefore
    have hfreshInv := fullScan_inv hkeys (subset_append_right _ _) hfits' hfresh
    have hchanged : ChangedAt (scannedDirs h R new modifiedPaths) old new :=
      ⟨isDir_of_fullScan hbefore, hnewDir, hold, hnew, hapart, hisDir, hroot, hsame⟩
    rw [if_neg fun hh => hroot (hhead.mp hh), or_iff_right hroot, hdirs]
    obtain ⟨hok, hafter⟩ := hchanged.rescanDirs_inv hkeys hfits hfits' hbeforeInv
    exact (hchanged.sameUsage_iff hkeys hok hafter hfreshInv).trans hchanged.totals_iff

end result

/-- A directory `a` of a given size, with one file `b`. -/
def diskOf (dirLen dirBlocks len blocks : ℕ) : Disk :=
  .dir ⟨4096, 8, 2, 3, false⟩
    [(nameA, .dir ⟨dirLen, dirBlocks, 3, 2, false⟩ [(nameB, .leaf ⟨len, blocks, 4, 1, false⟩)])]

/-- The paths of that disk, with no link to follow. -/
def plainResolution : LinkRules :=
  .literal FileName Metadata Metadata Metadata.isSymlink

def unchecked : Checked := ⟨.empty, 0, 0⟩

def modifiedB : List Path := [[.rootDir, .normal nameA, .normal nameB]]

/-- Nothing has changed, and the directory of the modified path is scanned again: its own 4096 bytes
are no longer counted, neither for it nor in the totals. -/
theorem rescan_loses_directory_size :
    let disk := diskOf 4096 8 3 8
    let before := runInner plainHost plainResolution disk none unchecked
    let r := runInner plainHost plainResolution disk (some modifiedB) before.2
    before.1 = true ∧ r.1 = true ∧ scannedDirs plainHost plainResolution disk modifiedB = [[nameA]] ∧
      SameOutside (scannedDirs plainHost plainResolution disk modifiedB) disk disk ∧
      before.2.usage.getSize [.normal nameA] = some ⟨4099, 8192⟩ ∧
      r.2.usage.getSize [.normal nameA] = some ⟨3, 4096⟩ ∧
      before.2.cachedLogical = 4099 ∧ r.2.cachedLogical = 3 ∧
      ¬ SameUsage disk r before.2 := by
  refine ⟨rfl, rfl, rfl, fun _ _ => rfl, by decide +kernel, by decide +kernel, by decide +kernel,
    by decide +kernel, fun hsame => ?_⟩
  exact absurd hsame.logical (by decide +kernel)

theorem distinctEntries_diskOf (dirLen dirBlocks len blocks : ℕ) :
    DistinctEntries (diskOf dirLen dirBlocks len blocks).entries :=
  .cons nofun (.cons nofun .nil .nil) .nil

theorem lookup_diskOf {dirLen dirBlocks len blocks : ℕ} {q : Subpath} {v : Disk}
    (hv : (diskOf dirLen dirBlocks len blocks).lookup q = some v) :
    q = [] ∨ q = [nameA] ∨ q = [nameA, nameB] := by
  by_cases hq : q = []
  · exact .inl hq
  · rw [← entriesLookup_eq _ hq, ← mem_listing_iff (distinctEntries_diskOf dirLen dirBlocks len blocks)] at hv
    have hpath := mem_map_of_mem (f := fst) hv
    have hlist : (listing [] (diskOf dirLen dirBlocks len blocks).entries).map fst =
        [[nameA], [nameA, nameB]] := rfl
    rw [hlist] at hpath
    simpa [hq] using hpath

theorem selective_eq_full_iff_empty_size :
    SameUsage (diskOf 0 0 7 16)
      (runInner plainHost plainResolution (diskOf 0 0 7 16) (some modifiedB)
        (runInner plainHost plainResolution (diskOf 0 0 3 8) none unchecked).2)
      (runInner plainHost plainResolution (diskOf 0 0 7 16) none unchecked).2 := by
  refine (@selective_eq_full_iff (diskOf 0 0 3 8) (diskOf 0 0 7 16) unchecked unchecked plainHost
    plainResolution modifiedB _ _ (by decide) rfl rfl (distinctEntries_diskOf 0 0 3 8)
    (distinctEntries_diskOf 0 0 7 16) (fun _ => ⟨?_, ⟨by decide, by decide⟩, by decide, by decide⟩) ?_ ?_).mpr (.inr ?_)
  · unfold DistinctKeys
    decide
  · intro path hpath relative hrel
    rw [mem_singleton.mp hpath] at hrel
    refine ⟨[nameA, nameB], (cons.inj hrel).2.symm, ?_⟩
    exact Resolution.noLink_of_isDir rfl rfl
  · intro p hp
    cases p with
    | nil => rfl
    | cons n p =>
      have hnone : ∀ dirLen dirBlocks len blocks,
          (diskOf dirLen dirBlocks len blocks).lookup (n :: p) = none := by
        intro dirLen dirBlocks len blocks
        refine eq_none_iff_forall_ne_some.mpr fun v hv => ?_
        have hn : n ≠ nameA := fun hn => hp [nameA] mem_cons_self (by simp [hn])
        rcases lookup_diskOf hv with heq | heq | heq
        · cases heq
        · exact hn (cons.inj heq).1
        · exact hn (cons.inj heq).1
      rw [hnone, hnone]
  · refine ⟨fun d hd v hv => ?_, fun d hd m hm => ?_, fun q v hv hdir => ?_⟩
    · rw [mem_singleton.mp hd] at hv
      cases hv
      rfl
    · rw [mem_singleton.mp hd] at hm
      cases hm
    · rcases lookup_diskOf hv with rfl | rfl | rfl
      · cases hv
        decide +kernel
      · cases hv
        decide +kernel
      · cases hv
        cases hdir

end Wings.Filesystem
