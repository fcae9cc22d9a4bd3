import Wings.Filesystem.DiskChecker

/-!
# Wings.Filesystem.Rescan — scanning some directories again

The selective branch of `run_inner` in `server/filesystem/disk_checker.rs`: which directories it
picks, and what the usage tree records once they were scanned again.

* **`dirsToScan_spec`**, **`rescanDirs_records`**
-/

namespace Wings.Filesystem

open Lib List FileTree PathLedger

/-! ## The directories scanned -/

section picks

variable {h : Host} {R : LinkRules}
  {disk : Disk} {names : Subpath}

/-- A modified path inside the server's directory is made of names, with no symbolic link on the way
to the last of them. -/
def PlainPath (h : Host) (disk : Disk) (modifiedPath : Path) : Prop :=
  ∀ relative, modifiedPath = h.basePath ++ relative → ∃ names : Subpath,
    relative = names.map .normal ∧ FileTree.Resolution.NoLink Metadata.isSymlink disk names.dropLast

def NamesDir (disk : Disk) (dir : Path) : Prop :=
  ∃ (d : Subpath) (v : Disk), dir = d.map .normal ∧ disk.lookup d = some v ∧ v.isDir = true

theorem symlinkMetadata_plain (hn : Resolution.NoLink Metadata.isSymlink disk names.dropLast) :
    symlinkMetadata h R disk (names.map .normal) = disk.lookup names := by
  rw [symlinkMetadata, Host.relativePath_normal]
  rcases eq_nil_or_concat names with rfl | ⟨q, n, rfl⟩
  · rfl
  · rw [concat_eq_append, dropLast_concat] at *
    exact R.lstat_of_noLink hn n

theorem isDirectory_plain_iff (hn : Resolution.NoLink Metadata.isSymlink disk names.dropLast) :
    isDirectory h R disk (names.map .normal) = true ↔ ∃ v, disk.lookup names = some v ∧ v.isDir = true := by
  rw [isDirectory, symlinkMetadata_plain hn]
  cases disk.lookup names <;> simp

theorem climb_spec (hdir : disk.isDir = true) {fuel : ℕ} (hfuel : names.length ≤ fuel) (hne : names ≠ [])
    (hn : Resolution.NoLink Metadata.isSymlink disk names.dropLast) :
    ∀ dir ∈ climb h R disk (names.map .normal) fuel, NamesDir disk dir := by
  induction fuel generalizing names with
  | zero => exact absurd (length_eq_zero_iff.mp (Nat.le_zero.mp hfuel)) hne
  | succ fuel ih =>
    have hup := hn.of_prefix (List.dropLast_prefix names.dropLast)
    rw [climb, Path.parent_normal hne]
    dsimp only
    split_ifs with hparent
    · intro dir hmem
      obtain ⟨v, hv, hvdir⟩ := (isDirectory_plain_iff hup).mp hparent
      have heq : dir = names.dropLast.map .normal := by simpa using hmem
      exact ⟨_, v, heq, hv, hvdir⟩
    · -- The root is a directory, so the loop stops there at the latest.
      have hne' : names.dropLast ≠ [] := by
        intro hnil
        rw [hnil] at hparent hup
        exact hparent ((isDirectory_plain_iff hup).mpr ⟨disk, rfl, hdir⟩)
      exact ih (by rw [length_dropLast]; omega) hne' hup

theorem dirsOf_spec (hdir : disk.isDir = true) {modifiedPath : Path} (hplain : PlainPath h disk modifiedPath) :
    ∀ dir ∈ dirsOf h R disk modifiedPath, NamesDir disk dir := by
  intro dir hmem
  rw [dirsOf] at hmem
  split_ifs at hmem with hbase
  · obtain ⟨relative, rfl⟩ := hbase
    obtain ⟨names, rfl, hn⟩ := hplain relative rfl
    rw [drop_left] at hmem
    simp only [symlinkMetadata_plain hn, length_map] at hmem
    cases hl : disk.lookup names with
    | some v =>
      simp only [hl] at hmem
      split_ifs at hmem with hv
      · exact ⟨names, v, mem_singleton.mp hmem, hl, hv⟩
      · -- The directory above something that exists is a directory.
        rcases eq_nil_or_concat names with rfl | ⟨q, n, rfl⟩
        · cases hl
          exact absurd hdir hv
        · rw [concat_eq_append] at *
          rw [lookup_concat, Option.bind_eq_some_iff] at hl
          obtain ⟨w, hw, hchild⟩ := hl
          rw [Path.parent_normal (by simp)] at hmem
          exact ⟨q, w, by simpa using hmem, hw, isDir_of_child hchild⟩
    | none =>
      simp only [hl] at hmem
      have hne : names ≠ [] := by
        rintro rfl
        cases hl
      exact climb_spec hdir le_rfl hne hn dir hmem
  · exact nomatch hmem

/-- The directories a selective scan walks, from the server's directory on. -/
def scannedDirs (h : Host) (R : LinkRules)
    (disk : Disk) (modifiedPaths : List Path) : List Subpath :=
  (dirsToScan h R disk modifiedPaths).map h.relativePath

/-- **The directories scanned** are directories of the tree, and none is below another. -/
theorem dirsToScan_spec (hdir : disk.isDir = true) {modifiedPaths : List Path}
    (hplain : ∀ path ∈ modifiedPaths, PlainPath h disk path) :
    dirsToScan h R disk modifiedPaths =
        (scannedDirs h R disk modifiedPaths).map (·.map .normal) ∧
      (scannedDirs h R disk modifiedPaths).Pairwise Apart ∧
      ∀ d ∈ scannedDirs h R disk modifiedPaths, ∃ v, disk.lookup d = some v ∧ v.isDir = true := by
  obtain ⟨hapart, hmem, -⟩ := deduplicatePaths_spec (modifiedPaths.flatMap (dirsOf h R disk))
  have hnames : ∀ dir ∈ dirsToScan h R disk modifiedPaths, NamesDir disk dir := by
    intro dir hd
    obtain ⟨path, hpath, hin⟩ := mem_flatMap.mp (hmem dir hd)
    exact dirsOf_spec hdir (hplain path hpath) dir hin
  have hback : ∀ dir ∈ dirsToScan h R disk modifiedPaths,
      (h.relativePath dir).map .normal = dir := by
    intro dir hd
    obtain ⟨d, v, rfl, -, -⟩ := hnames dir hd
    rw [h.relativePath_normal]
  refine ⟨?_, ?_, fun d hd => ?_⟩
  · rw [scannedDirs, map_map]
    exact ((map_congr_left hback).trans (map_id' _)).symm
  · rw [scannedDirs, pairwise_map]
    refine hapart.imp_of_mem fun {a b} ha hb hab => ?_
    rw [← hback a ha, ← hback b hb] at hab
    exact ⟨fun hp => hab.1 (hp.map _), fun hp => hab.2 (hp.map _)⟩
  · obtain ⟨dir, hmem, rfl⟩ := mem_map.mp hd
    obtain ⟨d, v, rfl, hv, hvd⟩ := hnames dir hmem
    rw [h.relativePath_normal]
    exact ⟨v, hv, hvd⟩

end picks

/-! ## What is recorded after them -/

def entriesAt (disk : Disk) (d : Subpath) : List (FileName × Disk) :=
  ((disk.lookup d).map FileTree.entries).getD []

/-- The ledger after one directory was scanned again. -/
def rescannedDir (disk : Disk) (log : Charges) (d : Subpath) :
    Charges :=
  log.without d ++ (scanLedger (entriesAt disk d)).graft d

/-- The ledger after some directories were scanned again. -/
def rescanned (disk : Disk) (dirs : List Subpath) (log : Charges) :
    Charges :=
  dirs.foldl (rescannedDir disk) log

/-- The usage tree and the cached totals are those of the ledger. -/
structure CheckedInv (names : List Name) (c : Checked) (log : Charges) :
    Prop where
  records : Records names c.usage (log.mapKeys (·.1))
  cached : ((c.cachedLogical, c.cachedPhysical) : ℤ × ℤ) = log.total []
  nonneg : ∀ e ∈ log, 0 ≤ e.2

section rescan

variable {h : Host} {R : LinkRules}
  {disk : Disk} {names : List Name} {c : Checked} {log : Charges}
  {d : Subpath}

theorem scanLedger_nonneg (entries : List (FileName × Disk)) : ∀ e ∈ scanLedger entries, 0 ≤ e.2 := by
  intro e he
  rcases mem_cons.mp he with rfl | he
  · exact le_rfl
  · exact charges_nonneg _ _ e he

theorem total_rescannedDir_le (hn : ∀ e ∈ log, 0 ≤ e.2) (disk : Disk) (d : Subpath) :
    total (rescannedDir disk log d) [] ≤ total log [] + total (scanLedger (entriesAt disk d)) [] := by
  rw [rescannedDir, total_append, total_graft]
  exact add_le_add_left (total_without_le hn d) _

theorem prefix_of_names {p q : Subpath} : p.map (·.1) <+: q.map (·.1) → p <+: q :=
  (prefix_map_iff_of_injective Subtype.val_injective).mp

theorem mapKeys_rescannedDir (disk : Disk) (log : Charges) (d : Subpath) :
    (rescannedDir disk log d).mapKeys (·.1) =
      ((log.mapKeys (·.1)).without (d.map (·.1))).without (d.map (·.1)) ++
        ((scanLedger (entriesAt disk d)).mapKeys (·.1)).graft (d.map (·.1)) := by
  have hwithout : (log.without d).mapKeys (·.1) = (log.mapKeys (·.1)).without (d.map (·.1)) :=
    mapKeys_without _ fun e _ => prefix_of_names
  have htwice : ∀ l : Usages, (l.without (d.map (·.1))).without (d.map (·.1)) =
      l.without (d.map (·.1)) := fun l => by
    rw [without, without]
    simp
  rw [htwice, ← hwithout, ← mapKeys_graft, rescannedDir]
  simp [mapKeys]

theorem pathComponentKeys_normal (d : Subpath) :
    pathComponentKeys (d.map .normal) = (d.map (·.1)).map componentKey := by
  rw [pathComponentKeys, map_map, map_map]
  rfl

/-- **Step lemma.**  Scanning a directory again replaces what is charged at it and below. -/
theorem CheckedInv.replaceDir (hc : CheckedInv names c log) (hd : DistinctKeys names) (hne : d ≠ [])
    (hused : d.map (·.1) ⊆ names) {scanned : DiskUsage Name}
    (hrec : Records names scanned ((scanLedger (entriesAt disk d)).mapKeys (·.1)))
    (hmax : log.total [] + total (scanLedger (entriesAt disk d)) [] ≤ maxAmount) :
    CheckedInv names (replaceDir c (d.map .normal) scanned) (rescannedDir disk log d) := by
  have hne' : d.map (·.1) ≠ [] := fun hnil => hne (map_eq_nil_iff.mp hnil)
  have hremove : c.usage.removePath (d.map .normal) =
      c.usage.recursiveRemove ((d.map (·.1)).map componentKey) := by
    rw [removePath_eq, nodeKeys, location_normal]
  obtain ⟨usage, husage, hwithout⟩ : ∃ usage : DiskUsage Name,
      Filesystem.replaceDir c (d.map .normal) scanned =
        ⟨(usage.addDirectory (pathComponentKeys (d.map .normal)) scanned).2,
          (usage.addDirectory (pathComponentKeys (d.map .normal)) scanned).2.space.logical,
          (usage.addDirectory (pathComponentKeys (d.map .normal)) scanned).2.space.physical⟩ ∧
      Records names usage ((log.mapKeys (·.1)).without (d.map (·.1))) := by
    rcases hc.records.remove hd hused hne' with ⟨hnone, hrem⟩ | ⟨removed, t', hsome, -, hrem⟩
    · exact ⟨c.usage, by simp only [Filesystem.replaceDir, hremove, hnone], hrem⟩
    · exact ⟨t', by simp only [Filesystem.replaceDir, hremove, hsome], hrem⟩
  have hroom : total ((log.mapKeys (·.1)).without (d.map (·.1))) [] +
      total ((scanLedger (entriesAt disk d)).mapKeys (·.1)) [] ≤ maxAmount := by
    rw [← mapKeys_without (fun n : FileName => n.1) fun e _ => prefix_of_names,
      total_mapKeys_root, total_mapKeys_root]
    exact (add_le_add_left (total_without_le hc.nonneg d) _).trans hmax
  have hadd := hwithout.addDirectory hd hused hne' ⟨scanned, _, hrec.represents⟩
    (fun n hn => by
      obtain ⟨e, he, hmem⟩ := mem_flatMap.mp hn
      exact hrec.used e he hmem) hroom
  rw [← mapKeys_rescannedDir, ← pathComponentKeys_normal] at hadd
  rw [husage]
  refine ⟨hadd, ?_, fun e he => ?_⟩
  · have hspace := hadd.represents.space []
    rw [total_mapKeys_root, total_mapKeys_root] at hspace
    exact hspace
  · rcases mem_append.mp he with he | he
    · exact hc.nonneg e (mem_filter.mp he).1
    · obtain ⟨e', he', rfl⟩ := mem_map.mp he
      exact scanLedger_nonneg _ e' he'

theorem readDir_of_dir {v : Disk} (hl : disk.lookup d = some v) (hv : v.isDir = true) :
    readDir h R disk (d.map .normal) = some (entriesAt disk d) := by
  rw [readDir, Host.relativePath_normal, R.stat_of_noLink (Resolution.noLink_of_isDir hl hv), entriesAt, hl]
  cases v with
  | leaf m => cases hv
  | dir m es => rfl

/-- **Run lemma.**  Scanning directories again, one after the other. -/
theorem rescanDirs_records (hd : DistinctKeys names) {dirs : List Subpath}
    (hdirs : ∀ d ∈ dirs, d ≠ [] ∧ d.map (·.1) ⊆ names ∧ namesBelow (entriesAt disk d) ⊆ names ∧
      Fits (entriesAt disk d) ∧ ∃ v, disk.lookup d = some v ∧ v.isDir = true)
    (hc : CheckedInv names c log) (hmax : log.total [] +
      (dirs.map fun d => total (scanLedger (entriesAt disk d)) []).sum ≤ maxAmount) :
    (rescanDirs h R disk c (dirs.map (·.map .normal))).1 = true ∧
      CheckedInv names (rescanDirs h R disk c (dirs.map (·.map .normal))).2 (rescanned disk dirs log) := by
  induction dirs generalizing c log with
  | nil => exact ⟨rfl, hc⟩
  | cons d dirs ih =>
    obtain ⟨hne, hused, hbelow, hfits, v, hl, hv⟩ := hdirs d mem_cons_self
    rw [map_cons, sum_cons, ← add_assoc] at hmax
    have hrest : 0 ≤ (dirs.map fun d => total (scanLedger (entriesAt disk d)) []).sum := by
      refine sum_nonneg fun x hx => ?_
      obtain ⟨d', -, rfl⟩ := mem_map.mp hx
      rw [total_scanLedger]
      exact total_charges_nonneg _ _
    have hrec := (scan_records hd hbelow hfits d).1
    have hstep := hc.replaceDir hd hne hused hrec ((le_add_of_nonneg_right hrest).trans hmax)
    rw [map_cons, rescanDirs, readDir_of_dir hl hv, Host.relativePath_normal]
    exact ih (fun d' hd' => hdirs d' (mem_cons_of_mem d hd')) hstep
      ((add_le_add_left (total_rescannedDir_le hc.nonneg disk d) _).trans hmax)

end rescan

/-! ## Directory by directory -/

section owned

variable {disk : Disk} {dirs : List Subpath} {log : Charges}
  {q : Subpath}

/-- What is charged after the directories were scanned again: what was found in them, and what was
charged before everywhere else. -/
theorem own_rescanned (hP : dirs.Pairwise Apart) :
    own (rescanned disk dirs log) q =
      match dirs.find? (· <+: q) with
      | some d => own (scanLedger (entriesAt disk d)) (q.drop d.length)
      | none => own log q := by
  induction hP generalizing log with
  | nil => rfl
  | @cons d dirs hd _ ih =>
    rw [rescanned, foldl_cons, ← rescanned, ih, find_above_cons hd]
    cases dirs.find? (· <+: q) with
    | some d' => rfl
    | none =>
      rw [rescannedDir, own_append, own_without, own_graft]
      split_ifs with hdq
      · rw [zero_add]
      · rw [add_zero]

theorem mem_rescanned_iff (hP : dirs.Pairwise Apart) :
    q ∈ (rescanned disk dirs log).map Prod.fst ↔
      match dirs.find? (· <+: q) with
      | some d => q.drop d.length ∈ (scanLedger (entriesAt disk d)).map Prod.fst
      | none => q ∈ log.map Prod.fst := by
  induction hP generalizing log with
  | nil => rfl
  | @cons d dirs hd _ ih =>
    rw [rescanned, foldl_cons, ← rescanned, ih, find_above_cons hd]
    cases dirs.find? (· <+: q) with
    | some d' => rfl
    | none =>
      have hgraft : q ∈ ((scanLedger (entriesAt disk d)).graft d).map Prod.fst ↔
          d <+: q ∧ q.drop d.length ∈ (scanLedger (entriesAt disk d)).map Prod.fst := by
        simp only [graft, map_map, mem_map, Function.comp_apply]
        constructor
        · rintro ⟨e, he, rfl⟩
          exact ⟨prefix_append _ _, e, he, by rw [drop_left]⟩
        · rintro ⟨⟨s, rfl⟩, e, he, hs⟩
          exact ⟨e, he, by rw [hs, drop_left]⟩
      have hwithout : q ∈ (log.without d).map Prod.fst ↔ ¬ d <+: q ∧ q ∈ log.map Prod.fst := by
        simp only [without, mem_map, mem_filter, decide_eq_true_eq]
        constructor
        · rintro ⟨e, ⟨he, hde⟩, rfl⟩
          exact ⟨hde, e, he, rfl⟩
        · rintro ⟨hdq, e, he, rfl⟩
          exact ⟨e, ⟨he, hdq⟩, rfl⟩
      rw [rescannedDir, map_append, mem_append, hgraft, hwithout]
      split_ifs with hdq
      · simp [hdq]
      · simp [hdq]

end owned

/-! ## Sizes and names below a directory -/

section below

variable {disk v : Disk} {d : Subpath}

section

variable (hl : disk.lookup d = some v)
include hl

theorem entriesAt_eq : entriesAt disk d = v.entries := by
  rw [entriesAt, hl]
  rfl

theorem listing_at_sublist :
    ((listing [] v.entries).map fun e => (d ++ e.1, e.2)).Sublist (listing [] disk.entries) := by
  have hsub := listing_sublist (p := []) hl
  have hmap := listing_append d [] v.entries
  rw [append_nil] at hmap
  rwa [← hmap]

theorem namesBelow_subset : namesBelow v.entries ⊆ namesBelow disk.entries := by
  intro n hn
  obtain ⟨e, he, hmem⟩ := mem_flatMap.mp hn
  have hin := (listing_at_sublist hl).subset (mem_map.mpr ⟨e, he, rfl⟩)
  refine mem_flatMap.mpr ⟨_, hin, ?_⟩
  simp only [map_append]
  exact mem_append_right _ hmem

theorem names_subset (hd : DistinctEntries disk.entries) :
    d.map (·.1) ⊆ namesBelow disk.entries := by
  by_cases hne : d = []
  · rw [hne]
    exact nil_subset _
  · intro n hn
    refine mem_flatMap.mpr ⟨(d, v), ?_, hn⟩
    rw [← nil_append d, mem_listing_iff hd, entriesLookup_eq disk hne]
    exact hl

end

theorem diskBytes_nonneg (u : Disk) : 0 ≤ diskBytes u := ⟨by simp [diskBytes], by simp [diskBytes]⟩

theorem sum_below_le (hl : disk.lookup d = some v) :
    ((listing [] v.entries).map fun e => diskBytes e.2).sum ≤
      total (FileTree.charged diskBytes (listing [] disk.entries)) d := by
  have hsub := (listing_at_sublist hl).map fun e : WalkEntry => if d <+: e.1 then diskBytes e.2 else 0
  have hsame : ((listing [] v.entries).map fun e => (d ++ e.1, e.2)).map
      (fun e : WalkEntry => if d <+: e.1 then diskBytes e.2 else 0) =
      (listing [] v.entries).map fun e => diskBytes e.2 := by
    simp [Function.comp_def]
  rw [hsame] at hsub
  rw [total, FileTree.charged, map_map]
  refine hsub.sum_le_sum fun x hx => ?_
  obtain ⟨e, -, rfl⟩ := mem_map.mp hx
  split_ifs
  · exact diskBytes_nonneg e.2
  · exact le_rfl

theorem fits_iff (entries : List (FileName × Disk)) :
    Fits entries ↔ total (FileTree.charged diskBytes (listing [] entries)) [] ≤ maxDelta := by
  rw [Fits, total, FileTree.charged]
  simp [Function.comp_def]

theorem charged_nonneg (entries : List WalkEntry) : ∀ e ∈ FileTree.charged diskBytes entries, 0 ≤ e.2 := by
  intro e he
  obtain ⟨e', -, rfl⟩ := mem_map.mp he
  exact diskBytes_nonneg e'.2

theorem sum_scans_le (hfits : Fits disk.entries) {dirs : List Subpath}
    (hP : dirs.Pairwise Apart) (hdirs : ∀ d ∈ dirs, ∃ v, disk.lookup d = some v ∧ v.isDir = true) :
    (dirs.map fun d => total (scanLedger (entriesAt disk d)) []).sum ≤ maxDelta := by
  refine le_trans (sum_le_sum fun d hd => ?_) (le_trans (sum_total_le
    (charged_nonneg (listing [] disk.entries)) hP) ((fits_iff _).mp hfits))
  obtain ⟨v, hl, -⟩ := hdirs d hd
  rw [total_scanLedger, entriesAt_eq hl]
  exact (total_charges_le _ _).trans (sum_below_le hl)

theorem fits_below (hfits : Fits disk.entries) (hl : disk.lookup d = some v) : Fits v.entries := by
  have hle := sum_total_le (charged_nonneg (listing [] disk.entries)) (pairwise_singleton Apart d)
  rw [map_singleton, sum_singleton] at hle
  exact (sum_below_le hl).trans (hle.trans ((fits_iff _).mp hfits))

end below

end Wings.Filesystem
