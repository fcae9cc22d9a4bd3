import Wings.DeduplicatePaths
import Wings.Filesystem.Tree
import Wings.Filesystem.Usage
import Wings.Filesystem.WalkDir

/-!
# Wings.Filesystem.DiskChecker — counting what is on the disk

`server/filesystem/disk_checker.rs`, `run_inner`: a full scan walks the whole tree and builds a new
usage tree; a selective scan walks only the directories the modified paths lead to and hangs what it
finds into the old one.  Directories are charged to themselves, anything else to the directory it is
in, and the blocks of a file with several links only the first time a walk meets it.

* **`scan_records`**
-/

namespace Wings.Filesystem

open Lib List PathLedger

/-! ## The scan -/

/-- The usage tree of a scan, with its `PendingUpdate`. -/
structure Batched where
  usage : DiskUsage Name
  pending : Option (Path × SpaceDelta)

namespace Batched

def flush (b : Batched) : Batched :=
  match b.pending with
  | none => b
  | some (path, delta) => ⟨b.usage.updateSize path delta, none⟩

/-- `PendingUpdate::push`: charges to one path in a row are added up first. -/
def push (b : Batched) (path : Path) (delta : SpaceDelta) : Batched :=
  match b.pending with
  | none => { b with pending := some (path, delta) }
  | some (pendingPath, pendingDelta) =>
    if pendingPath = path then
      { b with
        pending := some (pendingPath,
          ⟨wrapI64 (pendingDelta.logical + delta.logical), wrapI64 (pendingDelta.physical + delta.physical)⟩) }
    else
      { b.flush with pending := some (path, delta) }

def pushParent (b : Batched) (path : Path) (delta : SpaceDelta) : Batched :=
  match path.parent with
  | none => b
  | some parent => b.push parent delta

end Batched

structure Scan where
  batched : Batched
  seenInodes : List ℕ
  totalSize : ℕ
  totalSizePhysical : ℕ

namespace Scan

def start : Scan := ⟨⟨.empty, none⟩, [], 0, 0⟩

/-- One entry of the walk of `dir`.  The full scan is the case of the empty path; only there the
totals are kept. -/
def step (dir : Path) (s : Scan) (entry : WalkEntry) : Scan :=
  let path : Path := entry.1.map .normal
  let metadata := entry.2.metadata
  let delta : SpaceDelta := ⟨wrapI64 metadata.sizeLogical, wrapI64 metadata.sizePhysical⟩
  if dir <+: path then
    let relative := path.drop dir.length
    if entry.2.isDir = false ∧ 1 < metadata.nlink ∧ metadata.ino ∈ s.seenInodes then
      { s with
        batched := s.batched.pushParent relative ⟨delta.logical, 0⟩
        totalSize := wrapU64 (s.totalSize + metadata.sizeLogical) }
    else
      { batched :=
          if entry.2.isDir then s.batched.push relative delta
          else s.batched.pushParent relative delta
        seenInodes :=
          if entry.2.isDir = false ∧ 1 < metadata.nlink then metadata.ino :: s.seenInodes
          else s.seenInodes
        totalSize := wrapU64 (s.totalSize + metadata.sizeLogical)
        totalSizePhysical := wrapU64 (s.totalSizePhysical + metadata.sizePhysical) }
  else s

end Scan

/-- The loop over a walk of `dir`, whose entries are read from the directory at `place`. -/
def scan (dir : Path) (place : Subpath) (entries : List (FileName × Disk)) : Scan :=
  (walk place entries).foldl (Scan.step dir) Scan.start

def Scan.usage (s : Scan) : DiskUsage Name := s.batched.flush.usage

/-! ## The disk check -/

/-- The usage tree and the cached totals of a server. -/
structure Checked where
  usage : DiskUsage Name
  cachedLogical : ℕ
  cachedPhysical : ℕ

section check

variable (h : Host) (R : LinkRules)
  (disk : Disk)

def symlinkMetadata (path : Path) : Option Disk := R.lstat disk (h.relativePath path)

def readDir (path : Path) : Option (List (FileName × Disk)) :=
  match R.stat disk (h.relativePath path) with
  | some (.dir _ entries) => some entries
  | _ => none

/-- Whether `symlink_metadata` finds a directory. -/
def isDirectory (path : Path) : Bool := ((symlinkMetadata h R disk path).map (·.isDir)).getD false

/-- What a path that cannot be read adds to the directories: the nearest directory above it, once in
the loop and once after it. -/
def climb (path : Path) : ℕ → List Path
  | 0 => [path]
  | fuel + 1 =>
    match path.parent with
    | none => [path]
    | some parent => if isDirectory h R disk parent then [parent, parent] else climb parent fuel

/-- What one modified path adds to the directories to scan. -/
def dirsOf (modifiedPath : Path) : List Path :=
  if h.basePath <+: modifiedPath then
    let relative : Path := modifiedPath.drop h.basePath.length
    match symlinkMetadata h R disk relative with
    | some metadata => if metadata.isDir then [relative] else relative.parent.toList
    | none => climb h R disk relative relative.length
  else []

def dirsToScan (modifiedPaths : List Path) : List Path :=
  deduplicatePaths (modifiedPaths.flatMap (dirsOf h R disk))

def fullScan (c : Checked) : Bool × Checked :=
  match readDir h R disk [] with
  | none => (false, c)
  | some entries =>
    let s := scan [] [] entries
    (true, ⟨s.usage, s.totalSize, s.totalSizePhysical⟩)

/-- What a selective scan does with the tree of one directory. -/
def replaceDir (c : Checked) (dir : Path) (scanned : DiskUsage Name) : Checked :=
  let usage :=
    match c.usage.removePath dir with
    | none => c.usage
    | some (_, usage) => usage
  let usage := (usage.addDirectory (pathComponentKeys dir) scanned).2
  ⟨usage, usage.space.logical, usage.space.physical⟩

/-- The loop over the directories; the first that cannot be read ends it. -/
def rescanDirs (c : Checked) : List Path → Bool × Checked
  | [] => (true, c)
  | dir :: dirs =>
    match readDir h R disk dir with
    | none => (false, c)
    | some entries =>
      rescanDirs (replaceDir c dir (scan dir (h.relativePath dir) entries).usage) dirs

/-- `run_inner`, with whether it returned `Ok`. -/
def runInner (pathsToScan : Option (List Path)) (c : Checked) : Bool × Checked :=
  match pathsToScan with
  | none => fullScan h R disk c
  | some modifiedPaths =>
    if modifiedPaths = [] then (true, c)
    else
      let dirs := dirsToScan h R disk modifiedPaths
      if dirs.head? = some [] then fullScan h R disk c else rescanDirs h R disk c dirs

end check

/-! ## What a walk charges -/

/-- Whether a walk that has seen some inodes counts the blocks of an entry. -/
def countsBlocks (seen : List ℕ) (u : Disk) : Bool :=
  u.isDir || u.metadata.nlink ≤ 1 || u.metadata.ino ∉ seen

def seenAfter (seen : List ℕ) (u : Disk) : List ℕ :=
  if u.isDir = false ∧ 1 < u.metadata.nlink ∧ u.metadata.ino ∉ seen then u.metadata.ino :: seen
  else seen

/-- The physical size the walk counts for an entry. -/
def countedPhysical (seen : List ℕ) (u : Disk) : ℕ :=
  if countsBlocks seen u then u.metadata.sizePhysical else 0

/-- What an entry is charged to: a directory to itself, anything else to the directory it is in. -/
def chargedPath (e : WalkEntry) : Subpath := if e.2.isDir then e.1 else e.1.dropLast

def charge (seen : List ℕ) (e : WalkEntry) : Subpath × (ℤ × ℤ) :=
  (chargedPath e, (e.2.metadata.len, countedPhysical seen e.2))

abbrev Charges := PathLedger FileName (ℤ × ℤ)

/-- The charges of a walk that has seen some inodes. -/
def charges (seen : List ℕ) : List WalkEntry → Charges
  | [] => []
  | e :: entries => charge seen e :: charges (seenAfter seen e.2) entries

variable (seen : List ℕ) (entries : List WalkEntry)

open FileTree

theorem mem_charges_iff (p : Subpath) :
    p ∈ (charges seen entries).map Prod.fst ↔ ∃ e ∈ entries, chargedPath e = p := by
  induction entries generalizing seen with
  | nil => simp [charges]
  | cons e entries ih =>
    rw [charges, map_cons, mem_cons, ih, charge]
    simp [eq_comm]

theorem charges_nonneg : ∀ e ∈ charges seen entries, 0 ≤ e.2 := by
  induction entries generalizing seen with
  | nil => exact fun e he => nomatch he
  | cons e entries ih =>
    intro c hc
    rcases mem_cons.mp hc with rfl | hc
    · exact ⟨by simp [charge], by simp [charge]⟩
    · exact ih _ c hc

theorem total_charges_nonneg : 0 ≤ total (charges seen entries) [] := by
  refine sum_nonneg fun x hx => ?_
  obtain ⟨e, he, rfl⟩ := mem_map.mp hx
  exact charges_nonneg seen entries e he

def maxDelta : ℤ × ℤ := (i64Max, i64Max)

theorem maxDelta_le : maxDelta ≤ maxAmount := by
  simp only [maxDelta, maxAmount, Prod.mk_le_mk, i64Max, u64Max]
  omega

/-- A pending update, as the ledger of its one charge. -/
inductive PendingCharge (names : List Name) :
    Option (Path × SpaceDelta) → Charges → Prop
  | none : PendingCharge names none []
  | some {p : Subpath} {delta : SpaceDelta} (used : p.map (·.1) ⊆ names)
      (nonneg : 0 ≤ delta.amount) :
      PendingCharge names (some (p.map .normal, delta)) [(p, delta.amount)]

/-- The usage tree and the pending update together record the ledger. -/
def Batched.Records (names : List Name) (b : Batched) (log : Charges) : Prop :=
  ∃ booked pend, Filesystem.Records names b.usage (booked.mapKeys (·.1)) ∧
    PendingCharge names b.pending pend ∧ PathLedger.SameCharges (booked ++ pend) log

section records

variable {names : List Name} {b : Batched} {log : Charges} {p : Subpath}
  {delta : SpaceDelta}

section

variable (hd : DistinctKeys names)
include hd

theorem Records.updateSize {t : DiskUsage Name} (h : Records names t (log.mapKeys (·.1)))
    (hp : p.map (·.1) ⊆ names) (hnonneg : 0 ≤ delta.amount) (hmax : log.total [] + delta.amount ≤ maxDelta) :
    Records names (t.updateSize (p.map .normal) delta) (mapKeys (·.1) (log ++ [(p, delta.amount)])) := by
  have hown := add_nonneg (h.own_nonneg hd hp) hnonneg
  have hroot : PathLedger.total (log.mapKeys (·.1)) [] + delta.amount ≤ maxAmount := by
    rw [total_mapKeys_root]
    exact hmax.trans maxDelta_le
  have hupdate := h.update hd hp delta hown hroot
  rw [updateSize_eq, nodeKeys, location_normal]
  simpa [mapKeys] using hupdate

theorem Batched.Records.flush (h : b.Records names log) (hmax : log.total [] ≤ maxDelta) :
    Filesystem.Records names b.flush.usage (log.mapKeys (·.1)) ∧ b.flush.pending = none := by
  obtain ⟨booked, pend, hrec, hpend, hsame⟩ := h
  have htotal := hsame.total []
  rw [total_append] at htotal
  cases hb : b.pending with
  | none =>
    rw [hb] at hpend
    cases hpend
    rw [append_nil] at hsame
    rw [Batched.flush, hb]
    exact ⟨hrec.of_same (hsame.mapKeys _), hb⟩
  | some pair =>
    rw [hb] at hpend
    cases hpend with
    | @some p delta hused hnonneg =>
      rw [total_singleton] at htotal
      have hbooked := hrec.updateSize hd hused hnonneg (htotal.trans_le hmax)
      rw [Batched.flush, hb]
      exact ⟨hbooked.of_same (hsame.mapKeys _), rfl⟩

/-- **Step lemma.**  A push adds its charge, as long as the charges add up to something that fits. -/
theorem Batched.Records.push (h : b.Records names log) (delta : SpaceDelta)
    (hp : p.map (·.1) ⊆ names) (hnonneg : 0 ≤ delta.amount) (hmax : log.total [] + delta.amount ≤ maxDelta) :
    (b.push (p.map .normal) delta).Records names (log ++ [(p, delta.amount)]) := by
  have hfits : log.total [] ≤ maxDelta := le_trans (le_add_of_nonneg_right hnonneg) hmax
  have hflush := h.flush hd hfits
  obtain ⟨booked, pend, hrec, hpend, hsame⟩ := h
  cases hb : b.pending with
  | none =>
    rw [hb] at hpend
    cases hpend
    rw [append_nil] at hsame
    rw [Batched.push, hb]
    exact ⟨booked, _, hrec, .some hp hnonneg, hsame.append (.refl _)⟩
  | some pair =>
    rw [hb] at hpend
    cases hpend with
    | @some q pending hused hpending =>
      simp only [Batched.push, hb]
      split_ifs with heq
      · obtain rfl : q = p := map_injective_iff.mpr (fun _ _ => Component.normal.inj) heq
        have htotal := hsame.total []
        have hroot := hrec.total_nonneg
        rw [total_append, total_singleton] at htotal
        rw [total_mapKeys_root] at hroot
        -- Both halves of the sum stay below what the whole ledger adds up to.
        have hsum : pending.amount + delta.amount ≤ maxDelta := by
          refine le_trans (add_le_add_left ?_ _) hmax
          rw [← htotal]
          exact le_add_of_nonneg_left hroot
        have hl : wrapI64 (pending.logical + delta.logical) = pending.logical + delta.logical :=
          wrapI64_of_mem ((by decide : i64Min ≤ 0).trans (add_nonneg hpending.1 hnonneg.1)) hsum.1
        have hphys : wrapI64 (pending.physical + delta.physical) =
            pending.physical + delta.physical :=
          wrapI64_of_mem ((by decide : i64Min ≤ 0).trans (add_nonneg hpending.2 hnonneg.2)) hsum.2
        rw [hl, hphys]
        refine ⟨booked, _, hrec, .some hp (add_nonneg hpending hnonneg), ?_⟩
        have hmerge := SameCharges.merge q pending.amount delta.amount
        have hall := ((SameCharges.refl booked).append hmerge).trans
          (append_assoc booked _ _ ▸ hsame.append (.refl [(q, delta.amount)]))
        exact hall
      · exact ⟨log, _, hflush.1, .some hp hnonneg, .refl _⟩

end

/-! ## A whole scan -/

/-- What is scanned of a directory does not depend on where the directory is. -/

theorem scan_eq (d : Subpath) (entries : List (FileName × Disk)) :
    scan (d.map .normal) d entries = (listing [] entries).foldl (Scan.step []) Scan.start := by
  have hlist := listing_append d [] entries
  rw [append_nil] at hlist
  have hstep : (fun s e => Scan.step (d.map .normal) s (d ++ e.1, e.2)) =
      Scan.step [] := by
    funext s e
    simp only [Scan.step, map_append, prefix_append, nil_prefix, if_true, drop_left, length_nil, drop_zero]
  rw [scan, walk_eq_listing, hlist, foldl_map, hstep]

theorem step_eq (s : Scan) {e : WalkEntry} (he : e.1 ≠ []) :
    Scan.step [] s e =
      { batched := s.batched.push ((charge s.seenInodes e).1.map .normal)
          ⟨wrapI64 e.2.metadata.len, wrapI64 (countedPhysical s.seenInodes e.2)⟩
        seenInodes := seenAfter s.seenInodes e.2
        totalSize := wrapU64 (s.totalSize + e.2.metadata.len)
        totalSizePhysical :=
          if countsBlocks s.seenInodes e.2 then
            wrapU64 (s.totalSizePhysical + countedPhysical s.seenInodes e.2)
          else s.totalSizePhysical } := by
  obtain ⟨path, u⟩ := e
  have hparent : ∀ delta, s.batched.pushParent (path.map .normal) delta =
      s.batched.push (path.dropLast.map .normal) delta := fun delta => by
    rw [Batched.pushParent, Path.parent_normal he]
  simp only [Scan.step, nil_prefix, if_true, length_nil, drop_zero, hparent, charge,
    chargedPath, seenAfter, countedPhysical, countsBlocks, Metadata.sizeLogical]
  by_cases hdir : u.isDir = true
  · simp [hdir]
  · by_cases hlink : 1 < u.metadata.nlink
    · by_cases hseen : u.metadata.ino ∈ s.seenInodes
      · simp [hdir, hlink, hseen, Nat.not_le.mpr hlink, show wrapI64 0 = 0 from rfl]
      · simp [hdir, hlink, hseen]
    · simp [hdir, hlink, Nat.le_of_not_lt hlink]

/-- The scan has recorded the ledger, and its totals add the ledger up. -/
structure ScanInv (names : List Name) (seen : List ℕ) (s : Scan) (log : Charges) : Prop where
  seen : s.seenInodes = seen
  records : s.batched.Records names log
  size : (s.totalSize : ℤ) = (log.total []).1
  sizePhysical : (s.totalSizePhysical : ℤ) = (log.total []).2

theorem scanInv_start : ScanInv names [] Scan.start [([], 0)] where
  seen := rfl
  records := by
    refine ⟨[([], 0)], [], ⟨⟨DiskUsage.sortedAll_empty, fun q => ?_, fun e he => ?_, fun q => ?_⟩,
      fun e he => ?_⟩, .none, .refl _⟩
    · cases q <;> simp [mapKeys, Scan.start] <;> rfl
    · obtain rfl : e = ([], 0) := by simpa [mapKeys] using he
      rfl
    · simp [mapKeys]
    · obtain rfl : e = ([], 0) := by simpa [mapKeys] using he
      exact nil_subset _
  size := rfl
  sizePhysical := rfl

/-- **Step lemma.**  An entry of the walk adds its charge. -/
theorem ScanInv.step {seen : List ℕ} {s : Scan} (h : ScanInv names seen s log)
    (hd : DistinctKeys names) {e : WalkEntry} (hne : e.1 ≠ []) (hused : e.1.map (·.1) ⊆ names)
    (hmax : log.total [] + (charge seen e).2 ≤ maxDelta) :
    ScanInv names (seenAfter seen e.2) (Scan.step [] s e) (log ++ [charge seen e]) := by
  obtain ⟨rfl, hrec, hsize, hphys⟩ := h
  have hnonneg : 0 ≤ (charge s.seenInodes e).2 := ⟨by simp [charge], by simp [charge]⟩
  have htotal : 0 ≤ total log [] := by
    rw [Prod.le_def, ← hsize, ← hphys]
    exact ⟨by simp, by simp⟩
  have hfits := (le_add_of_nonneg_left htotal).trans hmax
  have hlen : wrapI64 e.2.metadata.len = e.2.metadata.len :=
    wrapI64_of_mem ((by decide : i64Min ≤ 0).trans hnonneg.1) hfits.1
  have hblocks : wrapI64 (countedPhysical s.seenInodes e.2) = countedPhysical s.seenInodes e.2 :=
    wrapI64_of_mem ((by decide : i64Min ≤ 0).trans hnonneg.2) hfits.2
  have hpath : (charge s.seenInodes e).1.map (·.1) ⊆ names := by
    simp only [charge, chargedPath]
    split_ifs
    · exact hused
    · exact fun n hn => hused (map_subset _ (dropLast_subset _) hn)
  rw [step_eq s hne, hlen, hblocks]
  have hadd : total (log ++ [charge s.seenInodes e]) [] =
      total log [] + (charge s.seenInodes e).2 := by
    rw [total_append, total_singleton, if_pos nil_prefix]
  rw [← hadd] at hmax
  refine ⟨rfl, hrec.push hd ⟨_, _⟩ hpath hnonneg (hadd ▸ hmax), ?_, ?_⟩
  · have hle : (total (log ++ [charge s.seenInodes e]) []).1 ≤ i64Max := hmax.1
    rw [hadd, Prod.fst_add] at hle ⊢
    simp only [charge, i64Max] at hle ⊢
    rw [wrapU64_of_lt (by omega)]
    omega
  · have hle : (total (log ++ [charge s.seenInodes e]) []).2 ≤ i64Max := hmax.2
    rw [hadd, Prod.snd_add, ← hphys] at hle ⊢
    simp only [charge, i64Max] at hle ⊢
    split_ifs with hcounts
    · rw [wrapU64_of_lt (by omega)]
      omega
    · rw [countedPhysical, if_neg hcounts]
      simp

/-- **Run lemma.**  A scan adds the charges of its walk. -/
theorem ScanInv.foldl {seen : List ℕ} {s : Scan} {entries : List WalkEntry} (h : ScanInv names seen s log)
    (hd : DistinctKeys names) (hentries : ∀ e ∈ entries, e.1 ≠ [] ∧ e.1.map (·.1) ⊆ names)
    (hmax : log.total [] + (charges seen entries).total [] ≤ maxDelta) :
    ∃ seen', ScanInv names seen' (entries.foldl (Scan.step []) s) (log ++ charges seen entries) := by
  induction entries generalizing seen s log with
  | nil => exact ⟨seen, by rwa [charges, append_nil]⟩
  | cons e entries ih =>
    obtain ⟨hne, hused⟩ := hentries e mem_cons_self
    rw [charges, total_cons, ← add_assoc] at hmax
    have hrest : 0 ≤ total (charges (seenAfter seen e.2) entries) [] :=
      total_charges_nonneg _ _
    have hstep := h.step hd hne hused ((le_add_of_nonneg_right hrest).trans hmax)
    have hall := ih hstep (fun e' he' => hentries e' (mem_cons_of_mem e he')) (by
      rwa [total_append])
    rw [charges, append_cons]
    exact hall

/-- Everything a scan of a directory charges, by paths from the directory on.  The directory itself
is charged nothing, but has a node. -/
def scanLedger (entries : List (FileName × Disk)) : Charges :=
  ([], 0) :: charges [] (FileTree.listing [] entries)

def namesBelow (entries : List (FileName × Disk)) : List Name :=
  (FileTree.listing [] entries).flatMap fun e => e.1.map (·.1)

def diskBytes (u : Disk) : ℤ × ℤ := (u.metadata.len, u.metadata.sizePhysical)

/-- The sizes of everything below a directory add up to something that fits in `i64`. -/
def Fits (entries : List (FileName × Disk)) : Prop :=
  ((FileTree.listing [] entries).map fun e => diskBytes e.2).sum ≤ maxDelta

theorem countedPhysical_le (seen : List ℕ) (u : Disk) : countedPhysical seen u ≤ u.metadata.sizePhysical := by
  rw [countedPhysical]
  split_ifs
  · exact le_rfl
  · exact Nat.zero_le _

theorem total_charges_le (seen : List ℕ) (entries : List WalkEntry) :
    total (charges seen entries) [] ≤ (entries.map fun e => diskBytes e.2).sum := by
  induction entries generalizing seen with
  | nil => exact le_rfl
  | cons e entries ih =>
    refine add_le_add ⟨le_rfl, ?_⟩ (ih _)
    exact Int.ofNat_le.mpr (countedPhysical_le seen e.2)

theorem total_scanLedger (entries : List (FileName × Disk)) :
    total (scanLedger entries) [] = total (charges [] (listing [] entries)) [] := by
  rw [scanLedger, total_cons, if_pos nil_prefix, zero_add]

/-- **A scan records what its walk charges**, and its totals add that up. -/
theorem scan_records (hd : DistinctKeys names) {entries : List (FileName × Disk)}
    (hnames : namesBelow entries ⊆ names) (hfits : Fits entries) (d : Subpath) :
    Records names (scan (d.map .normal) d entries).usage ((scanLedger entries).mapKeys (·.1)) ∧
      ((scan (d.map .normal) d entries).totalSize) = ((scanLedger entries).total []).1 ∧
      ((scan (d.map .normal) d entries).totalSizePhysical) = ((scanLedger entries).total []).2 := by
  have hmax : total (scanLedger entries) [] ≤ maxDelta := by
    rw [total_scanLedger]
    exact (total_charges_le [] _).trans hfits
  have hentries : ∀ e ∈ listing [] entries, e.1 ≠ [] ∧ e.1.map (·.1) ⊆ names := by
    intro e he
    obtain ⟨s, n, hs⟩ := exists_append_of_mem_listing he
    refine ⟨by simp [hs], fun m hm => hnames (mem_flatMap.mpr ⟨e, he, hm⟩)⟩
  have hstart : ScanInv names [] Scan.start [([], 0)] := scanInv_start
  obtain ⟨seen, hinv⟩ := hstart.foldl hd hentries (by
    rwa [total_singleton, if_pos nil_prefix, zero_add, ← total_scanLedger])
  rw [← scan_eq d] at hinv
  exact ⟨(hinv.records.flush hd hmax).1, hinv.size, hinv.sizePhysical⟩

end records

/-! ## What a scan charges each directory -/

/-- The size of a directory itself. -/
def dirBytes (u : Disk) : ℤ × ℤ := if u.isDir then diskBytes u else 0

/-- The length of anything else. -/
def fileLen (u : Disk) : ℤ × ℤ := if u.isDir then 0 else (u.metadata.len, 0)

/-- The files a walk counts the blocks of, charged to the directories they are in. -/
def countedFiles (seen : List ℕ) : List WalkEntry → PathLedger FileName ℤ
  | [] => []
  | e :: entries =>
    (e.1.dropLast, if e.2.isDir then 0 else countedPhysical seen e.2) ::
      countedFiles (seenAfter seen e.2) entries

/-- The physical size of the files directly in a directory, as the walk from further up counts it: a
file with several links not again when the walk has met it before. -/
def filesPhysical (entries : List (FileName × Disk)) (p : Subpath) : ℤ :=
  (countedFiles [] (FileTree.listing [] entries)).own p

/-- A charge is for a directory itself, for the length of a file or for its blocks. -/
theorem own_charges (q : Subpath) :
    own (charges seen entries) q =
      own (FileTree.charged dirBytes entries) q +
        own (chargedParent fileLen entries) q +
        (0, own (countedFiles seen entries) q) := by
  induction entries generalizing seen with
  | nil => rfl
  | cons e entries ih =>
    have hone : (if (charge seen e).1 = q then (charge seen e).2 else 0) =
        (if e.1 = q then dirBytes e.2 else 0) + (if e.1.dropLast = q then fileLen e.2 else 0) +
          (0, if e.1.dropLast = q then
            (if e.2.isDir then 0 else (countedPhysical seen e.2 : ℤ)) else 0) := by
      by_cases hdir : e.2.isDir = true
      · by_cases hq : e.1 = q
        · simp [charge, chargedPath, dirBytes, fileLen, hdir, hq, diskBytes, countedPhysical, countsBlocks]
        · simp [charge, chargedPath, fileLen, hdir, hq, Prod.mk_zero_zero]
      · by_cases hq : e.1.dropLast = q
        · simp [charge, chargedPath, dirBytes, fileLen, hdir, hq]
        · simp [charge, chargedPath, dirBytes, hdir, hq, Prod.mk_zero_zero]
    rw [charges, countedFiles, own_cons, own_cons, ih, hone]
    simp only [FileTree.charged, chargedParent, map_cons, own_cons]
    have hpair : ∀ a b : ℤ, ((0, a + b) : ℤ × ℤ) = (0, a) + (0, b) := fun a b => by simp
    rw [hpair]
    abel

def filesLen (u : Disk) : ℤ × ℤ := (u.entries.map fun e => fileLen e.2).sum

/-- **What a scan charges a directory**: its own size, unless it is the one scanned, and the files in
it. -/
theorem own_scanLedger {t v : Disk} (hd : DistinctEntries t.entries) {p : Subpath}
    (hp : t.lookup p = some v) (hv : v.isDir = true) :
    own (scanLedger t.entries) p =
      (if p = [] then 0 else diskBytes v) + filesLen v + (0, filesPhysical t.entries p) := by
  have hdirs := own_charged_listing dirBytes hd [] p
  have hfiles := own_chargedParent_listing fileLen hd [] p
  rw [nil_append] at hdirs hfiles
  rw [scanLedger, own_cons, own_charges, hdirs, hfiles]
  cases p with
  | nil =>
    cases hp
    simp [entriesLookup, filesLen, filesPhysical]
  | cons n p =>
    rw [entriesLookup_eq t (cons_ne_nil n p), hp]
    simp [filesLen, filesPhysical, dirBytes, hv]

theorem mem_scanLedger_iff {t : Disk} (ht : t.isDir = true) (hd : DistinctEntries t.entries) (p : Subpath) :
    p ∈ (scanLedger t.entries).map Prod.fst ↔ ∃ v, t.lookup p = some v ∧ v.isDir = true := by
  rw [scanLedger, map_cons, mem_cons, mem_charges_iff]
  constructor
  · rintro (rfl | ⟨e, he, rfl⟩)
    · exact ⟨t, rfl, ht⟩
    · obtain ⟨s, n, hs⟩ := exists_append_of_mem_listing he
      rw [nil_append] at hs
      have hlookup : t.lookup (s ++ [n]) = some e.2 := by
        rw [← entriesLookup_eq t (by simp), ← mem_listing_iff hd, ← hs]
        exact he
      rw [chargedPath, hs, dropLast_concat]
      split_ifs with hdir
      · exact ⟨e.2, hlookup, hdir⟩
      · rw [lookup_concat, Option.bind_eq_some_iff] at hlookup
        obtain ⟨w, hw, hchild⟩ := hlookup
        exact ⟨w, hw, isDir_of_child hchild⟩
  · rintro ⟨v, hv, hdir⟩
    by_cases hp : p = []
    · exact .inl hp
    · refine .inr ⟨(p, v), ?_, by rw [chargedPath, if_pos hdir]⟩
      rw [← nil_append p, mem_listing_iff hd, entriesLookup_eq t hp]
      exact hv

end Wings.Filesystem
