import Wings.Lib.PendingCheck
import Wings.Server.BackupReceiver

/-!
# Wings.Server.BackupVerified — what a transfer has verified when it is accepted

The field loop has two slots for checksums: one for the archive and one for backups.  A second archive overwrites
the checksum of the first, and so does a second backup; the file of a backup may have any name.

* `archiveEvent`, `backupEvent` — what a field does to the two slots; `step_archiveChecksum`, `step_checksum`.
* **`accepted_verified_iff`**
-/

namespace Wings.Server.BackupTransfer

open Lib List Option

variable (crates : Crates)

/-! ## The two slots -/

def archiveEvent (item : Field × Io) : Option (SlotEvent Name) :=
  if item.1.name = some archiveName then some (.put (crates.checksum item.1.data))
  else if item.1.name = some checksumName then some (.check (toStringLossy item.1.data))
  else none

/-- Whether the backup of a field is stored and listed. -/
def BackupField.isStored (io : Io) : BackupField → Bool
  | .wings _ _ => io.creates && (io.breaksAfter.isNone && io.flushes)
  | .btrfs => io.creates && io.spawns && io.breaksAfter.isNone && io.exits

/-- The backup that is listed after a field. -/
def stored (item : Field × Io) : Option (Uuid × BackupField) :=
  (uuidOf crates item.1).bind fun uuid => ((backupOf crates uuid item.1).filter (·.isStored item.2)).map (uuid, ·)

/-- A field with the checksum of a backup. -/
def isBackupChecksum (field : Field) : Bool :=
  isBackup field && (uuidOf crates field).isNone && field.name.any fun name => checksumName <:+: name

def backupEvent (item : Field × Io) : Option (SlotEvent Name) :=
  if (stored crates item).isSome then some (.put (crates.checksum item.1.data))
  else if isBackupChecksum crates item.1 then some (.check (toStringLossy item.1.data))
  else none

/-- The file that is opened for a field, and what is in it then. -/
def opened (item : Field × Io) : Option (Text × List Byte) :=
  (uuidOf crates item.1).bind fun uuid =>
    match backupOf crates uuid item.1 with
    | some (.wings fileName _) => if item.2.creates then some (fileName, copied item.1 item.2) else none
    | _ => none

/-- The subvolume that is replaced for a field, and what it is made of then. -/
def replaced (item : Field × Io) : Option (Uuid × Option (List Byte)) :=
  (uuidOf crates item.1).bind fun uuid =>
    match backupOf crates uuid item.1 with
    | some .btrfs => some (uuid, if BackupField.btrfs.isStored item.2 then some item.1.data else none)
    | _ => none

structure Effect (item : Field × Io) (r r' : Receiver) : Prop where
  archiveChecksum : slotStep r.archiveChecksum (archiveEvent crates item) = some r'.archiveChecksum
  checksum : slotStep r.checksum (backupEvent crates item) = some r'.checksum
  uuids : r'.received.uuids = r.received.uuids ++ ((stored crates item).map Prod.fst).toList
  files : r'.files = match opened crates item with
    | some (fileName, left) => Function.update r.files fileName (some left)
    | none => r.files
  subvolumes : r'.subvolumes = match replaced crates item with
    | some (uuid, left) => Function.update r.subvolumes uuid left
    | none => r.subvolumes

variable {crates} {r r' : Receiver} {item : Field × Io} {field : Field}

theorem slotStep_of_compare {slot : Option Name} {io : Io} {maxLen : ℕ} {r : Receiver} {f : Receiver}
    (h : (match slot with
      | none => none
      | some checksum => (readLimited field io maxLen).bind fun expected =>
      if checksum = expected then some f else none) = some r) :
    r = f ∧ slotStep slot (some (.check (toStringLossy field.data))) = some none := by
  cases slot with
  | none => cases h
  | some checksum =>
    obtain ⟨expected, hread, h⟩ := bind_eq_some_iff.mp h
    split_ifs at h with heq
    refine ⟨(some.inj h).symm, ?_⟩
    rw [readLimited] at hread
    split_ifs at hread
    rw [slotStep, if_pos (by rw [heq, some.inj hread])]

variable {uuid : Uuid}

theorem isBackup_of_uuidOf (h : uuidOf crates field = some uuid) : isBackup field = true := by
  obtain ⟨text, htext, _⟩ := bind_eq_some_iff.mp h
  obtain ⟨name, hname, hstrip⟩ := bind_eq_some_iff.mp htext
  rw [stripPrefix] at hstrip
  split_ifs at hstrip with hprefix
  simp [isBackup, hname, hprefix]

theorem uuidOf_of_not_isBackup (h : isBackup field = false) : uuidOf crates field = none := by
  by_contra hsome
  obtain ⟨uuid, huuid⟩ := ne_none_iff_exists'.mp hsome
  rw [isBackup_of_uuidOf huuid] at h
  cases h

theorem Effect.of_not_isBackup (h : isBackup item.1 = false) {checksum : Option Name} {isReceived : Bool}
    (harchive : slotStep r.archiveChecksum (archiveEvent crates item) = some checksum) :
    Effect crates item r { r with archiveChecksum := checksum, archiveReceived := isReceived } := by
  have huuid : uuidOf crates item.1 = none := uuidOf_of_not_isBackup h
  refine ⟨harchive, ?_, ?_, ?_, ?_⟩
  · simp [backupEvent, stored, huuid, isBackupChecksum, h, slotStep]
  · simp [stored, huuid]
  · simp [opened, huuid]
  · simp [replaced, huuid]

theorem archiveEvent_of_isBackup (h : isBackup item.1 = true) : archiveEvent crates item = none := by
  have hname : ∀ name : Text, ¬ backupPrefix <+: name → item.1.name ≠ some name := fun name hnot heq => by
    rw [isBackup, heq] at h
    exact hnot (by simpa using h)
  rw [archiveEvent, if_neg (hname _ (by decide)), if_neg (hname _ (by decide))]

theorem handleOther_effect (hbackup : isBackup item.1 = true) (huuid : uuidOf crates item.1 = none)
    (h : r.handleOther crates item.1 item.2 = some r') : Effect crates item r r' := by
  have harchive : archiveEvent crates item = none := archiveEvent_of_isBackup hbackup
  have hstored : stored crates item = none := by simp [stored, huuid]
  have hopened : opened crates item = none := by simp [opened, huuid]
  have hreplaced : replaced crates item = none := by simp [replaced, huuid]
  obtain ⟨name, hname⟩ : ∃ name, item.1.name = some name := by
    cases hname : item.1.name with
    | none => rw [isBackup, hname] at hbackup; cases hbackup
    | some name => exact ⟨name, rfl⟩
  rw [Receiver.handleOther, hname] at h
  dsimp only [getD_some] at h
  split_ifs at h with hchecksum
  · have hevent : backupEvent crates item = some (.check (toStringLossy item.1.data)) := by
      simp [backupEvent, hstored, isBackupChecksum, hbackup, huuid, hname, hchecksum]
    obtain ⟨rfl, hslot⟩ := slotStep_of_compare h
    refine ⟨by rw [harchive]; rfl, by rw [hevent]; exact hslot, ?_, ?_, ?_⟩
    · simp [hstored]
    · simp [hopened]
    · simp [hreplaced]
  · have hevent : backupEvent crates item = none := by simp [backupEvent, hstored, isBackupChecksum, hname, hchecksum]
    have hsame : r' = r := by
      split at h
      · obtain ⟨_, _, h⟩ := map_eq_some_iff.mp h
        exact h.symm
      · exact (some.inj h).symm
    subst hsame
    refine ⟨by rw [harchive]; rfl, by rw [hevent]; rfl, ?_, ?_, ?_⟩
    · simp [hstored]
    · simp [hopened]
    · simp [hreplaced]

theorem handleWings_effect {fileName : Text} {format : WingsBackupFile} (huuid : uuidOf crates item.1 = some uuid)
    (hfield : backupOf crates uuid item.1 = some (.wings fileName format)) :
    Effect crates item r (r.handleWings crates uuid fileName format item.1 item.2) := by
  have harchive : archiveEvent crates item = none := archiveEvent_of_isBackup (isBackup_of_uuidOf huuid)
  have hreplaced : replaced crates item = none := by simp [replaced, huuid, hfield]
  by_cases hcreates : item.2.creates = true
  · have hopened : opened crates item = some (fileName, copied item.1 item.2) := by simp [opened, huuid, hfield, hcreates]
    by_cases hdone : (item.2.breaksAfter.isNone && item.2.flushes) = true
    · have hstored : stored crates item = some (uuid, .wings fileName format) := by
        simp [stored, huuid, hfield, Option.filter, BackupField.isStored, hcreates, hdone]
      rw [Receiver.handleWings, if_pos hcreates]
      simp only [hdone, if_true]
      refine ⟨by rw [harchive]; rfl, ?_, ?_, ?_, ?_⟩
      · simp [backupEvent, hstored, slotStep]
      · simp [hstored]
      · simp [hopened]
      · simp [hreplaced]
    · have hstored : stored crates item = none := by
        simp only [stored, huuid, hfield, bind_some, BackupField.isStored, hdone, Bool.and_false]
        rfl
      rw [Receiver.handleWings, if_pos hcreates]
      simp only [hdone]
      refine ⟨by rw [harchive]; rfl, ?_, ?_, ?_, ?_⟩
      · simp [backupEvent, hstored, isBackupChecksum, huuid, slotStep]
      · simp [hstored]
      · simp [hopened]
      · simp [hreplaced]
  · have hstored : stored crates item = none := by
      simp [stored, huuid, hfield, Option.filter, BackupField.isStored, hcreates]
    rw [Receiver.handleWings, if_neg hcreates]
    refine ⟨by rw [harchive]; rfl, ?_, ?_, ?_, ?_⟩
    · simp [backupEvent, hstored, isBackupChecksum, huuid, slotStep]
    · simp [hstored]
    · simp [opened, huuid, hfield, hcreates]
    · simp [hreplaced]

theorem handleBtrfs_effect (huuid : uuidOf crates item.1 = some uuid)
    (hfield : backupOf crates uuid item.1 = some .btrfs) :
    Effect crates item r (r.handleBtrfs crates uuid item.1 item.2) := by
  have harchive : archiveEvent crates item = none := archiveEvent_of_isBackup (isBackup_of_uuidOf huuid)
  have hopened : opened crates item = none := by simp [opened, huuid, hfield]
  rw [Receiver.handleBtrfs]
  by_cases hdone : (item.2.creates && item.2.spawns && item.2.breaksAfter.isNone && item.2.exits) = true
  · have hstored : stored crates item = some (uuid, .btrfs) := by
      simp [stored, huuid, hfield, Option.filter, BackupField.isStored, hdone]
    have hreplaced : replaced crates item = some (uuid, some item.1.data) := by
      simp [replaced, huuid, hfield, BackupField.isStored, hdone]
    simp only [hdone, if_true]
    refine ⟨by rw [harchive]; rfl, ?_, ?_, ?_, ?_⟩
    · simp [backupEvent, hstored, slotStep]
    · simp [hstored]
    · simp [hopened]
    · simp [hreplaced]
  · have hstored : stored crates item = none := by
      simp only [stored, huuid, hfield, bind_some, BackupField.isStored, hdone]
      rfl
    have hreplaced : replaced crates item = some (uuid, none) := by
      simp only [replaced, huuid, hfield, bind_some, BackupField.isStored, hdone]
      rfl
    simp only [hdone]
    refine ⟨by rw [harchive]; rfl, ?_, ?_, ?_, ?_⟩
    · simp [backupEvent, hstored, isBackupChecksum, huuid, slotStep]
    · simp [hstored]
    · simp [hopened]
    · simp [hreplaced]

/-- **What a field does.** -/
theorem step_effect (h : step crates r item = some r') : Effect crates item r r' := by
  rw [step] at h
  split_ifs at h with harchive hextracts hchecksum hplain hreads hbackup
  · have hnot : isBackup item.1 = false := by rw [isBackup, harchive]; decide
    cases h
    exact Effect.of_not_isBackup hnot (by rw [archiveEvent, if_pos harchive]; rfl)
  · have hnot : isBackup item.1 = false := by rw [isBackup, hchecksum]; decide
    obtain ⟨rfl, hslot⟩ := slotStep_of_compare h
    exact Effect.of_not_isBackup hnot (by rw [archiveEvent, if_neg harchive, if_pos hchecksum, hslot])
  · have hnot : isBackup item.1 = false := by rcases hplain with hname | hname | hname <;> rw [isBackup, hname] <;> decide
    cases h
    exact Effect.of_not_isBackup hnot (by rw [archiveEvent, if_neg harchive, if_neg hchecksum]; rfl)
  · rw [Receiver.handleField] at h
    cases huuid : uuidOf crates item.1 with
    | none =>
      rw [huuid] at h
      exact handleOther_effect hbackup huuid h
    | some uuid =>
      rw [huuid] at h
      dsimp only at h
      cases hfield : backupOf crates uuid item.1 with
      | none =>
        rw [hfield] at h
        cases h
        refine ⟨?_, ?_, ?_, ?_, ?_⟩
        · rw [archiveEvent_of_isBackup hbackup]; rfl
        · simp [backupEvent, stored, huuid, hfield, isBackupChecksum, slotStep]
        · simp [stored, huuid, hfield]
        · simp [opened, huuid, hfield]
        · simp [replaced, huuid, hfield]
      | some field =>
        rw [hfield] at h
        cases field with
        | wings fileName format => cases h; exact handleWings_effect huuid hfield
        | btrfs => cases h; exact handleBtrfs_effect huuid hfield
  · cases h
    exact Effect.of_not_isBackup (by simpa using hbackup) (by rw [archiveEvent, if_neg harchive, if_neg hchecksum]; rfl)

/-! ## Whole forms -/

variable (crates) in
/-- What is in a file in the end: what the last field that opens it leaves there, or what was there from the
start. -/
def leftIn (files : Text → Option (List Byte)) (form : List (Field × Io)) (fileName : Text) : Option (List Byte) :=
  ((form.filterMap (opened crates)).reverse.lookup fileName).or (files fileName)

variable {form : List (Field × Io)}

theorem files_of_run (h : form.foldlM (step crates) r = some r') (fileName : Text) :
    r'.files fileName = leftIn crates r.files form fileName := by
  induction form generalizing r with
  | nil => cases h; rfl
  | cons item form ih =>
    rw [foldlM_cons, bind_eq_bind, bind_eq_some_iff] at h
    obtain ⟨s, hs, h⟩ := h
    rw [ih h, leftIn, leftIn, (step_effect hs).files]
    cases hopened : opened crates item with
    | none => rw [filterMap_cons_none hopened]
    | some o =>
      obtain ⟨name, left⟩ := o
      rw [filterMap_cons_some hopened, reverse_cons, lookup_append, Option.or_assoc]
      by_cases hname : fileName = name
      · simp [hname]
      · have hbeq : (fileName == name) = false := by simpa using hname
        simp [hname, lookup_cons, hbeq]

theorem uuids_of_run (h : form.foldlM (step crates) r = some r') :
    r'.received.uuids = r.received.uuids ++ form.filterMap fun item => (stored crates item).map Prod.fst := by
  induction form generalizing r with
  | nil => cases h; simp
  | cons item form ih =>
    rw [foldlM_cons, bind_eq_bind, bind_eq_some_iff] at h
    obtain ⟨s, hs, h⟩ := h
    rw [ih h, (step_effect hs).uuids]
    cases hstored : stored crates item with
    | none => simp [hstored]
    | some u => simp [hstored]

def ownName (crates : Crates) (uuid : Uuid) (format : WingsBackupFile) : Text :=
  crates.uuidText uuid ++ '.' :: format.extension

variable (crates) in
/-- Every Wings backup that is listed is in the file with its own name. -/
def FilesHold (form : List (Field × Io)) (files : Text → Option (List Byte)) : Prop :=
  ∀ item ∈ form, ∀ uuid fileName format, stored crates item = some (uuid, .wings fileName format) →
    files (ownName crates uuid format) = some item.1.data

variable {files : Text → Option (List Byte)} {subvolumes : Uuid → Option (List Byte)} {received : ReceivedBackups}

theorem receive_eq_some (h : receive crates files subvolumes form = some (received, r)) :
    form.foldlM (step crates) (.initial files subvolumes) = some r ∧ r.archiveChecksum = none ∧ r.checksum = none ∧
      received = r.received := by
  rw [receive, bind_eq_some_iff] at h
  obtain ⟨r', hrun, h⟩ := h
  obtain ⟨received', hfinish, h⟩ := map_eq_some_iff.mp h
  cases h
  rw [Receiver.finish] at hfinish
  split_ifs at hfinish with hdone
  simp only [Bool.and_eq_true, isNone_iff_eq_none] at hdone
  exact ⟨hrun, hdone.1.2, hdone.2, (some.inj hfinish).symm⟩

/-- **When an accepted form has been verified.**  Every archive has been compared with a checksum before the next
archive, every listed backup before the next listed backup, and every Wings backup is in its own file, just if
there is a checksum between any two archives and between any two backups that are stored, and the last field that
opens the file of a backup has the bytes of that backup. -/
theorem accepted_verified_iff (h : receive crates files subvolumes form = some (received, r)) :
    received.uuids = (form.filterMap fun item => (stored crates item).map Prod.fst) ∧
    ((Verified (archiveEvent crates) form ∧ Verified (backupEvent crates) form ∧ FilesHold crates form r.files) ↔
      (Separated (archiveEvent crates) form ∧ Separated (backupEvent crates) form ∧
        FilesHold crates form (leftIn crates files form))) := by
  obtain ⟨hrun, harchive, hchecksum, rfl⟩ := receive_eq_some h
  have harchiveRun := slotRun_of_step Receiver.archiveChecksum
    (fun s item s' (hs : step crates s item = some s') => (step_effect hs).archiveChecksum) hrun
  have hbackupRun := slotRun_of_step Receiver.checksum
    (fun s item s' (hs : step crates s item = some s') => (step_effect hs).checksum) hrun
  rw [harchive] at harchiveRun
  rw [hchecksum] at hbackupRun
  have hfiles : r.files = leftIn crates files form := funext (files_of_run hrun)
  refine ⟨?_, ?_⟩
  · rw [uuids_of_run hrun]; rfl
  · rw [verified_iff_separated harchiveRun, verified_iff_separated hbackupRun, hfiles]

/-! ## Two forms -/

/-- A digest of 256 bits in hexadecimal. -/
def hexEncode (digest : ℕ) : Name :=
  (range 64).reverse.map fun i =>
    let digit := digest / 16 ^ i % 16
    Fin.ofNat 256 (if digit < 10 then 0x30 + digit else 0x57 + digit)

/-- The checksums of nothing, of `b`, and, for anything else here, of a block of 512 zeros. -/
def sha256Hex (data : List Byte) : Name :=
  hexEncode <|
    if data = [] then 0xe3b0c44298fc1c149afbf4c8996fb92427ae41e4649b934ca495991b7852b855
    else if data = [0x62] then 0x3e23e8160039594a33894f6564e1b1348bbd7a0088d42c4acb73eeaed59c009d
    else 0x076a27c79e5ace2a3d47f9dd2e83e4ff6ea8872b3c2218f66c92b89b55f36560

/-- The text of the UUID whose bits are all zero. -/
def nilText : Text :=
  replicate 8 '0' ++ '-' :: replicate 4 '0' ++ '-' :: replicate 4 '0' ++ '-' :: replicate 4 '0' ++ '-' :: replicate 12 '0'

/-- UUIDs, as far as the one with all bits zero goes. -/
def nilCrates : Crates where
  checksum := sha256Hex
  parseUuid text := if text = nilText then some 0 else none
  uuidText _ := nilText

def Io.fine : Io := ⟨true, true, true, none, true, true, true, []⟩

/-- A field with the file `archive.tar`. -/
def archiveField (data : List Byte) : Field × Io :=
  (⟨some archiveName, some (archiveName ++ ['.', 't', 'a', 'r']), none, data⟩, .fine)

def checksumField (data : List Byte) : Field × Io := (⟨some checksumName, none, none, data⟩, .fine)

/-- An archive without entries and a backup, each with its checksum. -/
theorem accepted_verified_one_backup :
    let form : List (Field × Io) := [archiveField [], checksumField (sha256Hex []),
      (⟨some (backupPrefix ++ nilText), some (nilText ++ ['.', 't', 'a', 'r']), some wingsType, [0x62]⟩, .fine),
      (⟨some (backupPrefix ++ checksumName ++ '-' :: nilText), none, none, sha256Hex [0x62]⟩, .fine)]
    ∃ received r, receive nilCrates (fun _ => none) (fun _ => none) form = some (received, r) ∧ received.uuids = [0] ∧
      r.files (nilText ++ ['.', 't', 'a', 'r']) = some [0x62] ∧
      ((Verified (archiveEvent nilCrates) form ∧ Verified (backupEvent nilCrates) form ∧
        FilesHold nilCrates form r.files) ↔
        (Separated (archiveEvent nilCrates) form ∧ Separated (backupEvent nilCrates) form ∧
          FilesHold nilCrates form (leftIn nilCrates (fun _ => none) form))) := by
  intro form
  have hreceive : receive nilCrates (fun _ => none) (fun _ => none) form = some (_, _) := rfl
  exact ⟨_, _, hreceive, by decide, by decide, (accepted_verified_iff hreceive).2⟩

/-- Two archives without entries, the first one padded with a block of zeros, and the checksum of the second: the
form is accepted, and nothing has verified the first. -/
theorem first_archive_not_verified :
    let form := [archiveField (replicate 512 0), archiveField [], checksumField (sha256Hex [])]
    (receive nilCrates (fun _ => none) (fun _ => none) form).isSome = true ∧ ¬ Verified (archiveEvent nilCrates) form := by
  refine ⟨by decide, fun h => ?_⟩
  obtain ⟨between, y, rest, hafter, hy, _⟩ := h [] _ _ (sha256Hex (replicate 512 0)) rfl (by decide)
  have hmem : y ∈ [archiveField [], checksumField (sha256Hex [])] := hafter ▸ by simp
  simp only [mem_cons, not_mem_nil, or_false] at hmem
  rcases hmem with rfl | rfl
  · exact absurd hy (by decide)
  · exact absurd hy (by decide)

end Wings.Server.BackupTransfer
