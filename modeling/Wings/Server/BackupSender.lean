import Wings.Server.BackupVerified

/-!
# Wings.Server.BackupSender — backups that are deleted after a transfer

`BackupSender` of `server/backup/transfer.rs` with the end of `OutgoingServerTransfer::start`.  The source appends
two or three fields for every backup that it can send, and in the end deletes what it has sent, if the destination
accepted the form.
-/

namespace Wings.Server.BackupTransfer

open Lib Function List

/-! ## The form -/

/-- A backup at the source, with what can be read of it. -/
inductive SourceBackup where
  | wings (format : WingsBackupFile) (file : Option (List Byte))
  /-- A snapshot, sent as the difference to the snapshot of another backup if there is one. -/
  | btrfs (sendStream : Option Uuid → Option (List Byte)) (ignore : List Byte) (archiveStream : Option (List Byte))
  /-- An adapter that cannot be transferred. -/
  | other

/-- What the destination has said of itself. -/
structure TransferCapabilities where
  isBtrfsSubvolume : Bool
  wingsArchiveFormat : ArchiveFormat

structure TransferPart where
  data : List Byte
  fileName : Text
  contentType : Text
  ignore : Option (List Byte)

def btrfsExtension : Text := ['b', 't', 'r', 'f', 's']
def textPlain : Text := ['t', 'e', 'x', 't', '/', 'p', 'l', 'a', 'i', 'n']
def tarType : Text := ['a', 'p', 'p', 'l', 'i', 'c', 'a', 't', 'i', 'o', 'n', '/', 'x', '-', 't', 'a', 'r']
def checksumPrefix : Text := backupPrefix ++ checksumName ++ ['-']

variable (crates : Crates) (capabilities : Option TransferCapabilities)

/-- The part for a backup, unless it is skipped, and the snapshot that the next one can be sent against. -/
def transferPart (btrfsParent : Option Uuid) (uuid : Uuid) : SourceBackup → Option (TransferPart × Option Uuid)
  | .wings format file => file.map fun data =>
    ({ data
       fileName := ownName crates uuid format
       contentType := match format with
         | .archive _ => wingsType
         | .dump _ _ => dumpType
       ignore := none }, btrfsParent)
  | .btrfs sendStream ignore archiveStream =>
    match capabilities with
    | none => none
    | some capabilities =>
      match if capabilities.isBtrfsSubvolume then sendStream btrfsParent else none with
      | some data =>
        some ({ data, fileName := crates.uuidText uuid ++ '.' :: btrfsExtension, contentType := btrfsType,
                ignore := some ignore }, some uuid)
      | none =>
        if capabilities.wingsArchiveFormat = .sevenZip then none
        else archiveStream.map fun data =>
          ({ data
             fileName := ownName crates uuid (.archive capabilities.wingsArchiveFormat)
             contentType := wingsType
             ignore := none }, btrfsParent)
  | .other => none

def backupFieldOf (uuid : Uuid) (part : TransferPart) : Field :=
  ⟨some (backupPrefix ++ crates.uuidText uuid), some part.fileName, some part.contentType, part.data⟩

def checksumFieldOf (uuid : Uuid) (part : TransferPart) : Field :=
  ⟨some (checksumPrefix ++ crates.uuidText uuid), some (checksumPrefix ++ crates.uuidText uuid), some textPlain,
    crates.checksum part.data⟩

def ignoreFieldOf (uuid : Uuid) (ignore : List Byte) : Field :=
  ⟨some (ignorePrefix ++ crates.uuidText uuid), some (ignorePrefix ++ crates.uuidText uuid), some textPlain, ignore⟩

def partFields (uuid : Uuid) (part : TransferPart) : List Field :=
  backupFieldOf crates uuid part :: checksumFieldOf crates uuid part ::
    part.ignore.toList.map (ignoreFieldOf crates uuid)

structure BackupSender where
  form : List Field
  btrfsParent : Option Uuid
  sent : List Uuid

variable (find : Uuid → Option SourceBackup)

def BackupSender.appendPart (sender : BackupSender) (uuid : Uuid) : BackupSender :=
  match (find uuid).bind (transferPart crates capabilities sender.btrfsParent uuid) with
  | some (part, btrfsParent) =>
    { form := sender.form ++ partFields crates uuid part, btrfsParent, sent := sender.sent ++ [uuid] }
  | none => sender

/-- What is sent besides the backups. -/
structure ServerParts where
  archive : List Byte
  archiveFileName : Text
  installLogs : Option Field
  diffDb : Option Field
  resourceHistory : Option Field

def ServerParts.form (server : ServerParts) : List Field :=
  [⟨some archiveName, some server.archiveFileName, some tarType, server.archive⟩,
    ⟨some checksumName, some checksumName, some textPlain, crates.checksum server.archive⟩] ++
    server.installLogs.toList.map (fun field => { field with name := some installLogsName }) ++
    server.diffDb.toList.map (fun field => { field with name := some diffDbName }) ++
    server.resourceHistory.toList.map (fun field => { field with name := some resourceHistoryName })

/-- The form of the main request, with the backups that are in it. -/
def transferForm (server : ServerParts) (backups : List Uuid) : BackupSender :=
  backups.foldl (·.appendPart crates capabilities find) ⟨server.form crates, none, []⟩

/-! ## The answer -/

/-- What the destination reports to the panel, if it answers with success: the fields have been processed, the
other streams have ended well, and the panel has taken note. -/
def destination (files : Text → Option (List Byte)) (subvolumes : Uuid → Option (List Byte)) (items : List (Field × Io))
    (streamsEnd panelAccepts : Bool) : Option (ReceivedBackups × Receiver) :=
  (receive crates files subvolumes items).filter fun _ => streamsEnd && panelAccepts

/-- The answer that the source gets: none, if the form was not delivered as a whole. -/
def answer (delivered : Bool) (files : Text → Option (List Byte)) (subvolumes : Uuid → Option (List Byte))
    (items : List (Field × Io)) (streamsEnd panelAccepts : Bool) : Option (ReceivedBackups × Receiver) :=
  if delivered then destination crates files subvolumes items streamsEnd panelAccepts else none

/-- The backups that the source deletes after the transfer. -/
def deleted (deleteBackups : Bool) (sender : BackupSender) (answer : Option (ReceivedBackups × Receiver)) (tasksEnd : Bool)
    (deletes : Uuid → Bool) : List Uuid :=
  if answer.isSome && tasksEnd && deleteBackups then sender.sent.filter deletes else []

/-! ## Texts of UUIDs -/

/-- What is known of the text of a UUID. -/
structure UuidText (uuid : Uuid) : Prop where
  parse : crates.parseUuid (crates.uuidText uuid) = some uuid
  checksum : crates.parseUuid (checksumName ++ '-' :: crates.uuidText uuid) = none
  ignore : crates.parseUuid (['i', 'g', 'n', 'o', 'r', 'e', '-'] ++ crates.uuidText uuid) = none
  digits : ∀ c ∈ crates.uuidText uuid,
    c ∈ ['0', '1', '2', '3', '4', '5', '6', '7', '8', '9', 'a', 'b', 'c', 'd', 'e', 'f', '-']
  length : (crates.uuidText uuid).length = 36

variable {crates} {uuid : Uuid} {part : TransferPart} {items : List (Field × Io)}

section

variable (h : UuidText crates uuid)
include h

theorem uuidOf_ignoreFieldOf {ignore : List Byte} :
    uuidOf crates (ignoreFieldOf crates uuid ignore) = none := h.ignore

theorem fileName_ne {uuid' : Uuid} (h' : UuidText crates uuid') (hne : uuid ≠ uuid')
    {rest rest' : Text} : crates.uuidText uuid ++ rest ≠ crates.uuidText uuid' ++ rest' := fun heq => by
  have htext := (append_inj heq (h.length.trans h'.length.symm)).1
  exact hne (Option.some.inj (h.parse.symm.trans (htext ▸ h'.parse)))

end

/-! ## The fields of one backup -/

/-- What a run of fields leaves alone: all files but those named, all subvolumes but those listed. -/
structure Frame (names : List Text) (uuids : List Uuid) (r r' : Receiver) : Prop where
  files : ∀ name ∉ names, r'.files name = r.files name
  subvolumes : ∀ uuid ∉ uuids, r'.subvolumes uuid = r.subvolumes uuid
  received : ∀ uuid ∈ r.received.uuids, uuid ∈ r'.received.uuids

variable {r r' s : Receiver} {names names' : List Text} {uuids uuids' : List Uuid} {item : Field × Io}

theorem Frame.refl (r : Receiver) : Frame names uuids r r := ⟨fun _ _ => rfl, fun _ _ => rfl, fun _ h => h⟩

theorem Frame.trans (h : Frame names uuids r s) (h' : Frame names' uuids' s r') :
    Frame (names ++ names') (uuids ++ uuids') r r' where
  files name hname :=
    (h'.files name fun hmem => hname (mem_append_right _ hmem)).trans (h.files name fun hmem =>
      hname (mem_append_left _ hmem))
  subvolumes uuid huuid :=
    (h'.subvolumes uuid fun hmem => huuid (mem_append_right _ hmem)).trans
      (h.subvolumes uuid fun hmem => huuid (mem_append_left _ hmem))
  received uuid huuid := h'.received uuid (h.received uuid huuid)

theorem frame_of_no_uuid (huuid : uuidOf crates item.1 = none) (h : step crates r item = some r') : Frame [] [] r r' := by
  have heffect := step_effect h
  refine ⟨fun name _ => ?_, fun uuid _ => ?_, fun uuid hmem => ?_⟩
  · rw [heffect.files]; simp [opened, huuid]
  · rw [heffect.subvolumes]; simp [replaced, huuid]
  · rw [heffect.uuids]; exact mem_append_left _ hmem

/-- The slot is left alone by a field that is no backup and no checksum of one. -/
theorem checksum_of_other (huuid : uuidOf crates item.1 = none) (hother : isBackupChecksum crates item.1 = false)
    (h : step crates r item = some r') : r'.checksum = r.checksum := by
  have hslot := (step_effect h).checksum
  rw [show backupEvent crates item = none by simp [backupEvent, stored, huuid, hother]] at hslot
  exact (Option.some.inj hslot).symm

theorem isBackup_checksumFieldOf : isBackupChecksum crates (checksumFieldOf crates uuid part) =
    (uuidOf crates (checksumFieldOf crates uuid part)).isNone := by
  have hinfix : checksumName <:+: checksumPrefix ++ crates.uuidText uuid :=
    ⟨backupPrefix, '-' :: crates.uuidText uuid, by simp [checksumPrefix]⟩
  have hbackup : backupPrefix <+: checksumPrefix ++ crates.uuidText uuid :=
    ⟨checksumName ++ '-' :: crates.uuidText uuid, by simp [checksumPrefix]⟩
  have hname : (checksumFieldOf crates uuid part).name = some (checksumPrefix ++ crates.uuidText uuid) := rfl
  simp [isBackupChecksum, isBackup, hname, hinfix, hbackup]

theorem isBackup_ignoreFieldOf (h : UuidText crates uuid) {ignore : List Byte} :
    isBackupChecksum crates (ignoreFieldOf crates uuid ignore) = false := by
  have hinfix : ¬ checksumName <:+: ignorePrefix ++ crates.uuidText uuid := fun hinfix => by
    have hs : 's' ∈ ignorePrefix ++ crates.uuidText uuid := hinfix.subset (by decide)
    rcases mem_append.mp hs with hs | hs
    · exact absurd hs (by decide)
    · exact absurd (h.digits _ hs) (by decide)
  have hname : (ignoreFieldOf crates uuid ignore).name = some (ignorePrefix ++ crates.uuidText uuid) := rfl
  simp [isBackupChecksum, hname, hinfix]

/-- A copy of what was sent. -/
def Holds (r : Receiver) (uuid : Uuid) (part : TransferPart) : Prop :=
  if part.contentType = btrfsType then r.subvolumes uuid = some part.data else r.files part.fileName = some part.data

theorem holds_of_stored (huuid : uuidOf crates item.1 = some uuid) (hname : item.1.fileName = some part.fileName)
    (htype : item.1.contentType = some part.contentType) (hdata : item.1.data = part.data)
    (hstored : (stored crates item).isSome = true) (h : step crates r item = some s) : Holds s uuid part := by
  have heffect := step_effect h
  obtain ⟨⟨_, field⟩, hstored⟩ := Option.isSome_iff_exists.mp hstored
  rw [stored, huuid, Option.bind_some, Option.map_eq_some_iff] at hstored
  obtain ⟨field', hfilter, heq⟩ := hstored
  cases heq
  obtain ⟨hfield, hdone⟩ := Option.filter_eq_some_iff.mp hfilter
  cases field with
  | wings fileName format =>
    simp only [BackupField.isStored, Bool.and_eq_true, Option.isNone_iff_eq_none] at hdone
    have hopened : opened crates item = some (fileName, part.data) := by
      simp [opened, huuid, hfield, hdone.1, copied, hdone.2.1, hdata]
    have hfiles := heffect.files
    rw [hopened] at hfiles
    simp only [backupOf, hname, htype] at hfield
    split_ifs at hfield with hwings hbtrfs
    · obtain ⟨_, _, heq⟩ := Option.map_eq_some_iff.mp hfield
      cases heq
      have hnot : part.contentType ≠ btrfsType := by
        rintro hbtrfs
        rw [hbtrfs] at hwings
        exact absurd hwings (by decide)
      rw [Holds, if_neg hnot, hfiles]
      exact update_self ..
    · cases hfield
  | btrfs =>
    have hreplaced : replaced crates item = some (uuid, some part.data) := by
      simp only [replaced, huuid, hfield, Option.bind_some, hdone, if_true, hdata]
    have hsub := heffect.subvolumes
    rw [hreplaced] at hsub
    simp only [backupOf, hname, htype] at hfield
    split_ifs at hfield with hwings hbtrfs
    · simp at hfield
    · rw [Holds, if_pos hbtrfs, hsub]
      exact update_self ..

theorem frame_of_backup {name : Text} (huuid : uuidOf crates item.1 = some uuid) (hname : item.1.fileName = some name)
    (h : step crates r item = some s) : Frame [name] [uuid] r s := by
  have heffect := step_effect h
  refine ⟨fun name' hne => ?_, fun uuid' hne => ?_, fun uuid' hmem => ?_⟩
  · rw [heffect.files]
    cases hopened : opened crates item with
    | none => rfl
    | some o =>
      obtain ⟨fileName, left⟩ := o
      have heq : fileName = name := by
        rw [opened, huuid, Option.bind_some] at hopened
        split at hopened
        · rename_i hfield
          simp only [backupOf, hname] at hfield
          split at hfield
          · rename_i heq _
            split_ifs at hfield
            · obtain ⟨_, _, hwings⟩ := Option.map_eq_some_iff.mp hfield
              cases hwings
              cases heq
              split_ifs at hopened
              cases hopened
              rfl
            · cases hfield
          · cases hfield
        · cases hopened
      exact update_of_ne (fun h => hne (by simp [h, heq])) ..
  · rw [heffect.subvolumes]
    cases hreplaced : replaced crates item with
    | none => rfl
    | some o =>
      obtain ⟨uuid'', left⟩ := o
      have heq : uuid'' = uuid := by
        rw [replaced, huuid, Option.bind_some] at hreplaced
        split at hreplaced
        · cases hreplaced; rfl
        · cases hreplaced
      exact update_of_ne (fun h => hne (by simp [h, heq])) ..
  · rw [heffect.uuids]
    exact mem_append_left _ hmem

variable (crates) in
/-- Somewhere in the form, the checksum of what was sent was in the slot when the checksum field came, and that
field was no error. -/
def Compared (items : List (Field × Io)) (start : Receiver) (uuid : Uuid) (part : TransferPart) : Prop :=
  ∃ before io io' after s s',
    items = before ++ (backupFieldOf crates uuid part, io) :: (checksumFieldOf crates uuid part, io') :: after ∧
    (before ++ [(backupFieldOf crates uuid part, io)]).foldlM (step crates) start = some s ∧
    s.checksum = some (crates.checksum part.data) ∧
    step crates s (checksumFieldOf crates uuid part, io') = some s'

variable (crates) in
/-- What is known of a backup after its fields. -/
structure Handled (items : List (Field × Io)) (uuid : Uuid) (part : TransferPart) (r r' : Receiver) : Prop where
  holds : Holds r' uuid part
  reported : uuid ∈ r'.received.uuids
  compared : Compared crates items r uuid part

/-- **One backup.**  From an empty slot, either the checksum of a backup is an error, or the backup has been
stored, compared and reported, and the slot is empty again. -/
theorem run_part (hlaw : UuidText crates uuid) (hempty : r.checksum = none)
    (hitems : items.map Prod.fst = partFields crates uuid part) (h : items.foldlM (step crates) r = some r') :
    Handled crates items uuid part r r' ∧ r'.checksum = none ∧ Frame [part.fileName] [uuid] r r' := by
  obtain ⟨⟨field, io⟩, tail, rfl, hfield, htail⟩ := map_eq_cons_iff.mp hitems
  obtain ⟨⟨field', io'⟩, rest, rfl, hfield', hrest⟩ := map_eq_cons_iff.mp htail
  subst hfield hfield'
  rw [foldlM_cons, Option.bind_eq_bind, Option.bind_eq_some_iff] at h
  obtain ⟨s, hs, h⟩ := h
  rw [foldlM_cons, Option.bind_eq_bind, Option.bind_eq_some_iff] at h
  obtain ⟨t, ht, h⟩ := h
  have huuid : uuidOf crates (backupFieldOf crates uuid part) = some uuid := by
    rw [uuidOf, backupFieldOf, Option.bind_some, stripPrefix, if_pos (prefix_append _ _), drop_left,
      Option.bind_some, hlaw.parse]
  have huuid' : uuidOf crates (checksumFieldOf crates uuid part) = none := hlaw.checksum
  -- the checksum field finds something in the slot, so the backup was stored
  have hcheck := (step_effect ht).checksum
  have hevent : backupEvent crates (checksumFieldOf crates uuid part, io') =
      some (.check (toStringLossy (crates.checksum part.data))) := by
    have hisChecksum : isBackupChecksum crates (checksumFieldOf crates uuid part) = true := by
      rw [isBackup_checksumFieldOf, huuid']; rfl
    simp only [backupEvent, stored, huuid', hisChecksum]
    rfl
  have hput := (step_effect hs).checksum
  have hstored : (stored crates (backupFieldOf crates uuid part, io)).isSome = true := by
    by_contra hnot
    have hnone : backupEvent crates (backupFieldOf crates uuid part, io) = none := by
      simp [backupEvent, hnot, isBackupChecksum, huuid]
    rw [hnone, hempty] at hput
    rw [hevent, ← Option.some.inj hput] at hcheck
    cases hcheck
  have hslot : s.checksum = some (crates.checksum part.data) := by
    rw [backupEvent, if_pos hstored] at hput
    exact (Option.some.inj hput).symm
  have hdone : t.checksum = none := by
    rw [hevent, slotStep] at hcheck
    split_ifs at hcheck
    exact (Option.some.inj hcheck).symm
  have hholds : Holds s uuid part := holds_of_stored huuid rfl rfl rfl hstored hs
  have hreported : uuid ∈ s.received.uuids := by
    rw [(step_effect hs).uuids]
    obtain ⟨o, ho⟩ := Option.isSome_iff_exists.mp hstored
    have hfst : o.1 = uuid := by
      rw [stored, huuid, Option.bind_some, Option.map_eq_some_iff] at ho
      obtain ⟨_, _, rfl⟩ := ho
      rfl
    simp [ho, hfst]
  -- nothing is changed by an ignore field
  obtain ⟨hempty', hframe'⟩ : r'.checksum = t.checksum ∧ Frame [] [] t r' := by
    cases hignore : part.ignore with
    | none =>
      rw [hignore] at hrest
      obtain rfl : rest = [] := map_eq_nil_iff.mp hrest
      cases h
      exact ⟨rfl, .refl _⟩
    | some ignore =>
      rw [hignore] at hrest
      obtain ⟨⟨field, io⟩, tail, rfl, hfield, htail⟩ := map_eq_cons_iff.mp hrest
      obtain rfl : tail = [] := map_eq_nil_iff.mp htail
      subst hfield
      rw [foldlM_cons, Option.bind_eq_bind, Option.bind_eq_some_iff] at h
      obtain ⟨_, h, hnil⟩ := h
      cases hnil
      exact ⟨checksum_of_other (uuidOf_ignoreFieldOf hlaw) (isBackup_ignoreFieldOf hlaw) h,
        frame_of_no_uuid (uuidOf_ignoreFieldOf hlaw) h⟩
  have hframe : Frame [] [] s r' := (frame_of_no_uuid huuid' ht).trans hframe'
  refine ⟨⟨?_, hframe.received _ hreported, [], io, io', rest, s, t, rfl, ?_, hslot, ht⟩, hempty'.trans hdone,
    (frame_of_backup huuid rfl hs).trans hframe⟩
  · rw [Holds, hframe.files _ not_mem_nil, hframe.subvolumes _ not_mem_nil]
    exact hholds
  · rw [nil_append, foldlM_cons, hs]
    rfl

/-! ## All backups -/

theorem Holds.of_frame (h : Holds s uuid part) (hframe : Frame names uuids s r') (hname : part.fileName ∉ names)
    (huuid : uuid ∉ uuids) : Holds r' uuid part := by
  rw [Holds, hframe.files _ hname, hframe.subvolumes _ huuid]
  exact h

theorem Compared.append_right (h : Compared crates items r uuid part) (items' : List (Field × Io)) :
    Compared crates (items ++ items') r uuid part := by
  obtain ⟨before, io, io', after, s, s', rfl, hrest⟩ := h
  exact ⟨before, io, io', after ++ items', s, s', by simp, hrest⟩

theorem Compared.append_left {items' : List (Field × Io)} (h : Compared crates items' s uuid part)
    (hrun : items.foldlM (step crates) r = some s) : Compared crates (items ++ items') r uuid part := by
  obtain ⟨before, io, io', after, t, t', rfl, ht, hrest⟩ := h
  refine ⟨items ++ before, io, io', after, t, t', by simp, ?_, hrest⟩
  rw [append_assoc, foldlM_append, hrun]
  exact ht

/-- **The run over all backups.** -/
theorem run_parts {chosen : List (Uuid × TransferPart)} (hlaws : ∀ c ∈ chosen, UuidText crates c.1)
    (hnames : ∀ c ∈ chosen, ∃ rest, c.2.fileName = crates.uuidText c.1 ++ rest) (hnodup : (chosen.map Prod.fst).Nodup)
    (hempty : r.checksum = none) (hitems : items.map Prod.fst = chosen.flatMap fun c => partFields crates c.1 c.2)
    (h : items.foldlM (step crates) r = some r') :
    (∀ c ∈ chosen, Handled crates items c.1 c.2 r r') ∧
      Frame (chosen.map fun c => c.2.fileName) (chosen.map Prod.fst) r r' := by
  induction chosen generalizing items r with
  | nil =>
    obtain rfl : items = [] := map_eq_nil_iff.mp hitems
    cases h
    exact ⟨fun _ hc => absurd hc not_mem_nil, .refl _⟩
  | cons c chosen ih =>
    obtain ⟨items₁, items₂, rfl, hitems₁, hitems₂⟩ := map_eq_append_iff.mp hitems
    rw [foldlM_append, Option.bind_eq_bind, Option.bind_eq_some_iff] at h
    obtain ⟨s, hs, h⟩ := h
    have hlaw : UuidText crates c.1 := hlaws c mem_cons_self
    obtain ⟨hhead, hempty', hframe⟩ := run_part hlaw hempty hitems₁ hs
    rw [map_cons, nodup_cons] at hnodup
    obtain ⟨hrest, hframe'⟩ := ih (fun c' hc' => hlaws c' (mem_cons_of_mem _ hc'))
      (fun c' hc' => hnames c' (mem_cons_of_mem _ hc')) hnodup.2 hempty' hitems₂ h
    -- the file of this backup is none of the later ones
    have hname : c.2.fileName ∉ chosen.map fun c => c.2.fileName := by
      intro hmem
      obtain ⟨c', hc', heq⟩ := mem_map.mp hmem
      obtain ⟨rest, hc⟩ := hnames c mem_cons_self
      obtain ⟨rest', hc''⟩ := hnames c' (mem_cons_of_mem _ hc')
      have hne : c'.1 ≠ c.1 := fun heq => hnodup.1 (heq ▸ mem_map_of_mem hc')
      exact fileName_ne (hlaws c' (mem_cons_of_mem _ hc')) hlaw hne (hc''.symm.trans (heq.trans hc))
    refine ⟨forall_mem_cons.mpr ⟨⟨hhead.holds.of_frame hframe' hname hnodup.1, hframe'.received _ hhead.reported,
      hhead.compared.append_right _⟩, fun c' hc' => ?_⟩, hframe.trans hframe'⟩
    exact ⟨(hrest c' hc').holds, (hrest c' hc').reported, (hrest c' hc').compared.append_left hs⟩

/-! ## The whole form -/

variable {capabilities : Option TransferCapabilities} {find : Uuid → Option SourceBackup}

variable (crates capabilities find) in
/-- The source has read a part for a backup. -/
def Sends (uuid : Uuid) (part : TransferPart) : Prop :=
  ∃ backup parent parent', find uuid = some backup ∧
    transferPart crates capabilities parent uuid backup = some (part, parent')

theorem Sends.fileName (h : Sends crates capabilities find uuid part) :
    ∃ rest, part.fileName = crates.uuidText uuid ++ rest := by
  obtain ⟨backup, parent, parent', -, hpart⟩ := h
  cases backup with
  | wings format file =>
    obtain ⟨_, _, heq⟩ := Option.map_eq_some_iff.mp hpart
    cases heq
    exact ⟨_, rfl⟩
  | btrfs sendStream ignore archiveStream =>
    unfold transferPart at hpart
    cases capabilities with
    | none => cases hpart
    | some capabilities =>
      dsimp only at hpart
      split at hpart
      · cases hpart
        exact ⟨_, rfl⟩
      · split_ifs at hpart
        obtain ⟨_, _, heq⟩ := Option.map_eq_some_iff.mp hpart
        cases heq
        exact ⟨_, rfl⟩
  | other => cases hpart

theorem appendParts_eq (crates : Crates) (capabilities : Option TransferCapabilities) (find : Uuid → Option SourceBackup)
    (backups : List Uuid) (sender : BackupSender) : ∃ chosen : List (Uuid × TransferPart),
    (backups.foldl (·.appendPart crates capabilities find) sender).form =
        sender.form ++ (chosen.flatMap fun c => partFields crates c.1 c.2) ∧
      (backups.foldl (·.appendPart crates capabilities find) sender).sent = sender.sent ++ chosen.map Prod.fst ∧
      (chosen.map Prod.fst).Sublist backups ∧ ∀ c ∈ chosen, Sends crates capabilities find c.1 c.2 := by
  induction backups generalizing sender with
  | nil => exact ⟨[], by simp, by simp, by simp, by simp⟩
  | cons uuid backups ih =>
    obtain ⟨chosen, hform, hsent, hsub, hsends⟩ := ih (sender.appendPart crates capabilities find uuid)
    rw [foldl_cons, hform, hsent, BackupSender.appendPart]
    cases hpart : (find uuid).bind (transferPart crates capabilities sender.btrfsParent uuid) with
    | none => exact ⟨chosen, rfl, rfl, hsub.cons _, hsends⟩
    | some p =>
      obtain ⟨part, parent'⟩ := p
      obtain ⟨backup, hfind, hbackup⟩ := Option.bind_eq_some_iff.mp hpart
      exact ⟨(uuid, part) :: chosen, by simp, by simp, hsub.cons_cons _,
        forall_mem_cons.mpr ⟨⟨backup, _, _, hfind, hbackup⟩, hsends⟩⟩

theorem not_isBackup_of_mem_form {server : ServerParts} {field : Field} (h : field ∈ server.form crates) :
    isBackup field = false := by
  simp only [ServerParts.form, mem_append, mem_map, mem_cons, not_mem_nil, or_false] at h
  rcases h with (((rfl | rfl) | ⟨_, _, rfl⟩) | ⟨_, _, rfl⟩) | ⟨_, _, rfl⟩ <;> rfl

theorem checksum_of_server (hfields : ∀ item ∈ items, isBackup item.1 = false)
    (h : items.foldlM (step crates) r = some r') : r'.checksum = r.checksum := by
  induction items generalizing r with
  | nil => cases h; rfl
  | cons item items ih =>
    rw [foldlM_cons, Option.bind_eq_bind, Option.bind_eq_some_iff] at h
    obtain ⟨s, hs, h⟩ := h
    have hitem : isBackup item.1 = false := hfields item mem_cons_self
    rw [ih (fun item' hmem => hfields item' (mem_cons_of_mem _ hmem)) h]
    exact checksum_of_other (uuidOf_of_not_isBackup hitem) (by rw [isBackupChecksum, hitem]; rfl) hs

/-- **A backup is deleted only if the destination holds a verified copy.**  Whatever the sender skips and whatever
goes wrong at the destination, a backup that the source deletes is held there with the bytes that were sent, was
compared with the checksum that was sent, and is in the report to the panel. -/
theorem deleted_verified {server : ServerParts} {backups : List Uuid} {items : List (Field × Io)}
    {files : Text → Option (List Byte)} {subvolumes : Uuid → Option (List Byte)}
    {delivered streamsEnd panelAccepts deleteBackups tasksEnd : Bool} {deletes : Uuid → Bool} (hnodup : backups.Nodup)
    (hlaws : ∀ u ∈ backups, UuidText crates u)
    (hitems : delivered = true → items.map Prod.fst = (transferForm crates capabilities find server backups).form)
    (hdeleted : uuid ∈ deleted deleteBackups (transferForm crates capabilities find server backups)
      (answer crates delivered files subvolumes items streamsEnd panelAccepts) tasksEnd deletes) :
    ∃ part received r, Sends crates capabilities find uuid part ∧
      destination crates files subvolumes items streamsEnd panelAccepts = some (received, r) ∧
      Holds r uuid part ∧ Compared crates items (.initial files subvolumes) uuid part ∧ uuid ∈ received.uuids := by
  rw [deleted] at hdeleted
  split_ifs at hdeleted with hsuccess
  · obtain ⟨⟨received, r⟩, hanswer⟩ := Option.isSome_iff_exists.mp
      (Bool.and_eq_true_iff.mp (Bool.and_eq_true_iff.mp hsuccess).1).1
    rw [answer] at hanswer
    split_ifs at hanswer with hdelivered
    have hitems := hitems hdelivered
    obtain ⟨hrun, -, -, rfl⟩ := receive_eq_some (Option.filter_eq_some_iff.mp hanswer).1
    obtain ⟨chosen, hform, hsent, hsub, hsends⟩ :=
      appendParts_eq crates capabilities find backups ⟨server.form crates, none, []⟩
    rw [transferForm, hform] at hitems
    rw [transferForm, hsent] at hdeleted
    obtain ⟨items₁, items₂, rfl, hitems₁, hitems₂⟩ := map_eq_append_iff.mp hitems
    rw [foldlM_append, Option.bind_eq_bind, Option.bind_eq_some_iff] at hrun
    obtain ⟨s, hs, hrun⟩ := hrun
    have hempty : s.checksum = none := checksum_of_server
      (fun item hmem => not_isBackup_of_mem_form (hitems₁ ▸ mem_map_of_mem hmem)) hs
    obtain ⟨hhandled, -⟩ := run_parts (fun c hc => hlaws _ (hsub.subset (mem_map_of_mem hc)))
      (fun c hc => (hsends c hc).fileName) (hnodup.sublist hsub) hempty hitems₂ hrun
    obtain ⟨c, hc, rfl⟩ := mem_map.mp (mem_of_mem_filter hdeleted)
    exact ⟨c.2, r.received, r, hsends c hc, hanswer, (hhandled c hc).holds, (hhandled c hc).compared.append_left hs,
      (hhandled c hc).reported⟩
  · cases hdeleted

/-- An archive without entries, and nothing else of the server. -/
def oneArchive : ServerParts := ⟨[], archiveName ++ ['.', 't', 'a', 'r'], none, none, none⟩

def oneBackup (_ : Uuid) : Option SourceBackup := some (.wings (.archive .tar) (some [0x62]))

/-- One backup is sent, verified and deleted. -/
theorem deleted_verified_one_backup :
    let sender := transferForm nilCrates none oneBackup oneArchive [0]
    let items := sender.form.map fun field => (field, Io.fine)
    deleted true sender (answer nilCrates true (fun _ => none) (fun _ => none) items true true) true (fun _ =>
      true) = [0] ∧
      ∃ part received r, Sends nilCrates none oneBackup 0 part ∧
        destination nilCrates (fun _ => none) (fun _ => none) items true true = some (received, r) ∧
        Holds r 0 part ∧ Compared nilCrates items (.initial (fun _ => none) (fun _ => none)) 0 part ∧
          0 ∈ received.uuids := by
  intro sender items
  have hdeleted : deleted true sender (answer nilCrates true (fun _ => none) (fun _ => none) items true true) true
      (fun _ => true) = [0] := by decide
  have hdigits : nilText ⊆ ['0', '1', '2', '3', '4', '5', '6', '7', '8', '9', 'a', 'b', 'c', 'd', 'e', 'f', '-'] := by
    decide
  have hlaw : UuidText nilCrates 0 := ⟨by decide, by decide, by decide, hdigits, by decide⟩
  have hitems : items.map Prod.fst = sender.form := (map_map ..).trans (map_id _)
  exact ⟨hdeleted, deleted_verified (nodup_singleton 0) (forall_mem_singleton.mpr hlaw) (fun _ => hitems)
    (hdeleted ▸ mem_singleton_self 0)⟩

end Wings.Server.BackupTransfer
