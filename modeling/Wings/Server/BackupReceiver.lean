import Wings.Lib.Text
import Wings.Path
import Wings.Server.Permissions

/-!
# Wings.Server.BackupReceiver — the form of a server transfer, as it is received

The field loop of `routes/api/transfers/mod.rs` with `BackupReceiver` of `server/backup/transfer.rs`.  The fields
of the form come one after the other.  An archive is extracted, a backup is stored, and the checksum of what was
received waits for a field with the checksum that the sender states.  Most failures with a backup are only logged.
-/

namespace Wings.Server.BackupTransfer

open Lib

/-! ## File formats -/

inductive ArchiveFormat where
  | tar
  | tarGz
  | tarXz
  | tarLzip
  | tarBz2
  | tarLz4
  | tarZstd
  | zip
  | sevenZip
  deriving DecidableEq

def ArchiveFormat.extension : ArchiveFormat → Text
  | .tar => ['t', 'a', 'r']
  | .tarGz => ['t', 'a', 'r', '.', 'g', 'z']
  | .tarXz => ['t', 'a', 'r', '.', 'x', 'z']
  | .tarLzip => ['t', 'a', 'r', '.', 'l', 'z']
  | .tarBz2 => ['t', 'a', 'r', '.', 'b', 'z', '2']
  | .tarLz4 => ['t', 'a', 'r', '.', 'l', 'z', '4']
  | .tarZstd => ['t', 'a', 'r', '.', 'z', 's', 't']
  | .zip => ['z', 'i', 'p']
  | .sevenZip => ['7', 'z']

def ArchiveFormat.variants : List ArchiveFormat :=
  [.tar, .tarGz, .tarXz, .tarLzip, .tarBz2, .tarLz4, .tarZstd, .zip, .sevenZip]

/-- `ArchiveFormat::from_str`: the first format whose extension the name ends in. -/
def ArchiveFormat.fromStr (name : Text) : Option ArchiveFormat :=
  variants.find? fun format => '.' :: format.extension <:+ name

inductive CompressionType where
  | none
  | gz
  | xz
  | lzip
  | bz2
  | lz4
  | zstd
  deriving DecidableEq

def CompressionType.suffix : CompressionType → Text
  | .none => []
  | .gz => ['.', 'g', 'z']
  | .xz => ['.', 'x', 'z']
  | .lzip => ['.', 'l', 'z']
  | .bz2 => ['.', 'b', 'z', '2']
  | .lz4 => ['.', 'l', 'z', '4']
  | .zstd => ['.', 'z', 's', 't']

def CompressionType.fromFileName (name : Text) : CompressionType :=
  ([.gz, .xz, .lzip, .bz2, .lz4, .zstd].find? fun c : CompressionType => c.suffix <:+ name).getD .none

inductive WingsBackupFile where
  | archive (format : ArchiveFormat)
  | dump (extension : Text) (compression : CompressionType)
  deriving DecidableEq

namespace WingsBackupFile

def extension : WingsBackupFile → Text
  | .archive format => format.extension
  | .dump extension compression => extension ++ compression.suffix

def archiveFormat : WingsBackupFile → Option ArchiveFormat
  | .archive format => some format
  | .dump _ _ => none

def databaseDumpExtensions : List Text :=
  [['s', 'q', 'l'], ['a', 'r', 'c', 'h', 'i', 'v', 'e'], ['r', 'd', 'b'], ['d', 'u', 'm', 'p']]

/-- `parse_dump`, with `parse_dump_extension`. -/
def parseDump (rest : Text) : Option WingsBackupFile :=
  if rest = [] ∨ ['.', 'p', 'a', 'r', 't'] <:+ rest ∨ ['.', 's', '3', '.'] <:+: rest then none
  else
    let compression := CompressionType.fromFileName rest
    let base := rest.take (rest.length - compression.suffix.length)
    if base ∈ databaseDumpExtensions then some (.dump base compression) else none

end WingsBackupFile

/-! ## Fields -/

structure Field where
  name : Option Text
  fileName : Option Text
  contentType : Option Text
  data : List Byte

/-- What becomes of the operations that a field leads to. -/
structure Io where
  /-- The archive is extracted, and read to its end. -/
  extracts : Bool
  /-- The field is read to its end. -/
  reads : Bool
  /-- The file or the directory is created. -/
  creates : Bool
  /-- Copying fails after some bytes. -/
  breaksAfter : Option ℕ
  flushes : Bool
  /-- `btrfs receive` is started, and ends with success. -/
  spawns : Bool
  exits : Bool
  /-- What `btrfs subvolume show` says of the new subvolume. -/
  generation : Name

def archiveName : Text := ['a', 'r', 'c', 'h', 'i', 'v', 'e']
def checksumName : Text := ['c', 'h', 'e', 'c', 'k', 's', 'u', 'm']
def installLogsName : Text := ['i', 'n', 's', 't', 'a', 'l', 'l', '-', 'l', 'o', 'g', 's']
def diffDbName : Text := ['d', 'i', 'f', 'f', '-', 'd', 'b']
def resourceHistoryName : Text := ['r', 'e', 's', 'o', 'u', 'r', 'c', 'e', '-', 'h', 'i', 's', 't', 'o', 'r', 'y']
def backupPrefix : Text := ['b', 'a', 'c', 'k', 'u', 'p', '-']
def ignorePrefix : Text := backupPrefix ++ ['i', 'g', 'n', 'o', 'r', 'e', '-']
def wingsType : Text := ['b', 'a', 'c', 'k', 'u', 'p', '/', 'w', 'i', 'n', 'g', 's']
def dumpType : Text := wingsType ++ ['-', 'd', 'u', 'm', 'p']
def btrfsType : Text := ['b', 'a', 'c', 'k', 'u', 'p', '/', 'b', 't', 'r', 'f', 's']

def maxChecksumLen : ℕ := 1024
def maxIgnoreLen : ℕ := 64 * 1024

def stripPrefix (start text : Text) : Option Text := if start <+: text then some (text.drop start.length) else none

/-- `read_limited_multipart_field`, whose text is returned in UTF-8. -/
def readLimited (field : Field) (io : Io) (maxLen : ℕ) : Option Name :=
  if io.reads ∧ field.data.length ≤ maxLen then some (toStringLossy field.data) else none

inductive ChecksumType where
  | sha256
  | btrfsSubvolume
  deriving DecidableEq

inductive BackupAdapter where
  | wings
  | btrfs
  deriving DecidableEq

structure BackupMigration where
  checksum : Name
  checksumType : ChecksumType
  browsable : Bool
  streaming : Bool
  adapter : BackupAdapter

structure ReceivedBackups where
  uuids : List Uuid
  migrations : Uuid → Option BackupMigration

/-- The loop's variables, the files of the backup directory, and the streams that `btrfs receive` has made
subvolumes of. -/
structure Receiver where
  archiveChecksum : Option Name
  archiveReceived : Bool
  checksum : Option Name
  received : ReceivedBackups
  files : Text → Option (List Byte)
  subvolumes : Uuid → Option (List Byte)

/-- Functions of other crates: the SHA-256 of some bytes, in hexadecimal; UUIDs as texts. -/
structure Crates where
  checksum : List Byte → Name
  parseUuid : Text → Option Uuid
  uuidText : Uuid → Text

variable (crates : Crates)

/-! ## Backups -/

def isBackup (field : Field) : Bool := field.name.any fun name => backupPrefix <+: name

def uuidOf (field : Field) : Option Uuid := (field.name.bind (stripPrefix backupPrefix)).bind crates.parseUuid

/-- The format of a Wings backup, if its content type and file name are accepted. -/
def wingsFormat (uuid : Uuid) (contentType fileName : Text) : Option WingsBackupFile :=
  if ['.', '.'] <:+: fileName ∨ '/' ∈ fileName ∨ '\\' ∈ fileName then none
  else if contentType = dumpType then
    (stripPrefix (crates.uuidText uuid ++ ['.']) fileName).bind WingsBackupFile.parseDump
  else (ArchiveFormat.fromStr fileName).map .archive

inductive BackupField where
  | wings (fileName : Text) (format : WingsBackupFile)
  | btrfs

def backupOf (uuid : Uuid) (field : Field) : Option BackupField :=
  match field.fileName, field.contentType with
  | some fileName, some contentType =>
    if contentType = wingsType ∨ contentType = dumpType then
      (wingsFormat crates uuid contentType fileName).map (.wings fileName)
    else if contentType = btrfsType then some .btrfs
    else none
  | _, _ => none

/-- What is in a file after copying to it. -/
def copied (field : Field) (io : Io) : List Byte :=
  match io.breaksAfter with
  | none => field.data
  | some n => field.data.take n

def Receiver.handleWings (r : Receiver) (uuid : Uuid) (fileName : Text) (format : WingsBackupFile) (field : Field)
    (io : Io) :
    Receiver :=
  if io.creates then
    let r := { r with files := Function.update r.files fileName (some (copied field io)) }
    if io.breaksAfter.isNone && io.flushes then
      let checksum := crates.checksum field.data
      let migration : BackupMigration :=
        { checksum
          checksumType := .sha256
          browsable := format.archiveFormat = some .zip || format.archiveFormat = some .sevenZip
          streaming := false
          adapter := .wings }
      { r with
        received := ⟨r.received.uuids ++ [uuid], Function.update r.received.migrations uuid (some migration)⟩
        checksum := some checksum }
    else r
  else r

def Receiver.handleBtrfs (r : Receiver) (uuid : Uuid) (field : Field) (io : Io) : Receiver :=
  -- a subvolume that is there already is deleted
  let r := { r with subvolumes := Function.update r.subvolumes uuid none }
  if io.creates && io.spawns && io.breaksAfter.isNone && io.exits then
    let migration : BackupMigration :=
      { checksum := io.generation, checksumType := .btrfsSubvolume, browsable := true, streaming := true,
        adapter := .btrfs }
    { r with
      subvolumes := Function.update r.subvolumes uuid (some field.data)
      received := ⟨r.received.uuids ++ [uuid], Function.update r.received.migrations uuid (some migration)⟩
      checksum := some (crates.checksum field.data) }
  else r

/-- A field that is not one of a backup itself. -/
def Receiver.handleOther (r : Receiver) (field : Field) (io : Io) : Option Receiver :=
  let name := field.name.getD []
  if checksumName <:+: name then
    match r.checksum with
    | none => none
    | some checksum =>
      (readLimited field io maxChecksumLen).bind fun expected =>
        if checksum = expected then some { r with checksum := none } else none
  else
    match (stripPrefix ignorePrefix name).bind crates.parseUuid with
    | some _ => (readLimited field io maxIgnoreLen).map fun _ => r
    | none => some r

def Receiver.handleField (r : Receiver) (field : Field) (io : Io) : Option Receiver :=
  match uuidOf crates field with
  | none => r.handleOther crates field io
  | some uuid =>
    match backupOf crates uuid field with
    | some (.wings fileName format) => some (r.handleWings crates uuid fileName format field io)
    | some .btrfs => some (r.handleBtrfs crates uuid field io)
    | none => some r

/-! ## The loop -/

def step (r : Receiver) (item : Field × Io) : Option Receiver :=
  let (field, io) := item
  if field.name = some archiveName then
    if io.extracts then
      some { r with archiveReceived := true, archiveChecksum := some (crates.checksum field.data) }
    else none
  else if field.name = some checksumName then
    match r.archiveChecksum with
    | none => none
    | some checksum =>
      (readLimited field io maxChecksumLen).bind fun expected =>
        if checksum = expected then some { r with archiveChecksum := none } else none
  else if field.name = some installLogsName ∨ field.name = some diffDbName ∨ field.name = some resourceHistoryName then
    -- only a field that breaks off while it is read is an error
    if io.creates && !io.reads then none else some r
  else if isBackup field then r.handleField crates field io
  else some r

def Receiver.initial (files : Text → Option (List Byte)) (subvolumes : Uuid → Option (List Byte)) : Receiver where
  archiveChecksum := none
  archiveReceived := false
  checksum := none
  received := ⟨[], fun _ => none⟩
  files
  subvolumes

/-- The checks after the last field. -/
def Receiver.finish (r : Receiver) : Option ReceivedBackups :=
  if r.archiveReceived && r.archiveChecksum.isNone && r.checksum.isNone then some r.received else none

/-- The field loop: what it returns, and what it leaves behind. -/
def receive (files : Text → Option (List Byte)) (subvolumes : Uuid → Option (List Byte)) (form : List (Field × Io)) :
    Option (ReceivedBackups × Receiver) :=
  (form.foldlM (step crates) (.initial files subvolumes)).bind fun r => r.finish.map (·, r)

end Wings.Server.BackupTransfer
