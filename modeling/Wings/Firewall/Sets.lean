import Wings.Firewall.Rules

/-!
# Wings.Firewall.Sets — source files and what is recorded about them

`server/firewall/sets.rs`: a source file lists networks, one a line; what is kept of a file is the set
it belongs to and the fingerprint it was last loaded with.

* `streamSourceFile` — the networks of a file, within the limits.
-/

namespace Wings.Firewall

open Filesystem

structure SourceFileLimits where
  maxEntries : ℕ
  maxBytes : ℕ

structure Fingerprint where
  ino : ℕ
  mtime : ℤ
  mtimeNsec : ℤ
  size : ℕ
  deriving DecidableEq

/-- What `parse_line` makes of a line: nothing, an invalid line or a network. -/
inductive ParsedLine where
  | blank
  | invalid
  | entry (network : IpCidr)
  deriving DecidableEq

/-- A line: its length in bytes, and what it parses to if it is UTF-8. -/
structure Line where
  length : ℕ
  parsed : Option ParsedLine

structure SourceFile where
  fingerprint : Fingerprint
  lines : List Line

inductive LoadError where
  | tooLarge (maxBytes : ℕ)
  | tooManyEntries (maxEntries : ℕ)
  | io
  | command
  | cleared (err : LoadError)

def LoadError.keepsEntries : LoadError → Bool
  | .cleared _ => false
  | _ => true

/-- The loop of `stream_source_file`, with the bytes and the entries read so far. -/
def streamLines (limits : SourceFileLimits) :
    List Line → (bytes : ℕ) → (entries : List IpCidr) → Except LoadError (List IpCidr)
  | [], _, entries => .ok entries
  | line :: lines, bytes, entries =>
    let bytes := bytes + line.length + 1
    if limits.maxBytes < bytes then .error (.tooLarge limits.maxBytes)
    else
      match line.parsed with
      | none => .error .io
      | some .blank => streamLines limits lines bytes entries
      | some .invalid => streamLines limits lines bytes entries
      | some (.entry network) =>
        if limits.maxEntries < entries.length + 1 then .error (.tooManyEntries limits.maxEntries)
        else streamLines limits lines bytes (entries ++ [network])

def streamSourceFile (limits : SourceFileLimits) (file : SourceFile) : Except LoadError (List IpCidr) :=
  streamLines limits file.lines 0 []

/-! ## The files of a server -/

/-- What is recorded about the file at a path. -/
structure SourceFileState where
  path : Subpath
  set : SetBase
  fingerprint : Option Fingerprint

abbrev ServerSourceFiles := List SourceFileState

abbrev Disk := Subpath → Option SourceFile

structure PendingLoad where
  path : Subpath
  set : SetBase
  file : SourceFile

namespace ServerSourceFiles

/-- `update`: files that are no longer wanted are dropped, new ones start without a fingerprint. -/
def update (files : ServerSourceFiles) (wanted : List Subpath) (set : Subpath → SetBase) :
    ServerSourceFiles :=
  (files.filter fun state => state.path ∈ wanted) ++
    (wanted.filter fun path => ¬∃ state ∈ files, state.path = path).map fun path => ⟨path, set path, none⟩

/-- The files whose fingerprint on the disk is not the recorded one. -/
def pending (files : ServerSourceFiles) (disk : Disk) : List PendingLoad :=
  files.filterMap fun state =>
    match disk state.path with
    | none => none
    | some file =>
      if state.fingerprint = some file.fingerprint then none else some ⟨state.path, state.set, file⟩

/-- What `pending` does to the records: a file that is not there is loaded again when it returns. -/
def clearMissing (files : ServerSourceFiles) (disk : Disk) : ServerSourceFiles :=
  files.map fun state =>
    match disk state.path with
    | none => { state with fingerprint := none }
    | some _ => state

/-- `record`: any result other than an emptied set counts as loaded. -/
def record (files : ServerSourceFiles) (load : PendingLoad) (result : Except LoadError Unit) : ServerSourceFiles :=
  files.map fun state =>
    if state.path = load.path then
      { state with
        fingerprint :=
          match result with
          | .error err => if err.keepsEntries then some load.file.fingerprint else none
          | .ok _ => some load.file.fingerprint }
    else state

end ServerSourceFiles

end Wings.Firewall
