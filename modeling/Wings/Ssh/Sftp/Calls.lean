import Wings.Ssh.Sftp.Session

/-!
# Wings.Ssh.Sftp.Calls — the calls that requests make

`server/filesystem/cap/mod.rs` on the tree of an SFTP session: `stat`, `open`, `mkdir`, `rename`, `unlink` and so
on, and `Filesystem::rename_path`.  A call may fail for a reason of its own, which is an input.

* `symlinkMetadata`, `metadata` — what is at a path.
-/

namespace Wings.Ssh.Sftp

open Lib Filesystem

/-- The calls that may fail for a reason of their own. -/
inductive Call where
  | readDir
  | open
  | openedPath
  | setLen
  | read
  | write
  | createDir
  | setPermissions
  | removeDir
  | removeFile
  | symlink
  | hardLink
  | copy
  | hash
  deriving DecidableEq

/-- What a request meets besides the tree. -/
structure Env where
  /-- `allow_action`: the server is not locked and the user may use SFTP. -/
  allowAction : Bool
  /-- The limiter of the connection grants one more handle. -/
  opensHandle : Bool
  /-- Modification time and mode of what is at a real path. -/
  attributes : Subpath → ℕ × ℕ
  dirLen : Subpath → ℕ
  fails : Call → Bool
  /-- How much of the data is written, if not all of it. -/
  accepted : Option ℕ
  faults : Faults

structure Metadata where
  fileType : FileType
  len : ℕ
  mtime : ℕ
  mode : ℕ
  deriving DecidableEq

structure OpenFlags where
  read : Bool
  write : Bool
  append : Bool
  create : Bool
  truncate : Bool
  exclude : Bool

/-- A file that has been opened, with the tree and the next inode then. -/
structure Opened where
  tree : Tree
  nextIno : ℕ
  location : Subpath
  ino : ℕ
  isNew : Bool

namespace Session

variable (session : Session) (env : Env) (size : ℕ → ℕ) (t : Tree)

/-! ## What is at a path -/

def metadataOf (location : Subpath) (node : Tree) : Metadata where
  fileType := typeOf node
  len := match node with
    | .leaf (.file ino) => size ino
    | .leaf (.symlink target) => target.length
    | .leaf .special => 0
    | .dir _ _ => env.dirLen location
  mtime := (env.attributes location).1
  mode := (env.attributes location).2

def symlinkMetadata (path : Subpath) : Option Metadata :=
  (session.realPath.locate t path).bind fun location => (t.lookup location).map (metadataOf env size location)

def metadata (path : Subpath) : Option Metadata :=
  (session.canonicalize t path).bind fun location => (t.lookup location).map (metadataOf env size location)

/-- The directory a call works in and the name it works on; the root has none. -/
def place (path : Subpath) : Option (Subpath × FileName) :=
  match path.getLast? with
  | none => none
  | some name => (session.canonicalize t path.dropLast).map (·, name)

def readDir (path : Subpath) : Option Subpath :=
  if env.fails .readDir then none
  else
    match (session.canonicalize t path).bind t.lookup with
    | some (.dir _ entries) => some (entries.map Prod.fst)
    | _ => none

/-- `read_link`; an absolute target leads out of the tree. -/
def readLink (path : Subpath) : Option Path :=
  match (session.realPath.locate t path).bind t.lookup with
  | some (.leaf (.symlink target)) =>
    if [.rootDir] <+: Path.components target then none else some (Path.components target)
  | _ => none

/-! ## Opening -/

def insertEntry (place : Option (Subpath × FileName)) (node : Tree) : Option (Tree × Subpath) :=
  match place with
  | none => none
  | some (d, n) =>
    match t.lookup d, t.lookup (d ++ [n]) with
    | some parent, none => if parent.isDir then some (t.insertAt d n node, d ++ [n]) else none
    | _, _ => none

def openWith (nextIno : ℕ) (path : Subpath) (flags : OpenFlags) : Option Opened :=
  if env.fails .open then none
  else if !(flags.read || flags.write || flags.append) then none
  else if flags.create && !(flags.write || flags.append) then none
  else
    match session.canonicalize t path with
    | some location =>
      match t.lookup location with
      | some (.leaf (.file ino)) =>
        if flags.create && flags.exclude then none else some ⟨t, nextIno, location, ino, false⟩
      | _ => none
    | none =>
      if flags.create then
        (insertEntry t (session.createAt t path) (.leaf (.file nextIno))).map fun (t, location) =>
          ⟨t, nextIno + 1, location, nextIno, true⟩
      else none

/-! ## Directories -/

def createDir (fault : Option MkdirError) (path : Subpath) : Except MkdirError Tree :=
  match fault with
  | some err => .error err
  | none =>
    match session.place t path with
    | none => .error .notFound
    | some (d, n) =>
      match t.lookup d with
      | none => .error .notFound
      | some parent =>
        if parent.isDir = false then .error .other
        else
          match t.lookup (d ++ [n]) with
          | some _ => .error .alreadyExists
          | none => .ok (t.insertAt d n (.dir () []))

/-- The loop over the components; `i` counts the calls. -/
def createDirs : ℕ → Tree → Subpath → Subpath → Bool × Tree
  | _, t, _, [] => (true, t)
  | i, t, done, n :: rest =>
    match session.createDir t (env.faults.mkdir i) (done ++ [n]) with
    | .ok t' => if env.faults.chown i then (false, t') else createDirs (i + 1) t' (done ++ [n]) rest
    | .error .alreadyExists => createDirs (i + 1) t (done ++ [n]) rest
    | .error _ => (false, t)

/-- `async_create_chowned_dir_all`: whether it succeeds, and the tree it leaves. -/
def createChownedDirAll (path : Subpath) : Bool × Tree :=
  if path = [] then (true, t)
  else
    match session.createDir t (env.faults.mkdir 0) path with
    | .ok t' => (!env.faults.chown 0, t')
    | .error .alreadyExists => (true, t)
    | .error .other => (false, t)
    | .error .notFound => session.createDirs env 1 t [] path

/-! ## Removing and renaming -/

def removeFile (path : Subpath) : Option Tree :=
  if env.fails .removeFile then none
  else
    match session.place t path with
    | none => none
    | some (d, n) =>
      match t.lookup (d ++ [n]) with
      | some (.leaf _) => some (t.eraseAt d n)
      | _ => none

def removeDir (path : Subpath) : Option (Tree × Subpath) :=
  if env.fails .removeDir then none
  else
    match session.place t path with
    | none => none
    | some (d, n) =>
      match t.lookup (d ++ [n]) with
      | some (.dir _ []) => some (t.eraseAt d n, d ++ [n])
      | _ => none

/-- Whether `rename(2)` lets the first replace the second. -/
def replaces (u v : Tree) : Bool := if v.isDir then u.isDir && v.entries.isEmpty else !u.isDir

def sameFile : Tree → Tree → Bool
  | .leaf (.file ino), .leaf (.file ino') => ino = ino'
  | _, _ => false

/-- `rename(2)`, with what was moved from where to where. -/
def rename (old new : Subpath) : Option (Tree × Option (Subpath × Subpath)) :=
  match session.place t old, session.place t new with
  | some (od, on), some (nd, nn) =>
    match t.lookup (od ++ [on]), t.lookup nd with
    | some u, some parent =>
      if parent.isDir = false then none
      else if od ++ [on] = nd ++ [nn] then some (t, none)
      -- a directory cannot go below itself
      else if od ++ [on] <+: nd ++ [nn] then none
      else if (t.lookup (nd ++ [nn])).any (sameFile u) then some (t, none)
      else if (t.lookup (nd ++ [nn])).all (replaces u) then
        some (t.moveTo od on nd nn u, some (od ++ [on], nd ++ [nn]))
      else none
    | _, _ => none
  | _, _ => none

end Session

/-! ## Open directories -/

/-- An open directory that is moved, or that is removed or replaced. -/
def DirHandle.relocate (f : Subpath → Option Subpath) (handle : DirHandle) : DirHandle :=
  { handle with location := handle.location.bind f }

def ServerHandle.relocate (f : Subpath → Option Subpath) : ServerHandle → ServerHandle
  | .file handle => .file handle
  | .dir handle => .dir (handle.relocate f)

def moved (change : Option (Subpath × Subpath)) (location : Subpath) : Option Subpath :=
  match change with
  | none => some location
  | some (old, new) =>
    if old <+: location then some (new ++ location.drop old.length)
    else if location = new then none
    else some location

namespace Layout

def relocate (l : Layout) (f : Subpath → Option Subpath) : Layout :=
  { l with handles := l.handles.map fun (id, handle) => (id, handle.relocate f) }

def setHandle (l : Layout) (id : ℕ) (handle : ServerHandle) : Layout :=
  { l with handles := l.handles.map fun (i, old) => if i = id then (i, handle) else (i, old) }

end Layout

namespace Session

variable (session : Session) (env : Env)

/-- The parents of the new path, for a user who may create files. -/
def makeParents (t : Tree) (new : Subpath) : Bool × Tree :=
  if session.hasPermission .fileCreate ∧ new ≠ [] then session.createChownedDirAll env t new.dropLast else (true, t)

/-- `Filesystem::rename_path`: whether it succeeds, and what it leaves. -/
def renamePath (l : Layout) (old new : Subpath) : Bool × Layout :=
  if session.isProtected l.tree old || session.isProtected l.tree new then (false, l)
  else
    let (made, t) := session.makeParents env l.tree new
    if made = false then (false, { l with tree := t })
    else if env.faults.statOld || ((session.canonicalize t old).bind t.lookup).isNone then (false, { l with tree := t })
    else
      match if env.faults.rename then none else session.rename t old new with
      | none => (false, { l with tree := t })
      | some (t', change) => (true, { l with tree := t' }.relocate (moved change))

end Session

end Wings.Ssh.Sftp
