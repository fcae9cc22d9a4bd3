import Wings.Ssh.Sftp.Calls
import Wings.Filesystem.Symlink

/-!
# Wings.Ssh.Sftp.Requests — the requests of an SFTP session

`ssh/sftp/mod.rs` and `ssh/sftp/extended.rs`.  Every request first decides from the layout, and the lengths of
files, what it answers; where bytes come into it, it says which bytes of which file.  Those are read and written in
the end (`perform`).  The history of files is not modelled: no request reads it.

* `Request`, `Reply`, `Action`.
* `Session.opendir`, `readdir`, `openFile`, `rename`, … — one definition for every request; `Session.plan`.
-/

namespace Wings.Ssh.Sftp

open Lib Filesystem

/-! ## Requests and replies -/

inductive StatusCode where
  | ok
  | eof
  | noSuchFile
  | permissionDenied
  | failure
  | badMessage
  | opUnsupported
  deriving DecidableEq

/-- What `convert_entry` puts into the attributes; the type bits are those of the entry and of what a link leads
to. -/
structure Attrs where
  size : ℕ
  mtime : ℕ
  mode : ℕ
  fileType : FileType
  target : Option FileType
  deriving DecidableEq

structure File where
  fileName : Name
  attrs : Attrs
  deriving DecidableEq

inductive Reply where
  | status (code : StatusCode)
  | handle (id : ℕ)
  | data (bytes : List UInt8)
  | name (files : List File)
  | attrs (attrs : Attrs)
  | checkFile (hashAlgorithm : Name) (hash : List UInt8)
  deriving DecidableEq

inductive Request where
  | opendir (path : Name)
  | readdir (handle : ℕ)
  | open (filename : Name) (flags : OpenFlags)
  | read (handle offset len : ℕ)
  | write (handle offset : ℕ) (data : List UInt8)
  | close (handle : ℕ)
  | stat (path : Name)
  | lstat (path : Name)
  | readlink (path : Name)
  | mkdir (path : Name) (hasPermissions : Bool)
  | rmdir (path : Name)
  | remove (filename : Name)
  | rename (oldPath newPath : Name)
  | posixRename (oldPath newPath : Name)
  | symlink (linkPath targetPath : Name)
  | hardlink (target linkName : Name)
  | copyFile (source destination : Name) (overwrite : Bool)
  /-- With the handle of a file, or with a name. -/
  | checkFile (file : ℕ ⊕ Name) (hash : Name) (startOffset length : ℕ)

inductive Action where
  | reply (reply : Reply)
  | truncate (ino : ℕ) (reply : Reply)
  | read (ino offset len : ℕ)
  /-- At an offset, or at the end. -/
  | write (ino : ℕ) (offset : Option ℕ) (data : List UInt8) (reply : Reply)
  | copy (source destination : ℕ) (accepted : Option ℕ)
  | hash (hashAlgorithm : Name) (digest : List UInt8 → List UInt8) (ino startOffset length : ℕ)

def Layout.status (l : Layout) (code : StatusCode) : Layout × Action := (l, .reply (.status code))

abbrev Layout.denied (l : Layout) : Layout × Action := l.status .permissionDenied

/-- A handle is added, if the limiter lets it. -/
def Layout.insertHandle (l : Layout) (opens : Bool) (handle : ServerHandle) : Layout × Reply :=
  let l' := { l with handleId := l.handleId + 1 }
  if opens then ({ l' with handles := l.handles ++ [(l.handleId, handle)] }, .handle l.handleId)
  else (l', .status .failure)

namespace Session

variable (session : Session) (env : Env) (size : ℕ → ℕ) (l : Layout)

def relativeText (path : Name) : Subpath := session.relativePath (Path.components path)

def convertEntry (fileName : Option FileName) (metadata : Metadata) (target : Option Metadata) : File where
  fileName := match fileName with
    | some name => name.lossy.1
    | none => [slash]
  attrs :=
    { size := metadata.len
      mtime := metadata.mtime
      mode := metadata.mode
      fileType := metadata.fileType
      target := target.map (·.fileType) }

/-! ## Listing -/

def opendir (path : Name) : Layout × Action :=
  if !env.allowAction then l.denied
  else if session.maxHandlesPerChannel ≤ l.handles.length then l.status .failure
  else if !session.hasPermission .fileRead then l.denied
  else
    match session.canonicalize l.tree (session.relativeText path) with
    | none => l.status .noSuchFile
    | some path =>
      if session.isIgnored l.tree path .dir then l.status .noSuchFile
      else
        match session.readDir env l.tree path with
        | none => l.status .noSuchFile
        | some names =>
          let (l, reply) := l.insertHandle env.opensHandle (.dir ⟨path, some path, names, 0⟩)
          (l, .reply reply)

/-- The loop of `readdir`: the files to send, the names that are left, and how many have been sent in all. -/
def readdirLoop (handle : DirHandle) : Subpath → List File → ℕ → List File × Subpath × ℕ
  | [], files, consumed => (files, [], consumed)
  | name :: pending, files, consumed =>
    let path := handle.path ++ [name]
    match handle.location.bind fun d => (l.tree.lookup (d ++ [name])).map (metadataOf env size (d ++ [name])) with
    | none => readdirLoop handle pending files consumed
    | some metadata =>
      if session.mayIgnore && session.isIgnored l.tree path metadata.fileType then readdirLoop handle pending files
        consumed
      else
        let target := if metadata.fileType = .symlink then session.metadata env size l.tree path else none
        let files := files ++ [convertEntry (some name) metadata target]
        if session.directoryEntryLimit ≤ consumed + 1 ∨ session.directoryEntrySendAmount ≤ files.length then
          (files, pending, consumed + 1)
        else readdirLoop handle pending files (consumed + 1)

def readdir (id : ℕ) : Layout × Action :=
  if !env.allowAction then l.denied
  else
    match l.handles.lookup id with
    | some (.dir handle) =>
      if session.directoryEntryLimit ≤ handle.consumed then l.status .eof
      else
        let (files, pending, consumed) := session.readdirLoop env size l handle handle.pending [] handle.consumed
        let l := l.setHandle id (.dir { handle with pending, consumed })
        if files = [] then l.status .eof else (l, .reply (.name files))
    | _ => l.status .noSuchFile

/-! ## Attributes -/

def stat (path : Name) : Layout × Action :=
  if !env.allowAction then l.denied
  else if !session.hasPermission .fileRead then l.denied
  else
    match session.canonicalize l.tree (session.relativeText path) with
    | none => l.status .noSuchFile
    | some path =>
      match session.metadata env size l.tree path with
      | none => l.status .noSuchFile
      | some metadata =>
        if session.isIgnored l.tree path metadata.fileType then l.status .noSuchFile
        else (l, .reply (.attrs (convertEntry path.getLast? metadata none).attrs))

def targetMetadata (path : Subpath) (metadata : Metadata) : Option Metadata :=
  if metadata.fileType = .symlink then session.metadata env size l.tree path else none

def lstat (path : Name) : Layout × Action :=
  if !env.allowAction then l.denied
  else if !session.hasPermission .fileRead then l.denied
  else
    let path := session.canonicalizeParent l.tree (session.relativeText path)
    match session.symlinkMetadata env size l.tree path with
    | none => l.status .noSuchFile
    | some metadata =>
      if session.isIgnored l.tree path metadata.fileType then l.status .noSuchFile
      else (l, .reply (.attrs
        (convertEntry path.getLast? metadata (session.targetMetadata env size l path metadata)).attrs))

def fileName (path : Path) : Option FileName :=
  match path.getLast? with
  | some (.normal name) => some name
  | _ => none

/-- The target of a link is taken as a path from the root. -/
def readlink (path : Name) : Layout × Action :=
  if !env.allowAction then l.denied
  else if !session.hasPermission .fileRead then l.denied
  else
    match session.readLink l.tree (session.relativeText path) with
    | none => l.status .noSuchFile
    | some target =>
      let path := session.relativePath target
      match session.symlinkMetadata env size l.tree path with
      | none => l.status .noSuchFile
      | some metadata =>
        -- the root is recognised by how it is written
        if target ≠ [] ∧ target ≠ [.curDir] ∧ session.isIgnoredBelow l.tree path metadata.fileType = true then
          l.status .noSuchFile
        else (l, .reply (.name [convertEntry (fileName target) metadata
          (session.targetMetadata env size l path metadata)]))

/-! ## Directories and names -/

def mkdir (path : Name) (hasPermissions : Bool) : Layout × Action :=
  if !env.allowAction then l.denied
  else if session.readOnly then l.denied
  else if !session.hasPermission .fileCreate then l.denied
  else
    let path := session.canonicalizeParent l.tree (session.relativeText path)
    if session.isIgnored l.tree path .dir then l.status .noSuchFile
    else if (session.symlinkMetadata env size l.tree path).isSome then l.status .ok
    else
      match session.createDir l.tree (if env.fails .createDir then some .other else none) path with
      | .error _ => l.status .noSuchFile
      | .ok t =>
        let l := { l with tree := t }
        if hasPermissions && env.fails .setPermissions then l.status .failure else l.status .ok

def rmdir (path : Name) : Layout × Action :=
  if !env.allowAction then l.denied
  else if session.readOnly then l.denied
  else if !session.hasPermission .fileDelete then l.denied
  else
    match session.canonicalize l.tree (session.relativeText path) with
    | none => l.status .noSuchFile
    | some path =>
      if path = [] then l.status .noSuchFile
      else
        match session.symlinkMetadata env size l.tree path with
        | none => l.status .ok
        | some metadata =>
          if metadata.fileType ≠ .dir then l.status .noSuchFile
          else if session.isIgnored l.tree path .dir then l.status .noSuchFile
          else if session.isProtected l.tree path then l.status .failure
          else
            match session.removeDir env l.tree path with
            | none => l.status .failure
            | some (t, location) =>
              ({ l with tree := t }.relocate fun d => if d = location then none else some d).status .ok

def remove (filename : Name) : Layout × Action :=
  if !env.allowAction then l.denied
  else if session.readOnly then l.denied
  else if !session.hasPermission .fileDelete then l.denied
  else
    let path := session.relativeText filename
    let path := (session.canonicalize l.tree path).getD (session.canonicalizeParent l.tree path)
    match session.symlinkMetadata env size l.tree path with
    | none => l.status .ok
    | some metadata =>
      if metadata.fileType = .dir then l.status .noSuchFile
      else if session.isIgnored l.tree path metadata.fileType then l.status .noSuchFile
      else if session.isProtected l.tree path then l.status .noSuchFile
      else
        match session.removeFile env l.tree path with
        | none => l.status .noSuchFile
        | some t => { l with tree := t }.status .ok

/-- `rename` and `posix-rename`, which differ in what they do if there is something at the new path. -/
def renameRequest (replaces : Bool) (oldPath newPath : Name) : Layout × Action :=
  if !env.allowAction then l.denied
  else if session.readOnly then l.denied
  else if !session.hasPermission .fileUpdate then l.denied
  else
    match session.canonicalize l.tree (session.relativeText oldPath) with
    | none => l.status .noSuchFile
    | some oldPath =>
      let newPath := session.canonicalizeParent l.tree (session.relativeText newPath)
      match session.symlinkMetadata env size l.tree oldPath with
      | none => l.status .noSuchFile
      | some metadata =>
        if (!replaces && (session.symlinkMetadata env size l.tree newPath).isSome) ||
            session.isIgnored l.tree oldPath metadata.fileType || session.isIgnored l.tree newPath metadata.fileType then
          l.status .failure
        else
          let (renamed, l) := session.renamePath env l oldPath newPath
          if renamed then l.status .ok else l.status .noSuchFile

def renameFile (oldPath newPath : Name) : Layout × Action := session.renameRequest env size l false oldPath newPath

def posixRename (oldPath newPath : Name) : Layout × Action := session.renameRequest env size l true oldPath newPath

def symlink (linkPath targetPath : Name) : Layout × Action :=
  if !env.allowAction then l.denied
  else if session.readOnly then l.denied
  else if !session.hasPermission .fileCreate then l.denied
  else if linkPath = targetPath then l.status .noSuchFile
  else
    let linkPath := session.relativeText linkPath
    let (contents, targetPath) := resolveSymlinkContents (linkPath.map .normal) (Path.components targetPath)
    match session.symlinkMetadata env size l.tree targetPath with
    | none => l.status .noSuchFile
    | some metadata =>
      if session.isIgnored l.tree targetPath metadata.fileType || session.isIgnored l.tree linkPath .file then
        l.status .noSuchFile
      else
        match if env.fails .symlink then none
          else insertEntry l.tree (session.place l.tree linkPath) (.leaf (.symlink contents)) with
        | none => l.status .failure
        | some (t, _) => { l with tree := t }.status .ok

def hardlink (target linkName : Name) : Layout × Action :=
  if !env.allowAction then l.denied
  else if session.readOnly then l.denied
  else if !session.hasPermission .fileCreate then l.denied
  else
    let linkPath := session.canonicalizeParent l.tree (session.relativeText linkName)
    if linkPath.map .normal = Path.components target then l.status .noSuchFile
    else
      match session.canonicalize l.tree (session.relativeText target) with
      | none => l.status .noSuchFile
      | some targetPath =>
        match (session.realPath.locate l.tree targetPath).bind l.tree.lookup with
        | some (.leaf (.file ino)) =>
          if session.isIgnored l.tree targetPath .file || session.isIgnored l.tree linkPath .file then l.status .noSuchFile
          else
            match if env.fails .hardLink then none
              else insertEntry l.tree (session.place l.tree linkPath) (.leaf (.file ino)) with
            | none => l.status .failure
            | some (t, _) => { l with tree := t }.status .ok
        | _ => l.status .noSuchFile

/-! ## Files -/

/-- The answer to `open`, with what has been made of the file. -/
def opened (l : Layout) (o : Opened) (truncated : Bool) (reply : Reply) : Layout × Action :=
  if o.isNew || truncated then (l, .truncate o.ino reply) else (l, .reply reply)

/-- `ServerFile::open_checked` and the rest of `open`. -/
def openChecked (path : Subpath) (flags : OpenFlags) : Layout × Action :=
  match session.openWith env l.tree l.nextIno path flags with
  | none => l.status .failure
  | some o =>
    let l := { l with tree := o.tree, nextIno := o.nextIno }
    let previousSize := if o.isNew then 0 else size o.ino
    if session.mayIgnore && (env.fails .openedPath || session.isIgnored l.tree o.location .file) then
      opened l o false (.status .failure)
    else if flags.truncate && 0 < previousSize && (env.fails .setLen || !(flags.write || flags.append)) then
      opened l o false (.status .failure)
    else
      let (l, reply) := l.insertHandle env.opensHandle
        (.file ⟨path, o.ino, flags.read, flags.write || flags.append, flags.append, none⟩)
      opened l o (flags.truncate && 0 < previousSize) reply

/-- Whether `open` goes on, by what is at the path. -/
def opensAt (create : Bool) : Option Metadata → Bool
  | some metadata => metadata.fileType = .file
  | none => create

def openFile (filename : Name) (flags : OpenFlags) : Layout × Action :=
  let isWrite := flags.write || flags.append || flags.create || flags.truncate
  if !env.allowAction then l.denied
  else if session.maxHandlesPerChannel ≤ l.handles.length then l.status .failure
  else if (flags.write || flags.append) && !session.hasPermission .fileUpdate then l.denied
  else if flags.create && !session.hasPermission .fileCreate then l.denied
  else if flags.truncate && !session.hasPermission .fileDelete then l.denied
  else if flags.read && !session.hasPermission .fileReadContent then l.denied
  else
    let path := session.relativeText filename
    let path := (session.canonicalize l.tree path).getD (session.canonicalizeParent l.tree path)
    if !opensAt flags.create (session.symlinkMetadata env size l.tree path) then l.status .noSuchFile
    else if session.mayIgnore && session.isIgnored l.tree path .file then l.status .noSuchFile
    else if isWrite && session.readOnly then l.denied
    else session.openChecked env size l path flags

def maxRead : ℕ := 256 * 1024

def read (id offset len : ℕ) : Layout × Action :=
  if !env.allowAction then l.denied
  else
    match l.handles.lookup id with
    | some (.file handle) =>
      let room := min len maxRead
      let bytesRead := min room (size handle.ino - offset)
      let taken := l.setHandle id (.file { handle with eofAt := none })
      if handle.eofAt = some offset then taken.status .eof
      else if env.fails .read || !handle.readable || maxOffset < offset then taken.status .failure
      else if bytesRead = 0 then taken.status .eof
      else
        let atEof := bytesRead < room ∧ size handle.ino ≤ offset + bytesRead
        (l.setHandle id (.file { handle with eofAt := if atEof then some (offset + bytesRead) else none }),
          .read handle.ino offset bytesRead)
    | _ => l.status .noSuchFile

def write (id offset : ℕ) (data : List UInt8) : Layout × Action :=
  if !env.allowAction then l.denied
  else
    match l.handles.lookup id with
    | some (.file handle) =>
      if session.readOnly then l.denied
      else if maxOffset < offset + data.length then l.status .badMessage
      -- nothing is called for no data
      else if !handle.writable && data ≠ [] then l.status .failure
      else
        let offset := if handle.append then none else some offset
        match env.accepted with
        | some n => (l, .write handle.ino offset (data.take n) (.status .failure))
        | none => (l.setHandle id (.file { handle with eofAt := none }), .write handle.ino offset data (.status .ok))
    | _ => l.status .noSuchFile

def close (id : ℕ) : Layout × Action := { l with handles := l.handles.filter (·.1 ≠ id) }.status .ok

/-- `quota_copy` between two paths of the server. -/
def quotaCopy (source destination : Subpath) : Layout × Action :=
  if destination = [] then l.status .noSuchFile
  else if (session.metadata env size l.tree destination).any (·.fileType ≠ .file) then l.status .noSuchFile
  else
    match session.openWith env l.tree l.nextIno source ⟨true, false, false, false, false, false⟩,
      session.openWith env l.tree l.nextIno destination ⟨false, true, false, true, true, false⟩ with
    | some reader, some writer =>
      let l := { l with tree := writer.tree, nextIno := writer.nextIno }
      if env.fails .copy then (l, .truncate writer.ino (.status .noSuchFile))
      else (l, .copy reader.ino writer.ino env.accepted)
    | _, _ => l.status .noSuchFile

def copyFile (source destination : Name) (overwrite : Bool) : Layout × Action :=
  if !env.allowAction then l.denied
  else if session.readOnly then l.denied
  else if !(session.hasPermission .fileReadContent && session.hasPermission .fileCreate) then l.denied
  else
    match session.canonicalize l.tree (session.relativeText source) with
    | none => l.status .noSuchFile
    | some source =>
      match session.symlinkMetadata env size l.tree source with
      | none => l.status .noSuchFile
      | some metadata =>
        let destination := session.canonicalizeParent l.tree (session.relativeText destination)
        if metadata.fileType ≠ .file then l.status .noSuchFile
        else if session.isIgnored l.tree source .file then l.status .noSuchFile
        else if session.isIgnored l.tree destination .file then l.status .noSuchFile
        else
          match session.symlinkMetadata env size l.tree destination with
          | none => session.quotaCopy env size l source destination
          | some metadata =>
            if metadata.fileType = .dir then l.status .noSuchFile
            else if !overwrite then l.status .failure
            else session.quotaCopy env size l source destination

/-- The part of `hash` before the first comma. -/
def hashAlgorithm (hash : Name) : Name := hash.takeWhile (· ≠ 0x2C)

def checkFile (file : ℕ ⊕ Name) (hash : Name) (startOffset length : ℕ) : Layout × Action :=
  if !env.allowAction then l.denied
  else if !session.hasPermission .fileReadContent then l.denied
  else
    let name := match file with
      | .inr name => some (session.relativeText name)
      | .inl id =>
        match l.handles.lookup id with
        | some (.file handle) => some (handle.path.map FileName.lossy)
        | _ => none
    match name.bind (session.canonicalize l.tree) with
    | none => l.status .noSuchFile
    | some path =>
      match (session.realPath.locate l.tree path).bind l.tree.lookup with
      | none => l.status .opUnsupported
      | some (.leaf (.file ino)) =>
        if session.isIgnored l.tree path .file then l.status .noSuchFile
        else if env.fails .open then l.status .noSuchFile
        else if maxOffset < startOffset then l.status .failure
        else
          match session.digest (hashAlgorithm hash) with
          | none => l.status .badMessage
          | some digest =>
            if env.fails .hash then l.status .failure else (l, .hash (hashAlgorithm hash) digest ino startOffset length)
      | some _ => l.status .noSuchFile

/-! ## One request -/

/-- What a request makes of the layout, and what it then does with bytes. -/
def plan : Request → Layout × Action
  | .opendir path => session.opendir env l path
  | .readdir handle => session.readdir env size l handle
  | .open filename flags => session.openFile env size l filename flags
  | .read handle offset len => read env size l handle offset len
  | .write handle offset data => session.write env l handle offset data
  | .close handle => close l handle
  | .stat path => session.stat env size l path
  | .lstat path => session.lstat env size l path
  | .readlink path => session.readlink env size l path
  | .mkdir path hasPermissions => session.mkdir env size l path hasPermissions
  | .rmdir path => session.rmdir env size l path
  | .remove filename => session.remove env size l filename
  | .rename oldPath newPath => session.renameFile env size l oldPath newPath
  | .posixRename oldPath newPath => session.posixRename env size l oldPath newPath
  | .symlink linkPath targetPath => session.symlink env size l linkPath targetPath
  | .hardlink target linkName => session.hardlink env l target linkName
  | .copyFile source destination overwrite => session.copyFile env size l source destination overwrite
  | .checkFile file hash startOffset length => session.checkFile env l file hash startOffset length

end Session

/-! ## Bytes -/

/-- How much of a buffer is hashed when `totalBytesRead` have been read with it. -/
def hashedBytes (length bytesRead totalBytesRead : ℕ) : ℕ :=
  if 0 < length then
    if length < totalBytesRead then length - (totalBytesRead - bytesRead) else bytesRead
  else bytesRead

/-- The loop of `check-file`: what goes into the hash, from the buffers that are read. -/
def hashedOf (length : ℕ) : ℕ → List (List UInt8) → List UInt8
  | _, [] => []
  | totalBytesRead, buffer :: buffers =>
    let totalBytesRead := totalBytesRead + buffer.length
    buffer.take (hashedBytes length buffer.length totalBytesRead) ++
      if length ≠ 0 ∧ length ≤ totalBytesRead then [] else hashedOf length totalBytesRead buffers

def bufferSize : ℕ := 32 * 1024

/-- The bytes after an action, and the reply. -/
def perform (content : ℕ → List UInt8) : Action → (ℕ → List UInt8) × Reply
  | .reply reply => (content, reply)
  | .truncate ino reply => (Function.update content ino [], reply)
  | .read ino offset len => (content, .data (((content ino).drop offset).take len))
  | .write ino offset data reply =>
    (Function.update content ino (store (content ino) (offset.getD (content ino).length) data), reply)
  | .copy source destination accepted =>
    let content := Function.update content destination []
    match accepted with
    | none => (Function.update content destination (content source), .status .ok)
    | some n => (Function.update content destination ((content source).take n), .status .noSuchFile)
  | .hash hashAlgorithm digest ino startOffset length =>
    (content, .checkFile hashAlgorithm (digest (hashedOf length 0 (((content ino).drop startOffset).toChunks bufferSize))))

namespace Session

variable (session : Session)

def step (s : State) (request : Request × Env) : State × Reply :=
  let (l, action) := session.plan request.2 (fun ino => (s.content ino).length) s.layout request.1
  let (content, reply) := perform s.content action
  (⟨l, content⟩, reply)

end Session

end Wings.Ssh.Sftp
