import Mathlib.Data.List.AList
import Wings.Lib.Inodes
import Wings.Lib.Run
import Wings.Path

/-!
# Wings.Routes.UploadFile — resumable uploads

The `PATCH` route of `upload/file.rs`: slices of a file are appended to a staging file, and the last one puts it in
the place of its target.  Requests for one staging path exclude each other with a lock that is kept in a bounded
cache.  The key of a lock is the path as it was asked for; `place` is where that path leads, through directories
that are links and mounts that servers share.
-/

namespace Wings.Routes.UploadFile

open Lib

/-! ## Staging paths -/

def partSuffix : Name := [0x2E, 0x75, 0x70, 0x6C, 0x6F, 0x61, 0x64, 0x2D, 0x70, 0x61, 0x72, 0x74]

def nameMax : ℕ := 255

theorem isFileName_append_partSuffix (name : FileName) : IsFileName (name.1 ++ partSuffix) := by
  have hlength : 12 ≤ (name.1 ++ partSuffix).length := by simp [partSuffix]
  refine ⟨fun h => ?_, fun h => ?_, fun h => ?_, fun h => ?_⟩
  · rw [h] at hlength
    simp at hlength
  · rcases List.mem_append.mp h with h | h
    · exact name.2.2.1 h
    · exact absurd h (by decide)
  · rw [h] at hlength
    simp at hlength
  · rw [h] at hlength
    simp at hlength

/-- `part_path`: none if the path has no file name, or one that is too long for the suffix. -/
def partPath (path : Path) : Option Path :=
  match path.getLast? with
  | some (.normal name) =>
    if nameMax < name.lossy.1.length + partSuffix.length then none
    else some (path.dropLast ++ [.normal ⟨name.lossy.1 ++ partSuffix, isFileName_append_partSuffix name.lossy⟩])
  | _ => none

/-! ## Requests -/

abbrev Key := ℕ × Path

/-- A request, with its headers `Upload-Offset`, `Upload-Complete` and `Upload-Length`. -/
structure Request where
  server : ℕ
  path : Path
  part : Path
  offset : ℕ
  body : List Byte
  complete : Bool
  length : Option ℕ
  staged : partPath path = some part

namespace Request

/-- The key of the lock, and where the slices go. -/
def key (r : Request) : Key := (r.server, r.part)

def target (r : Request) : Key := (r.server, r.path)

/-- How long the staging file is after the request. -/
def size (r : Request) : ℕ := r.offset + r.body.length

end Request

def inPlaceOverwriteLimit : ℕ := 64 * 1024 * 1024

def maxLocks : ℕ := 10240

/-- Where a request is; `lock` is the lock that it was given for its path. -/
inductive Phase where
  | waiting (lock : ℕ)
  | locked (lock : ℕ)
  | checked (lock : ℕ)
  /-- The staging file is open, and so many bytes of the body are written. -/
  | appending (lock ino done : ℕ)
  | written (lock : ℕ)
  /-- The target is overwritten in place from the staging file, so many bytes so far. -/
  | copying (lock src dst pos : ℕ)
  | copied (lock : ℕ)
  | moving (lock : ℕ)
  | ended

/-- The lock that the request waits for or holds. -/
def Phase.lock : Phase → Option ℕ
  | .waiting lock | .locked lock | .checked lock | .appending lock _ _ | .written lock | .copying lock _ _ _
  | .copied lock | .moving lock => some lock
  | .ended => none

def Phase.isHolding : Phase → Bool
  | .waiting _ | .ended => false
  | _ => true

structure State where
  disk : Inodes Key Byte
  /-- `UPLOAD_LOCKS`. -/
  locks : AList fun _ : Key => ℕ
  nextLock : ℕ
  /-- Who holds the lock with a number, of those made for a key. -/
  holders : Key → ℕ → Option ℕ
  requests : ℕ → Option (Request × Phase)

namespace State

def init (disk : Inodes Key Byte) : State := ⟨disk, ∅, 0, fun _ _ => none, fun _ => none⟩

def setPhase (st : State) (i : ℕ) (r : Request) (phase : Phase) : State :=
  { st with requests := Function.update st.requests i (some (r, phase)) }

def setHolder (st : State) (k : Key) (lock : ℕ) (holder : Option ℕ) : State :=
  { st with holders := Function.update st.holders k (Function.update (st.holders k) lock holder) }

/-- The request is answered; a lock that it holds is released. -/
def finish (st : State) (i : ℕ) (r : Request) (phase : Phase) : State :=
  let st := st.setPhase i r .ended
  match phase.lock with
  | some lock => if phase.isHolding then st.setHolder r.key lock none else st
  | none => st

end State

inductive Action where
  | start (i : ℕ) (r : Request)
  | evict (k : Key)
  | acquire (i : ℕ)
  | check (i : ℕ)
  | openPart (i : ℕ)
  | write (i n : ℕ)
  | endAppend (i : ℕ)
  | finalize (i : ℕ)
  | copy (i n : ℕ)
  | failCopy (i : ℕ)
  | endCopy (i : ℕ)
  | removePart (i : ℕ)
  | rename (i : ℕ)
  | stop (i : ℕ)

/-- What the client is told, and what is found under the target at the end of `finalize_upload`. -/
inductive Reply where
  | silent
  | conflict (diskOffset : ℕ)
  | appended (size : ℕ)
  | wrongLength (size total : ℕ)
  | finalized (r : Request) (target : Option (List Byte))
  | failed

def overwrite (content : List Byte) (pos : ℕ) (bytes : List Byte) : List Byte :=
  content.take pos ++ List.replicate (pos - content.length) 0 ++ bytes ++ content.drop (pos + bytes.length)

variable (place : Key → Key)

/-- `finalize_upload`: the target is overwritten in place if it is a file and the upload small, or else replaced. -/
def finalize (st : State) (i : ℕ) (r : Request) (lock : ℕ) : State :=
  match st.disk.names (place r.target), st.disk.names (place r.key) with
  | some dst, some src =>
    if r.size ≤ inPlaceOverwriteLimit then
      { st with disk := st.disk.setContent dst [] }.setPhase i r (.copying lock src dst 0)
    else st.setPhase i r (.moving lock)
  | _, _ => st.setPhase i r (.moving lock)

def step (st : State) : Action → State × Reply
  | .start i r =>
    match st.requests i with
    | some _ => (st, .silent)
    | none =>
      match st.locks.lookup r.key with
      | some lock => (st.setPhase i r (.waiting lock), .silent)
      | none =>
        ({ st with locks := st.locks.insert r.key st.nextLock, nextLock := st.nextLock + 1 }.setPhase i r
          (.waiting st.nextLock), .silent)
  | .evict k =>
    if maxLocks < st.locks.entries.length then ({ st with locks := st.locks.erase k }, .silent) else (st, .silent)
  | .acquire i =>
    match st.requests i with
    | some (r, .waiting lock) =>
      match st.holders r.key lock with
      | none => ((st.setPhase i r (.locked lock)).setHolder r.key lock (some i), .silent)
      | some _ => (st, .silent)
    | _ => (st, .silent)
  | .check i =>
    match st.requests i with
    | some (r, .locked lock) =>
      let diskOffset := ((st.disk.file (place r.key)).map List.length).getD 0
      if r.offset = diskOffset then (st.setPhase i r (.checked lock), .silent)
      else (st.finish i r (.locked lock), .conflict diskOffset)
    | _ => (st, .silent)
  | .openPart i =>
    match st.requests i with
    | some (r, .checked lock) =>
      let (ino, disk) := st.disk.openFile (place r.key)
      ({ st with disk }.setPhase i r (.appending lock ino 0), .silent)
    | _ => (st, .silent)
  | .write i n =>
    match st.requests i with
    | some (r, .appending lock ino done) =>
      let bytes := (r.body.drop done).take n
      ({ st with disk := st.disk.setContent ino (st.disk.content ino ++ bytes) }.setPhase i r
        (.appending lock ino (done + bytes.length)), .silent)
    | _ => (st, .silent)
  | .endAppend i =>
    match st.requests i with
    | some (r, .appending lock _ done) =>
      if done = r.body.length then (st.setPhase i r (.written lock), .silent) else (st, .silent)
    | _ => (st, .silent)
  | .finalize i =>
    match st.requests i with
    | some (r, .written lock) =>
      if r.complete then
        match r.length with
        | some total =>
          if r.size = total then (finalize place st i r lock, .silent)
          else (st.finish i r (.written lock), .wrongLength r.size total)
        | none => (finalize place st i r lock, .silent)
      else (st.finish i r (.written lock), .appended r.size)
    | _ => (st, .silent)
  | .copy i n =>
    match st.requests i with
    | some (r, .copying lock src dst pos) =>
      let bytes := ((st.disk.content src).drop pos).take n
      ({ st with disk := st.disk.setContent dst (overwrite (st.disk.content dst) pos bytes) }.setPhase i r
        (.copying lock src dst (pos + bytes.length)), .silent)
    | _ => (st, .silent)
  | .failCopy i =>
    match st.requests i with
    | some (r, .copying lock _ _ _) => (st.setPhase i r (.moving lock), .silent)
    | _ => (st, .silent)
  | .endCopy i =>
    match st.requests i with
    | some (r, .copying lock src _ pos) =>
      if (st.disk.content src).length ≤ pos then (st.setPhase i r (.copied lock), .silent) else (st, .silent)
    | _ => (st, .silent)
  | .removePart i =>
    match st.requests i with
    | some (r, .copied lock) =>
      let disk := st.disk.unlink (place r.key)
      ({ st with disk }.finish i r (.copied lock), .finalized r (disk.file (place r.target)))
    | _ => (st, .silent)
  | .rename i =>
    match st.requests i with
    | some (r, .moving lock) =>
      match st.disk.rename (place r.key) (place r.target) with
      | some disk => ({ st with disk }.finish i r (.moving lock), .finalized r (disk.file (place r.target)))
      | none => (st.finish i r (.moving lock), .failed)
    | _ => (st, .silent)
  | .stop i =>
    match st.requests i with
    | some (r, phase) => (st.finish i r phase, .failed)
    | none => (st, .silent)

end Wings.Routes.UploadFile
