import Wings.Lib.Schedule
import Wings.Path

/-!
# Wings.Archive.Writers — a feeder and its writer threads

`with_writers` of `archive/extract/writers.rs` with the limit and the shared error of `threading.rs`.  The feeder
reads entries and queues a job for each of them with the writer that its directory is assigned to; a large file is
queued with a channel for its chunks.  Data in flight holds permits.  Every blocking call, every read and every
outcome of a file operation is a step of its own.
-/

namespace Wings.Archive.Writers

def chunkBytes : ℕ := 1024 * 1024

def inFlightChunks : ℕ := 64

def writerQueueJobs : ℕ := inFlightChunks

def chunkCapacity : ℕ := 2

/-! ## Jobs and calls -/

inductive Content where
  /-- A small file with its data and their permit. -/
  | whole
  /-- A large file with the receiver of its chunks. -/
  | chunks
  /-- A symlink, and whether it has a modified time. -/
  | symlink (stamped : Bool)

/-- A queued job, numbered in the order of their sending. -/
structure Job where
  id : ℕ
  path : Path
  content : Content

/-- A call of the feeder: `file` with the size that the archive states and the bytes that its reader has, or
`symlink`. -/
inductive Call where
  | file (path : Path) (size length : ℕ)
  | symlink (path : Path) (stamped : Bool)

/-- A chunk channel: the chunks in it, and which of its ends are alive. -/
structure Channel where
  messages : ℕ
  sender : Bool
  receiver : Bool

/-! ## The feeder and the writers -/

inductive Feeder where
  | idle
  | acquireWhole (path : Path)
  /-- A permit is held. -/
  | readWhole (path : Path)
  /-- In `send_blocking` of a job; for a large file, with the bytes that follow. -/
  | sendJob (path : Path) (content : Content) (left : ℕ)
  | acquireChunk (id left : ℕ)
  | readChunk (id left : ℕ)
  | sendChunk (id left : ℕ)
  /-- `feed` has returned. -/
  | returned (ok : Bool)

inductive Writer where
  | waiting
  | checking (job : Job)
  | creating (job : Job)
  | writing (id : ℕ)
  | receiving (id : ℕ)
  | writingChunk (id : ℕ)
  | stamping (id : ℕ)
  | exited

inductive Result where
  | applied
  | failed
  | dropped

structure State (n : ℕ) where
  calls : List Call
  feeder : Feeder
  lastParent : Option Path
  /-- `InFlightLimit::count`. -/
  count : ℕ
  channels : ℕ → Channel
  nextId : ℕ
  queues : Fin n → List Job
  closed : Fin n → Bool
  writers : Fin n → Writer
  aborted : Bool
  /-- `SharedError` has an error. -/
  stopped : Bool
  results : ℕ → Option Result

namespace State

variable {n : ℕ}

def init (n : ℕ) (calls : List Call) : State n where
  calls := calls
  feeder := .idle
  lastParent := none
  count := 0
  channels _ := ⟨0, false, false⟩
  nextId := 0
  queues _ := []
  closed _ := false
  writers _ := .waiting
  aborted := false
  stopped := false
  results _ := none

def setChannel (st : State n) (id : ℕ) (channel : Channel) : State n :=
  { st with channels := Function.update st.channels id channel }

def setWriter (st : State n) (w : Fin n) (writer : Writer) : State n :=
  { st with writers := Function.update st.writers w writer }

def release (st : State n) : State n := { st with count := st.count - 1 }

/-- The receiver of a chunk channel is dropped; the chunks in it go with the last end. -/
def dropReceiver (st : State n) (id : ℕ) : State n :=
  let channel := st.channels id
  if channel.sender then st.setChannel id { channel with receiver := false }
  else { st with count := st.count - channel.messages }.setChannel id ⟨0, false, false⟩

def dropSender (st : State n) (id : ℕ) : State n :=
  let channel := st.channels id
  if channel.receiver then st.setChannel id { channel with sender := false }
  else { st with count := st.count - channel.messages }.setChannel id ⟨0, false, false⟩

def dropContent (st : State n) (job : Job) : State n :=
  match job.content with
  | .whole => st.release
  | .chunks => st.dropReceiver job.id
  | .symlink _ => st

/-- `apply_job` returns: with an error, the shared error is set. -/
def finish (st : State n) (w : Fin n) (id : ℕ) (result : Result) (error : Bool) : State n :=
  { st.setWriter w .waiting with
    stopped := st.stopped || error
    results := Function.update st.results id (some result) }

end State

/-! ## Steps -/

section Steps

variable {n : ℕ} [NeZero n] (hash : Path → ℕ)

/-- `shard`: the writer of a path, by its parent directory. -/
def shard (n : ℕ) [NeZero n] (path : Path) : Fin n := Fin.ofNat n (hash (path.parent.getD path))

/-- Whether `file` has to call `create_dir_all`. -/
def newParent (lastParent : Option Path) (path : Path) : Option Path :=
  match path.parent with
  | some parent => if lastParent = some parent then none else some parent
  | none => none

/-- A call begins; `ok` is the outcome of `create_dir_all`. -/
def State.beginCall (st : State n) (ok : Bool) : Option (State n) :=
  match st.calls with
  | [] => none
  | .symlink path stamped :: calls => some { st with calls, feeder := .sendJob path (.symlink stamped) 0 }
  | .file path size length :: calls =>
    let feeder := if size ≤ chunkBytes then .acquireWhole path else .sendJob path .chunks length
    match newParent st.lastParent path with
    | none => some { st with calls, feeder }
    | some parent => if ok then some { st with calls, feeder, lastParent := some parent } else some { st with calls }

/-- `send_blocking` of a job: it fails when the writer has closed its queue, and waits while the queue is full. -/
def State.sendJob (st : State n) (path : Path) (content : Content) (left : ℕ) : Option (State n) :=
  let w := shard hash n path
  if st.closed w then
    match content with
    | .whole => some { st.release with feeder := .idle }
    | _ => some { st with feeder := .idle }
  else if (st.queues w).length < writerQueueJobs then
    let job : Job := ⟨st.nextId, path, content⟩
    let st' := { st with
      nextId := st.nextId + 1
      queues := Function.update st.queues w (st.queues w ++ [job]) }
    match content with
    | .chunks => some { st'.setChannel st.nextId ⟨0, true, true⟩ with feeder := .acquireChunk st.nextId left }
    | _ => some { st' with feeder := .idle }
  else none

/-- The feeder goes on; `ok` is the outcome of a file operation or of a read. -/
def State.feed (st : State n) (ok : Bool) : Option (State n) :=
  match st.feeder with
  | .idle => st.beginCall ok
  | .acquireWhole path =>
    if st.count < inFlightChunks then some { st with count := st.count + 1, feeder := .readWhole path } else none
  | .readWhole path =>
    if ok then some { st with feeder := .sendJob path .whole 0 } else some { st.release with feeder := .idle }
  | .sendJob path content left => st.sendJob hash path content left
  | .acquireChunk id left =>
    if st.count < inFlightChunks then some { st with count := st.count + 1, feeder := .readChunk id left } else none
  | .readChunk id left =>
    -- nothing more to read, or the read fails: `file` returns and drops the sender
    if ok && 0 < left then some { st with feeder := .sendChunk id (left - chunkBytes) }
    else some { st.release.dropSender id with feeder := .idle }
  | .sendChunk id left =>
    if (st.channels id).receiver then
      if (st.channels id).messages < chunkCapacity then
        let channel := { st.channels id with messages := (st.channels id).messages + 1 }
        some { st.setChannel id channel with feeder := .acquireChunk id left }
      else none
    else some { st.release.dropSender id with feeder := .idle }
  | .returned _ => none

/-- `apply_job` creates the file or the symlink. -/
def State.create (st : State n) (w : Fin n) (job : Job) (ok : Bool) : State n :=
  match job.content with
  | .whole => if ok then st.setWriter w (.writing job.id) else (st.dropContent job).finish w job.id .failed true
  | .chunks => if ok then st.setWriter w (.receiving job.id) else (st.dropContent job).finish w job.id .failed true
  | .symlink stamped =>
    if ok then if stamped then st.setWriter w (.stamping job.id) else st.finish w job.id .applied false
    -- logged only
    else st.finish w job.id .failed false

/-- A writer goes on; `ok` is the outcome of a file operation. -/
def State.write (st : State n) (w : Fin n) (ok : Bool) : Option (State n) :=
  match st.writers w with
  | .waiting =>
    match st.queues w with
    | job :: queue => some ({ st with queues := Function.update st.queues w queue }.setWriter w (.checking job))
    | [] =>
      match st.closed w, st.feeder with
      | true, _ | _, .returned _ => some (st.setWriter w .exited)
      | _, _ => none
  | .checking job =>
    if st.aborted || st.stopped then
      some (({ st with closed := Function.update st.closed w true }.dropContent job).finish w job.id .dropped false)
    else some (st.setWriter w (.creating job))
  | .creating job => some (st.create w job ok)
  | .writing id => some (st.release.finish w id (if ok then .applied else .failed) (!ok))
  | .receiving id =>
    if 0 < (st.channels id).messages then
      let channel := { st.channels id with messages := (st.channels id).messages - 1 }
      some ((st.setChannel id channel).setWriter w (.writingChunk id))
    else if (st.channels id).sender then none
    else some ((st.dropReceiver id).finish w id (if ok then .applied else .failed) (!ok))
  | .writingChunk id =>
    if ok then some (st.release.setWriter w (.receiving id))
    else some ((st.release.dropReceiver id).finish w id .failed true)
  | .stamping id => some (st.finish w id (if ok then .applied else .failed) (!ok))
  | .exited => none

inductive Action (n : ℕ) where
  | feed (ok : Bool)
  /-- `feed` makes no more calls and returns. -/
  | leave (ok : Bool)
  | write (w : Fin n) (ok : Bool)
  | abort

def step (st : State n) : Action n → Option (State n)
  | .feed ok => st.feed hash ok
  | .leave ok =>
    match st.feeder with
    | .idle => some { st with feeder := .returned ok }
    | _ => none
  | .write w ok => st.write w ok
  | .abort => if st.aborted then none else some { st with aborted := true }

end Steps

/-- All threads have ended, so `with_writers` returns. -/
def State.Finished {n : ℕ} (st : State n) : Prop := (∃ ok, st.feeder = .returned ok) ∧ ∀ w, st.writers w = .exited

def State.isOk {n : ℕ} (st : State n) : Bool :=
  match st.feeder with
  | .returned ok => ok && !st.stopped
  | _ => false

end Wings.Archive.Writers
