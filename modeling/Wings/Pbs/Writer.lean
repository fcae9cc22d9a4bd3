import Wings.Lib.LittleEndian
import Wings.Lib.Schedule
import Wings.Path

/-!
# Wings.Pbs.Writer — an archive is uploaded chunk by chunk

`upload_archive_named` of `pbs-client/src/writer.rs`.  A producer takes the chunks of the stream, has those that
are not known yet encoded by blocking tasks that end in any order, and passes them on in the order of the stream; a
consumer uploads the new ones and registers all of them in batches.  Between the two is a bounded channel.  The two
halves take turns at every `await`; each outcome of a task, of a request or of the chunker is a step of its own.

* `ChunkMessage`, `Slot`, `Request` — what is passed on, what is being encoded, and what is asked of the server.
-/

namespace Wings.Pbs.Writer

open Lib

abbrev Digest := List Byte

def indexBatchSize : ℕ := 256

def channelCapacity : ℕ := 4

def u64 (n : ℕ) : ℕ := n % 2 ^ 64

/-- The functions of other crates: the hash, `zstd::bulk::compress` and the checksum of a blob. -/
structure Codec where
  sha256 : List Byte → Digest
  compress : List Byte → Option (List Byte)
  crc32 : List Byte → ℕ

structure EncodedBlob where
  data : List Byte
  digest : Digest
  plaintextSize : ℕ

def uncompressedBlobMagic : List Byte := [66, 171, 56, 7, 190, 131, 112, 161]

def compressedBlobMagic : List Byte := [49, 185, 88, 66, 111, 182, 163, 127]

def encodeBlobWithDigest (codec : Codec) (plaintext : List Byte) (digest : Digest) : EncodedBlob :=
  let (magic, payload) :=
    match codec.compress plaintext with
    | some compressed =>
      if compressed.length < plaintext.length then (compressedBlobMagic, compressed) else (uncompressedBlobMagic,
        plaintext)
    | none => (uncompressedBlobMagic, plaintext)
  { data := magic ++ leBytes 4 (codec.crc32 payload) ++ payload, digest, plaintextSize := plaintext.length }

/-- `index_csum`: the checksum of the end offsets and digests. -/
def indexCsum (codec : Codec) (entries : List (ℕ × Digest)) : Digest :=
  codec.sha256 (entries.flatMap fun e => leBytes 8 e.1 ++ e.2)

inductive ChunkMessage where
  | known (digest : Digest) (size : ℕ)
  | new (blob : EncodedBlob)

abbrev Message := Except String ChunkMessage

abbrev Item := Except String (List Byte)

/-- A future of `buffered`: it has its result, or its blocking task is running. -/
inductive Slot where
  | ready (message : Message)
  | encoding (chunk : List Byte) (digest : Digest)

inductive Request where
  | dynamicIndex (archiveName : String)
  | dynamicChunk (wid : ℕ) (digest : Digest) (size encodedSize : ℕ) (data : List Byte)
  | registerChunks (wid : ℕ) (digestList : List Digest) (offsetList : List ℕ)
  | dynamicClose (wid chunkCount size : ℕ) (csum : Digest)

structure UploadedArchive where
  fileName : String
  size : ℕ
  csum : Digest

/-- Where the consumer waits, and in the end what the upload returned. -/
inductive Consumer where
  /-- For the answer to the first request; the producer does not run yet. -/
  | connecting
  | receiving
  /-- For the answer to the upload of a chunk. -/
  | uploading (digest : Digest) (startOffset : ℕ)
  /-- For the answer to a batch; the channel may have been closed before. -/
  | registering (last : Bool)
  | closing
  | finished (archive : UploadedArchive)
  | failed

structure State where
  archiveName : String
  stream : List Item
  known : List Digest
  buffer : List Slot
  /-- The message that `tx.send` waits to send. -/
  held : Option Message
  /-- The producer is in its loop, and its end of the channel is open. -/
  producing : Bool
  channel : List Message
  consumer : Consumer
  wid : ℕ
  entries : List (ℕ × Digest)
  digestList : List Digest
  offsetList : List ℕ
  endOffset : ℕ
  requests : List Request

def State.initial (archiveName : String) (items : List Item) (knownChunks : List Digest) : State where
  archiveName
  stream := items
  known := knownChunks
  buffer := []
  held := none
  producing := true
  channel := []
  consumer := .connecting
  wid := 0
  entries := []
  digestList := []
  offsetList := []
  endOffset := 0
  requests := [.dynamicIndex archiveName]

/-- The producer runs while the consumer does; an error of either ends both. -/
def Consumer.isRunning : Consumer → Bool
  | .receiving | .uploading _ _ | .registering _ => true
  | _ => false

inductive Action where
  | poll
  /-- A blocking task has ended, with the error of `spawn_blocking` if there is one. -/
  | encoded (i : ℕ) (error : Option String)
  | next
  | send
  | recv
  /-- A request is answered, with a number if the answer is one, or it has failed. -/
  | respond (answer : Option (Option ℕ))

variable (codec : Codec) (compressionThreads : ℕ)

/-! ## The producer -/

/-- `buffered` asks the chunker for one more chunk. -/
def State.poll (st : State) : Option State :=
  if st.producing && st.held.isNone && st.buffer.length < max compressionThreads 1 then
    match st.stream with
    | [] => none
    | .error e :: stream => some { st with stream, buffer := st.buffer ++ [.ready (.error e)] }
    | .ok chunk :: stream =>
      let digest := codec.sha256 chunk
      if digest ∈ st.known then
        some { st with stream, buffer := st.buffer ++ [.ready (.ok (.known digest chunk.length))] }
      else
        some { st with stream, known := digest :: st.known, buffer := st.buffer ++ [.encoding chunk digest] }
  else none

def State.encoded (st : State) (i : ℕ) (error : Option String) : Option State :=
  match st.buffer[i]? with
  | some (.encoding chunk digest) =>
    let message : Message :=
      match error with
      | none => .ok (.new (encodeBlobWithDigest codec chunk digest))
      | some e => .error e
    some { st with buffer := st.buffer.set i (.ready message) }
  | _ => none

/-- `messages.next()`: the oldest future, or the end of the stream. -/
def State.next (st : State) : Option State :=
  if st.producing && st.held.isNone then
    match st.buffer, st.stream with
    | .ready message :: buffer, _ => some { st with buffer, held := some message }
    | [], [] => some { st with producing := false }
    | _, _ => none
  else none

/-- `tx.send`, after which an error ends the loop. -/
def State.send (st : State) : Option State :=
  match st.held with
  | some message =>
    if st.channel.length < channelCapacity then
      some { st with held := none, channel := st.channel ++ [message], producing := st.producing && message.toBool }
    else none
  | none => none

/-! ## The consumer -/

def State.registerChunks (st : State) (last : Bool) : State :=
  { st with
    consumer := .registering last
    requests := st.requests ++ [.registerChunks st.wid st.digestList st.offsetList] }

def State.push (st : State) (digest : Digest) (startOffset : ℕ) : State :=
  let st := { st with
    consumer := .receiving
    entries := st.entries ++ [(st.endOffset, digest)]
    digestList := st.digestList ++ [digest]
    offsetList := st.offsetList ++ [startOffset] }
  if indexBatchSize ≤ st.digestList.length then st.registerChunks false else st

def State.close (st : State) : State :=
  { st with
    consumer := .closing
    requests := st.requests ++ [.dynamicClose st.wid st.entries.length st.endOffset (indexCsum codec st.entries)] }

def State.recv (st : State) : Option State :=
  match st.channel with
  | .error _ :: channel => some { st with channel, consumer := .failed }
  | .ok (.known digest size) :: channel =>
    some ({ st with channel, endOffset := u64 (st.endOffset + size) }.push digest st.endOffset)
  | .ok (.new blob) :: channel =>
    some { st with
      channel
      endOffset := u64 (st.endOffset + blob.plaintextSize)
      consumer := .uploading blob.digest st.endOffset
      requests := st.requests ++ [.dynamicChunk st.wid blob.digest blob.plaintextSize blob.data.length blob.data] }
  | [] =>
    if st.producing then none
    else if st.digestList = [] then some (st.close codec)
    else some (st.registerChunks true)

/-- The request that is waited for has been answered. -/
def State.answered (st : State) (value : Option ℕ) : Option State :=
  match st.consumer with
  | .connecting =>
    match value with
    | some wid => some { st with wid, consumer := .receiving }
    | none => some { st with consumer := .failed }
  | .uploading digest startOffset => some (st.push digest startOffset)
  | .registering last =>
    let st := { st with consumer := .receiving, digestList := [], offsetList := [] }
    some (if last then st.close codec else st)
  | .closing =>
    some { st with consumer := .finished ⟨st.archiveName, st.endOffset, indexCsum codec st.entries⟩ }
  | _ => none

def State.respond (st : State) (answer : Option (Option ℕ)) : Option State :=
  match st.consumer, answer with
  | .receiving, _ | .finished _, _ | .failed, _ => none
  | _, none => some { st with consumer := .failed }
  | _, some value => st.answered codec value

/-! ## Both -/

def step (st : State) : Action → Option State
  | .poll => if st.consumer.isRunning then st.poll codec compressionThreads else none
  | .encoded i error => if st.consumer.isRunning then st.encoded codec i error else none
  | .next => if st.consumer.isRunning then st.next else none
  | .send => if st.consumer.isRunning then st.send else none
  | .recv =>
    match st.consumer with
    | .receiving => st.recv codec
    | _ => none
  | .respond answer => st.respond codec answer

/-- The states that an upload can get to. -/
def Reachable (archiveName : String) (items : List Item) (knownChunks : List Digest) (st : State) : Prop :=
  ∃ actions, Scheduled (step codec compressionThreads) (fun _ _ => True)
    (.initial archiveName items knownChunks) actions st

end Wings.Pbs.Writer
