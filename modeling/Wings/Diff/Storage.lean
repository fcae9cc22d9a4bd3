import Mathlib.Algebra.BigOperators.Group.List.Basic
import Wings.Lib.RowTable
import Wings.Path

/-!
# Wings.Diff.Storage — the history database of a server

`diff/storage.rs`: a table of files and a table of revisions.  A revision is a snapshot (its payload is
the compressed content) or a delta (compressed with the content of its base as the dictionary); a
snapshot and the deltas that lead back to it form a chain, named by the id of the snapshot.

* the queries, the insertions, `reconstruct`, and the deletions of whole chains.
-/

namespace Wings.Diff

open Lib

abbrev Bytes := List Byte

/-- The compressor and the hash: a payload decodes to what was encoded, with the same dictionary; a
compressed frame is never empty. -/
structure Codec where
  Hash : Type
  hashEq : DecidableEq Hash
  hash : Bytes → Hash
  compress : Bytes → Bytes
  decodeAll : Bytes → Option Bytes
  encodeWithDictionary : (content dict : Bytes) → Bytes
  decodeWithDictionary : (payload dict : Bytes) → Option Bytes
  decodeAll_compress : ∀ c, decodeAll (compress c) = some c
  decode_encode : ∀ c d, decodeWithDictionary (encodeWithDictionary c d) d = some c
  compress_ne_nil : ∀ c, compress c ≠ []
  encode_ne_nil : ∀ c d, encodeWithDictionary c d ≠ []

instance (C : Codec) : DecidableEq C.Hash := C.hashEq

structure FileRow where
  id : ℕ
  path : String
  deriving DecidableEq

structure Revision (C : Codec) where
  id : ℕ
  fileId : ℕ
  chainId : ℕ
  baseId : Option ℕ
  payload : Bytes
  contentHash : C.Hash

/-- The database: row ids are keys, paths are unique, a revision belongs to a row of `files`. -/
structure Storage (C : Codec) where
  files : RowTable FileRow FileRow.id
  revisions : RowTable (Revision C) Revision.id
  paths : ∀ f ∈ files.rows, ∀ f' ∈ files.rows, f.path = f'.path → f = f'
  owned : ∀ r ∈ revisions.rows, ∃ f ∈ files.rows, f.id = r.fileId

inductive StorageError where
  | notFound (revision id : ℕ)
  | decodeSnapshot
  | decodeDelta
  | hashMismatchAtHead (revision : ℕ)
  | hashMismatch (id step : ℕ)
  | foreignKey
  | uniquePath
  deriving DecidableEq

namespace Storage

variable {C : Codec}

def empty : Storage C where
  files := .empty
  revisions := .empty
  paths := nofun
  owned := nofun

/-! ## Queries -/

def findFile (s : Storage C) (path : String) : Option ℕ :=
  (s.files.rows.find? fun f => f.path = path).map FileRow.id

def latestRevision (s : Storage C) (fileId : ℕ) : Option (Revision C) :=
  s.revisions.newest fun r => r.fileId = fileId

def latestChainId (s : Storage C) (fileId : ℕ) : Option ℕ :=
  (s.latestRevision fileId).map Revision.chainId

def ofFile (s : Storage C) (fileId : ℕ) : List (Revision C) :=
  s.revisions.rows.filter fun r => r.fileId = fileId

def ofChain (s : Storage C) (fileId chainId : ℕ) : List (Revision C) :=
  s.revisions.rows.filter fun r => r.fileId = fileId ∧ r.chainId = chainId

/-- `SELECT DISTINCT chain_id FROM revisions WHERE file_id = ?`. -/
def chainIds (s : Storage C) (fileId : ℕ) : List ℕ :=
  ((s.ofFile fileId).map Revision.chainId).dedup

def chainCount (s : Storage C) (fileId : ℕ) : ℕ := (s.chainIds fileId).length

def currentChainLength (s : Storage C) (fileId : ℕ) : ℕ :=
  match s.latestChainId fileId with
  | none => 0
  | some chainId => (s.ofChain fileId chainId).length

def payloadBytes (rows : List (Revision C)) : ℕ := (rows.map fun r => r.payload.length).sum

def filePayloadBytes (s : Storage C) (fileId : ℕ) : ℕ := payloadBytes (s.ofFile fileId)

def totalPayloadBytes (s : Storage C) : ℕ := payloadBytes s.revisions.rows

/-! ## Insertions -/

def upsertFile (s : Storage C) (path : String) : ℕ × Storage C :=
  match h : s.files.rows.find? fun f => f.path = path with
  | some f => (f.id, s)
  | none =>
    (s.files.nextKey, { s with
        files := s.files.insert ⟨s.files.nextKey, path⟩ rfl
        paths := by
          have hnew : ∀ f ∈ s.files.rows, f.path ≠ path := by simpa using h
          intro f hf f' hf' heq
          rcases RowTable.mem_insert.mp hf with hf | rfl <;>
            rcases RowTable.mem_insert.mp hf' with hf' | rfl
          · exact s.paths f hf f' hf' heq
          · exact absurd heq (hnew f hf)
          · exact absurd heq.symm (hnew f' hf')
          · rfl
        owned := fun r hr =>
          let ⟨f, hf, hid⟩ := s.owned r hr
          ⟨f, RowTable.mem_insert.mpr (.inl hf), hid⟩ })

/-- A new row of `revisions`; the chain and the base may depend on the new id. -/
def insertRow (s : Storage C) (fileId : ℕ) (chain : ℕ → ℕ × Option ℕ) (content payload : Bytes) :
    Except StorageError (ℕ × Storage C) :=
  let id := s.revisions.nextKey
  if hfile : ∃ f ∈ s.files.rows, f.id = fileId then
    .ok (id, { s with
        revisions := s.revisions.insert ⟨id, fileId, (chain id).1, (chain id).2, payload, C.hash content⟩ rfl
        owned := fun r hr => (RowTable.mem_insert.mp hr).elim (s.owned r) fun h => h ▸ hfile })
  else .error .foreignKey

def insertSnapshotPayload (s : Storage C) (fileId : ℕ) (content payload : Bytes) :
    Except StorageError (ℕ × Storage C) :=
  s.insertRow fileId (fun id => (id, none)) content payload

def insertDeltaPayload (s : Storage C) (fileId baseId baseChainId : ℕ) (content payload : Bytes) :
    Except StorageError (ℕ × Storage C) :=
  s.insertRow fileId (fun _ => (baseChainId, some baseId)) content payload

def insertSnapshot (s : Storage C) (fileId : ℕ) (content : Bytes) : Except StorageError (ℕ × Storage C) :=
  s.insertSnapshotPayload fileId content (C.compress content)

def insertDelta (s : Storage C) (fileId baseId baseChainId : ℕ) (baseContent content : Bytes) :
    Except StorageError (ℕ × Storage C) :=
  s.insertDeltaPayload fileId baseId baseChainId content (C.encodeWithDictionary content baseContent)

/-- A delta against `base`, or a new snapshot when the delta is not at least 10% smaller than one. -/
def insertSuccessor (s : Storage C) (fileId : ℕ) (base : Revision C) (baseContent content : Bytes) :
    Except StorageError (ℕ × Storage C) :=
  let delta := C.encodeWithDictionary content baseContent
  let snapshot := C.compress content
  if snapshot.length * 9 ≤ delta.length * 10 then s.insertSnapshotPayload fileId content snapshot
  else s.insertDeltaPayload fileId base.id base.chainId content delta

/-! ## Reading a revision back -/

/-- The loop of `reconstruct` that collects the rows from `rid` back to the snapshot, at most `fuel`
of them; the result is in the order of the chain. -/
def collectChain (s : Storage C) (id : ℕ) :
    (fuel : ℕ) → (rid : ℕ) → List (Revision C) → Except StorageError (List (Revision C))
  | 0, _, chain => .ok chain
  | fuel + 1, rid, chain =>
    match s.revisions.find rid with
    | none => .error (.notFound rid id)
    | some row =>
      match row.baseId with
      | none => .ok (row :: chain)
      | some base => s.collectChain id fuel base (row :: chain)

/-- One step of the second loop: the next content, checked against the stored hash. -/
def decodeStep (id : ℕ) (content : Bytes) (step : Revision C) : Except StorageError Bytes :=
  match C.decodeWithDictionary step.payload content with
  | none => .error .decodeDelta
  | some next => if C.hash next = step.contentHash then .ok next else .error (.hashMismatch id step.id)

def decodeHead (head : Revision C) : Except StorageError Bytes :=
  match C.decodeAll head.payload with
  | none => .error .decodeSnapshot
  | some content =>
    if C.hash content = head.contentHash then .ok content else .error (.hashMismatchAtHead head.id)

def decodeChain (id : ℕ) : List (Revision C) → Except StorageError Bytes
  | [] => .error (.notFound id id)
  | head :: steps => do steps.foldlM (decodeStep id) (← decodeHead head)

def reconstruct (s : Storage C) (id : ℕ) : Except StorageError Bytes := do
  decodeChain id (← s.collectChain id 1000 id [])

/-! ## Deletions -/

/-- The rows whose file and chain do not satisfy the predicate. -/
def dropChains (s : Storage C) (drop : (fileId chainId : ℕ) → Bool) : Storage C where
  files := s.files
  revisions := s.revisions.select fun r => !drop r.fileId r.chainId
  paths := s.paths
  owned := fun r hr => s.owned r (RowTable.mem_select.mp hr).1

/-- Only the newest `keepChains` chains of the file stay.  (From 2^63 on `keep_chains as i64` is
negative, which is no limit; no table has that many rows, so `take` gives the same list.) -/
def pruneOldChains (s : Storage C) (fileId keepChains : ℕ) : Storage C :=
  if keepChains = 0 then s
  else
    let chains := ((s.chainIds fileId).mergeSort fun a b => b ≤ a).take keepChains
    if chains.length < keepChains then s
    else
      match chains.getLast? with
      | none => s
      | some minKeep => s.dropChains fun f c => f = fileId ∧ c < minKeep

/-- The bytes freed and the storage without the chain. -/
def dropChain (s : Storage C) (fileId chainId : ℕ) : ℕ × Storage C :=
  (payloadBytes (s.ofChain fileId chainId), s.dropChains fun f c => f = fileId ∧ c = chainId)

def dropOldestChain (s : Storage C) (fileId : ℕ) (protectChainId : Option ℕ) (minChainsToKeep : ℕ) : ℕ × Storage C :=
  if s.chainCount fileId ≤ max minChainsToKeep 1 then (0, s)
  else
    match ((s.chainIds fileId).filter fun c => protectChainId ≠ some c).min? with
    | none => (0, s)
    | some oldest => s.dropChain fileId oldest

/-- The heads `drop_globally_oldest_chain` chooses from: snapshots that name their own chain, not the
protected one, in a file that has another chain. -/
def droppableHead (s : Storage C) (protect : Option (ℕ × ℕ)) (h : Revision C) : Bool :=
  h.baseId = none ∧ h.id = h.chainId ∧ protect ≠ some (h.fileId, h.chainId) ∧
    ∃ o ∈ s.revisions.rows, o.fileId = h.fileId ∧ o.chainId ≠ h.chainId

def dropGloballyOldestChain (s : Storage C) (protect : Option (ℕ × ℕ)) : ℕ × Storage C :=
  match s.revisions.oldest (s.droppableHead protect) with
  | none => (0, s)
  | some h => s.dropChain h.fileId h.chainId

/-- `DELETE FROM files WHERE path = ?`, with the revisions by the cascade. -/
def deleteFile (s : Storage C) (path : String) : Storage C where
  files := s.files.select fun f => f.path ≠ path
  revisions := s.revisions.select fun r => ¬∃ f ∈ s.files.rows, f.path = path ∧ f.id = r.fileId
  paths := fun f hf f' hf' =>
    s.paths f (RowTable.mem_select.mp hf).1 f' (RowTable.mem_select.mp hf').1
  owned := by
    intro r hr
    obtain ⟨hr, hne⟩ := RowTable.mem_select.mp hr
    obtain ⟨f, hf, hid⟩ := s.owned r hr
    refine ⟨f, RowTable.mem_select.mpr ⟨hf, ?_⟩, hid⟩
    rw [decide_eq_true_eq] at hne ⊢
    exact fun hpath => hne ⟨f, hf, hpath, hid⟩

/-- `UPDATE files SET path = ? WHERE path = ?`; the unique index refuses a path in use. -/
def renameFile (s : Storage C) (old new : String) : Except StorageError (Storage C) :=
  if h : ∃ f ∈ s.files.rows, f.path = old ∧ ∃ f' ∈ s.files.rows, f'.path = new ∧ f' ≠ f then
    .error .uniquePath
  else
    .ok
      { s with
        files := s.files.update (fun f => if f.path = old then { f with path := new } else f)
          fun f => by split_ifs <;> rfl
        paths := by
          intro g hg g' hg' heq
          obtain ⟨f, hf, rfl⟩ := List.mem_map.mp hg
          obtain ⟨f', hf', rfl⟩ := List.mem_map.mp hg'
          have hnew : ∀ f ∈ s.files.rows, f.path = old → ∀ f' ∈ s.files.rows, f'.path = new → f' = f :=
            fun f hf hold f' hf' hpath => by_contra fun hne => h ⟨f, hf, hold, f', hf', hpath, hne⟩
          suffices f = f' by rw [this]
          split_ifs at heq with hold hold' hold'
          · exact s.paths f hf f' hf' (hold.trans hold'.symm)
          · exact (hnew f hf hold f' hf' heq.symm).symm
          · exact hnew f' hf' hold' f hf heq
          · exact s.paths f hf f' hf' heq
        owned := by
          intro r hr
          obtain ⟨f, hf, hid⟩ := s.owned r hr
          refine ⟨_, List.mem_map_of_mem hf, ?_⟩
          split_ifs <;> exact hid }

/-! ## What the insertions leave -/

variable {s s' : Storage C}

theorem findFile_eq_some_iff {path : String} {id : ℕ} :
    s.findFile path = some id ↔ ∃ f ∈ s.files.rows, f.path = path ∧ f.id = id := by
  simp only [findFile, Option.map_eq_some_iff]
  constructor
  · rintro ⟨f, hf, rfl⟩
    exact ⟨f, List.mem_of_find?_eq_some hf, by simpa using List.find?_some hf, rfl⟩
  · rintro ⟨f, hf, hpath, rfl⟩
    have hsome : (s.files.rows.find? fun f => f.path = path).isSome :=
      List.find?_isSome.mpr ⟨f, hf, by simpa using hpath⟩
    obtain ⟨f', hf'⟩ := Option.isSome_iff_exists.mp hsome
    have hpath' : f'.path = path := by simpa using List.find?_some hf'
    rw [hf', s.paths f' (List.mem_of_find?_eq_some hf') f hf (hpath'.trans hpath.symm)]
    exact ⟨f, rfl, rfl⟩

theorem insertRow_eq_ok {fileId id : ℕ} {chain : ℕ → ℕ × Option ℕ} {content payload : Bytes}
    (h : s.insertRow fileId chain content payload = .ok (id, s')) :
    id = s.revisions.nextKey ∧ s'.files = s.files ∧
      s'.revisions.rows = s.revisions.rows ++
        [⟨id, fileId, (chain id).1, (chain id).2, payload, C.hash content⟩] := by
  simp only [insertRow] at h
  split_ifs at h
  obtain ⟨rfl, rfl⟩ := Prod.mk.inj (Except.ok.inj h)
  exact ⟨rfl, rfl, rfl⟩

theorem insertRow_isOk {fileId : ℕ} (hfile : ∃ f ∈ s.files.rows, f.id = fileId)
    (chain : ℕ → ℕ × Option ℕ) (content payload : Bytes) :
    ∃ res, s.insertRow fileId chain content payload = .ok res := by
  simp only [insertRow, dif_pos hfile]
  exact ⟨_, rfl⟩

theorem upsertFile_spec (s : Storage C) (path : String) :
    (s.upsertFile path).2.revisions = s.revisions ∧
      (s.upsertFile path).2.findFile path = some (s.upsertFile path).1 ∧
      ∀ f ∈ (s.upsertFile path).2.files.rows, f ∈ s.files.rows ∨ f.id = (s.upsertFile path).1 := by
  unfold upsertFile
  split
  · rename_i f h
    refine ⟨rfl, ?_, fun f hf => .inl hf⟩
    simp [findFile, h]
  · refine ⟨rfl, ?_, fun f hf => ?_⟩
    · exact findFile_eq_some_iff.mpr ⟨_, List.mem_concat_self, rfl, rfl⟩
    · simp only [RowTable.mem_insert] at hf
      rcases hf with h | rfl
      · exact .inl h
      · exact .inr rfl

end Storage

end Wings.Diff
