import Wings.Lib.Run
import Wings.Pbs.ChunkReader

/-!
# Wings.Pbs.FileReader — reading a file of an archive by polling

The second half of `pbs-client/src/accessor.rs`: `PbsFileReader::poll_read` asks for as much as its caller has room
for, keeps the read while its chunk is not there, and hands the bytes to whichever caller polls when it is.

* `pollRead`, `step` — polls with any room, between lookups and downloads of other readers of the archive.
* **`range_delivered`**, **`kept_read_panics`**
-/

namespace Wings.Pbs

open Lib List

/-! ## Reads that wait for a chunk -/

/-- `FileContents`: where a file is in the archive. -/
structure FileContents where
  start : ℕ
  size : ℕ

namespace FileContents

def bytes (ix : DynamicIndex) (contents : FileContents) : List Byte :=
  (ix.bytes.drop contents.start).take contents.size

/-- What `read_at` asks of the archive; nothing behind the end of the file. -/
def request (contents : FileContents) (offset len : ℕ) : Option (ℕ × ℕ) :=
  if contents.size ≤ offset then none else some (contents.start + offset, min (contents.size - offset) len)

theorem drop_take_bytes {ix : DynamicIndex} {contents : FileContents} (offset len : ℕ) :
    ((contents.bytes ix).drop offset).take len =
      (ix.bytes.drop (contents.start + offset)).take (min (contents.size - offset) len) := by
  rw [bytes, drop_take, drop_drop, take_take, min_comm]

end FileContents

namespace FileReader

/-- How far a read is; a download is kept with what to copy from its chunk. -/
inductive Stage where
  | created
  | downloading (idx within len : ℕ)
  | completed
deriving DecidableEq

structure ReadFuture where
  offset : ℕ
  want : ℕ
  stage : Stage
deriving DecidableEq

inductive Outcome where
  | pending (stage : Stage)
  | ready (data : List Byte)
  | failed
  | panicked

/-- The copy at the end of `read_into`. -/
def copyOut (chunk : List Byte) (within len : ℕ) : Outcome :=
  if within ≤ chunk.length then .ready ((chunk.drop within).take (min (chunk.length - within) len)) else .failed

/-- The rest of `fetch_chunk` when the chunk is not in the cache. -/
def download (ix : DynamicIndex) (cache : ChunkCache) (arrived : Bool) (idx within len : ℕ) : Outcome × ChunkCache :=
  match ix.chunks[idx]? with
  | none => (.failed, cache)
  | some chunk =>
    if arrived then (copyOut chunk within len, cache.insert idx chunk)
    else (.pending (.downloading idx within len), cache)

/-- A poll of the read; `arrived` says if a download that it waits for is there. -/
def ReadFuture.poll (ix : DynamicIndex) (contents : FileContents) (cache : ChunkCache) (arrived : Bool)
    (f : ReadFuture) : Outcome × ChunkCache :=
  match f.stage with
  | .created =>
    match contents.request f.offset f.want with
    | none => (.ready [], cache)
    | some (pos, len) =>
      if len = 0 ∨ ix.size ≤ pos then (.ready [], cache)
      else
        let (idx, chunkStart) := ix.locate pos
        match cache.get idx with
        | (some chunk, cache) => (copyOut chunk (pos - chunkStart) len, cache)
        | (none, cache) => download ix cache arrived idx (pos - chunkStart) len
  | .downloading idx within len => download ix cache arrived idx within len
  -- an `async` block must not be polled after it is done
  | .completed => (.panicked, cache)

/-- A download is that of the chunk with the first byte that is asked for. -/
def ReadFuture.Sound (ix : DynamicIndex) (contents : FileContents) (f : ReadFuture) : Prop :=
  match f.stage with
  | .created => True
  | .downloading idx within len =>
    ∃ pos, contents.request f.offset f.want = some (pos, len) ∧ 0 < len ∧ pos < ix.size ∧
      idx = (ix.locate pos).1 ∧ within = pos - (ix.locate pos).2
  | .completed => False

variable {ix : DynamicIndex} {contents : FileContents} {cache : ChunkCache} {f : ReadFuture}

/-- What the read may still return: bytes of the file, and some if there are any. -/
structure Returns (ix : DynamicIndex) (contents : FileContents) (f : ReadFuture) (data : List Byte) : Prop where
  isPrefix : data <+: ((contents.bytes ix).drop f.offset).take f.want
  ended : data = [] → ((contents.bytes ix).drop f.offset).take f.want = []

theorem drop_bytes {pos : ℕ} {chunk : List Byte} (hpos : pos < ix.size)
    (hchunk : ix.chunks[(ix.locate pos).1]? = some chunk) :
    pos - (ix.locate pos).2 < chunk.length ∧
      ix.bytes.drop pos = chunk.drop (pos - (ix.locate pos).2) ++ (ix.chunks.drop ((ix.locate pos).1 + 1)).flatten := by
  obtain ⟨chunk', hchunk', hstart, hle, hlt⟩ := ix.locate_spec hpos
  cases hchunk.symm.trans hchunk'
  obtain ⟨hidx, hget⟩ := List.getElem?_eq_some_iff.mp hchunk
  rw [hstart]
  have hwithin : pos - ix.startOf (ix.locate pos).1 < chunk.length := by omega
  refine ⟨hwithin, ?_⟩
  have hsplit : ix.bytes = (ix.chunks.take (ix.locate pos).1).flatten ++
      (chunk ++ (ix.chunks.drop ((ix.locate pos).1 + 1)).flatten) := by
    rw [← hget, ← flatten_cons, getElem_cons_drop, ← flatten_append, take_append_drop]
    rfl
  rw [hsplit, drop_append, drop_eq_nil_of_le hle]
  exact drop_append_of_le_length hwithin.le

theorem returns_copyOut {pos len : ℕ} {chunk : List Byte} (hrequest : contents.request f.offset f.want = some (pos, len))
    (hlen : 0 < len) (hpos : pos < ix.size) (hchunk : ix.chunks[(ix.locate pos).1]? = some chunk) :
    ∃ data, copyOut chunk (pos - (ix.locate pos).2) len = .ready data ∧ Returns ix contents f data := by
  obtain ⟨hwithin, hdrop⟩ := drop_bytes hpos hchunk
  refine ⟨_, if_pos hwithin.le, ?_, fun hnil => ?_⟩
  · unfold FileContents.request at hrequest
    split_ifs at hrequest
    cases hrequest
    rw [FileContents.drop_take_bytes, hdrop]
    rw [← length_drop, ← take_take, take_of_length_le (length_take_le' _ _), take_append]
    exact prefix_append _ _
  · have hlength := congrArg length hnil
    rw [length_take, length_drop, length_nil] at hlength
    omega

/-- A poll goes on with the same download, or returns bytes of the file. -/
def Allowed (ix : DynamicIndex) (contents : FileContents) (f : ReadFuture) : Outcome → Prop
  | .pending stage => ReadFuture.Sound ix contents { f with stage }
  | .ready data => Returns ix contents f data
  | .failed | .panicked => False

theorem download_spec {pos len : ℕ} (hcache : cache.Holds ix)
    (hrequest : contents.request f.offset f.want = some (pos, len)) (hlen : 0 < len) (hpos : pos < ix.size)
    (arrived : Bool) :
    let result := download ix cache arrived (ix.locate pos).1 (pos - (ix.locate pos).2) len
    Allowed ix contents f result.1 ∧ result.2.Holds ix := by
  obtain ⟨chunk, hchunk, _⟩ := ix.locate_spec hpos
  obtain ⟨data, hcopy, hreturns⟩ := returns_copyOut hrequest hlen hpos hchunk
  simp only [download, hchunk]
  split_ifs
  · exact ⟨hcopy ▸ hreturns, hcache.insert hchunk⟩
  · exact ⟨⟨pos, hrequest, hlen, hpos, rfl, rfl⟩, hcache⟩

/-- **A poll of a read**, with any cache that holds chunks of the index. -/
theorem ReadFuture.poll_spec (hfits : contents.start + contents.size ≤ ix.size) (hcache : cache.Holds ix)
    (hsound : f.Sound ix contents) (arrived : Bool) :
    Allowed ix contents f (f.poll ix contents cache arrived).1 ∧ (f.poll ix contents cache arrived).2.Holds ix := by
  unfold poll
  unfold Sound at hsound
  split
  · split
    next hrequest =>
      refine ⟨⟨List.nil_prefix, fun _ => ?_⟩, hcache⟩
      unfold FileContents.request at hrequest
      split_ifs at hrequest with hend
      rw [FileContents.drop_take_bytes, Nat.sub_eq_zero_of_le hend, Nat.zero_min, take_zero]
    next pos len hrequest =>
      split_ifs with hnothing
      · refine ⟨⟨List.nil_prefix, fun _ => ?_⟩, hcache⟩
        unfold FileContents.request at hrequest
        split_ifs at hrequest with hend
        cases hrequest
        rw [FileContents.drop_take_bytes]
        rcases hnothing with hlen | hpos
        · rw [hlen, take_zero]
        · exact absurd hpos (by omega)
      · obtain ⟨hlen, hpos⟩ := not_or.mp hnothing
        replace hlen : 0 < len := Nat.pos_of_ne_zero hlen
        replace hpos : pos < ix.size := Nat.lt_of_not_le hpos
        have hcache' : (cache.get (ix.locate pos).1).2.Holds ix := hcache.get
        dsimp only
        split
        next chunk cache' hget =>
          have hkept : cache.map (ix.locate pos).1 = some chunk := by rw [← ChunkCache.fst_get, hget]
          obtain ⟨data, hcopy, hreturns⟩ := returns_copyOut hrequest hlen hpos (hcache _ _ hkept)
          rw [hget] at hcache'
          exact ⟨hcopy ▸ hreturns, hcache'⟩
        next cache' hget =>
          rw [hget] at hcache'
          exact download_spec hcache' hrequest hlen hpos arrived
  next idx within len hstage =>
    rw [hstage] at hsound
    obtain ⟨pos, hrequest, hlen, hpos, rfl, rfl⟩ := hsound
    exact download_spec hcache hrequest hlen hpos arrived
  next hstage =>
    rw [hstage] at hsound
    exact hsound.elim

/-! ## Polls -/

structure PbsFileReader where
  offset : ℕ
  remaining : ℕ
  pending : Option ReadFuture

/-- The first byte and how many, as `open_reader` takes them from its range. -/
def rangeOf (contents : FileContents) (range : Option (ℕ × ℕ)) : ℕ × ℕ := range.getD (0, contents.size)

def openReader (contents : FileContents) (range : Option (ℕ × ℕ)) : PbsFileReader :=
  ⟨(rangeOf contents range).1, (rangeOf contents range).2, none⟩

/-- A reader and the cache that it shares with all readers of the archive. -/
structure State where
  reader : PbsFileReader
  cache : ChunkCache

inductive Action where
  /-- A poll with a buffer that has `room`. -/
  | poll (room : ℕ) (arrived : Bool)
  /-- Another reader looks for a chunk, or has downloaded it. -/
  | lookup (idx : ℕ)
  | insert (idx : ℕ)

inductive Reply where
  | silent
  | pending
  | ready (data : List Byte)
  | failed
  | panicked
deriving DecidableEq

/-- The `loop` of `poll_read` with a read to poll: what it returns is put into the buffer. -/
def resume (ix : DynamicIndex) (contents : FileContents) (st : State) (room : ℕ) (arrived : Bool) (f : ReadFuture) :
    State × Reply :=
  match f.poll ix contents st.cache arrived with
  | (.pending stage, cache) => (⟨{ st.reader with pending := some { f with stage } }, cache⟩, .pending)
  | (.ready data, cache) =>
    if st.reader.remaining < data.length then (⟨{ st.reader with pending := none }, cache⟩, .panicked)
    else
      let reader := ⟨st.reader.offset + data.length, st.reader.remaining - data.length, none⟩
      -- `put_slice` panics without room
      if room < data.length then (⟨reader, cache⟩, .panicked) else (⟨reader, cache⟩, .ready data)
  | (.failed, cache) => (⟨{ st.reader with pending := some { f with stage := .completed } }, cache⟩, .failed)
  | (.panicked, cache) => (⟨st.reader, cache⟩, .panicked)

def pollRead (ix : DynamicIndex) (contents : FileContents) (st : State) (room : ℕ) (arrived : Bool) : State × Reply :=
  match st.reader.pending with
  | some f => resume ix contents st room arrived f
  | none =>
    if st.reader.remaining = 0 ∨ room = 0 then (st, .ready [])
    else resume ix contents st room arrived ⟨st.reader.offset, min room st.reader.remaining, .created⟩

def step (ix : DynamicIndex) (contents : FileContents) (st : State) : Action → State × Reply
  | .poll room arrived => pollRead ix contents st room arrived
  | .lookup idx => ({ st with cache := (st.cache.get idx).2 }, .silent)
  | .insert idx =>
    match ix.chunks[idx]? with
    | some chunk => ({ st with cache := st.cache.insert idx chunk }, .silent)
    | none => (st, .silent)

def chunkCacheCapacity : ℕ := 32

def init (contents : FileContents) (range : Option (ℕ × ℕ)) : State :=
  ⟨openReader contents range, .new chunkCacheCapacity⟩

/-! ## What is delivered -/

def Reply.data : Reply → List Byte
  | .ready data => data
  | _ => []

def delivered (tr : List (Action × Reply)) : List Byte := tr.flatMap fun e => e.2.data

/-- The bytes of the file from `start` to the smaller one of `start + len` and its size. -/
def requested (ix : DynamicIndex) (contents : FileContents) (range : Option (ℕ × ℕ)) : List Byte :=
  ((contents.bytes ix).drop (rangeOf contents range).1).take (rangeOf contents range).2

/-- No poll fails, the bytes are those that were asked for, in order, and all of them once a poll with room has
none. -/
structure Delivers (target : List Byte) (tr : List (Action × Reply)) : Prop where
  works : ∀ e ∈ tr, e.2 ≠ .panicked ∧ e.2 ≠ .failed
  ordered : delivered tr <+: target
  complete : ∀ pre room arrived post, tr = pre ++ (.poll room arrived, .ready []) :: post → 0 < room →
    delivered pre = target

/-- A poll that finds a kept read has at least as much room as the one that started it wanted. -/
def Roomy (_ : List (Action × Reply)) (st : State) (a : Action) : Prop :=
  ∀ room arrived f, a = .poll room arrived → st.reader.pending = some f → f.want ≤ room

variable {target : List Byte} {tr : List (Action × Reply)} {st : State} {range : Option (ℕ × ℕ)} {a : Action}
  {reply : Reply}

theorem delivered_concat : delivered (tr ++ [(a, reply)]) = delivered tr ++ reply.data := by
  rw [delivered, flatMap_append, flatMap_singleton]
  rfl

theorem Delivers.concat (h : Delivers target tr) (hworks : reply ≠ .panicked ∧ reply ≠ .failed)
    (hordered : delivered tr ++ reply.data <+: target)
    (hcomplete : ∀ room arrived, a = .poll room arrived → reply = .ready [] → 0 < room → delivered tr = target) :
    Delivers target (tr ++ [(a, reply)]) := by
  refine ⟨fun e he => ?_, delivered_concat ▸ hordered, fun pre room arrived post hsplit hroom => ?_⟩
  · rcases mem_append.mp he with he | he
    · exact h.works e he
    · rw [mem_singleton.mp he]
      exact hworks
  · rcases split_concat hsplit with ⟨rfl, heq⟩ | ⟨post', rfl, hsplit'⟩
    · obtain ⟨rfl, -⟩ := append_inj' hsplit rfl
      cases heq
      exact hcomplete room arrived rfl rfl hroom
    · exact h.complete pre room arrived post' hsplit' hroom

/-- The reader is where the delivered bytes end, and so is a kept read. -/
structure Inv (ix : DynamicIndex) (contents : FileContents) (range : Option (ℕ × ℕ)) (tr : List (Action × Reply))
    (st : State) : Prop where
  cache : st.cache.Holds ix
  delivers : Delivers (requested ix contents range) tr
  offset : st.reader.offset = (rangeOf contents range).1 + (delivered tr).length
  remaining : st.reader.remaining + (delivered tr).length = (rangeOf contents range).2
  pending : ∀ f, st.reader.pending = some f →
    f.Sound ix contents ∧ f.offset = st.reader.offset ∧ f.want ≤ st.reader.remaining ∧ 0 < f.want

section

variable (h : Inv ix contents range tr st)
include h

theorem Inv.drop_requested :
    (requested ix contents range).drop (delivered tr).length =
      ((contents.bytes ix).drop st.reader.offset).take st.reader.remaining := by
  rw [requested, drop_take, drop_drop, h.offset, ← h.remaining, Nat.add_sub_cancel]

theorem Inv.all_delivered (hrest : ((contents.bytes ix).drop st.reader.offset).take st.reader.remaining = []) :
    delivered tr = requested ix contents range := by
  have hle := drop_eq_nil_iff.mp (h.drop_requested.trans hrest)
  exact h.delivers.ordered.eq_of_length_le hle

theorem Inv.returns (hoffset : f.offset = st.reader.offset)
    (hwant : f.want ≤ st.reader.remaining) (hpos : 0 < f.want) {data : List Byte} (hreturns : Returns ix contents f data) :
    data.length ≤ f.want ∧ delivered tr ++ data <+: requested ix contents range ∧
      (data = [] → delivered tr = requested ix contents range) := by
  refine ⟨?_, ?_, fun hnil => h.all_delivered ?_⟩
  · exact hreturns.isPrefix.length_le.trans (length_take_le _ _)
  · obtain ⟨rest, hrest⟩ := h.delivers.ordered
    have hdata : data <+: (requested ix contents range).drop (delivered tr).length := by
      rw [h.drop_requested, ← hoffset]
      exact hreturns.isPrefix.trans (take_prefix_take_left hwant)
    rw [← hrest, drop_left] at hdata
    rw [← hrest]
    exact (prefix_append_right_inj _).mpr hdata
  · have hend := hreturns.ended hnil
    rw [hoffset, take_eq_nil_iff] at hend
    rw [hend.resolve_left hpos.ne', take_nil]

theorem Inv.resume (hfits : contents.start + contents.size ≤ ix.size) {room : ℕ}
    (hsound : f.Sound ix contents) (hoffset : f.offset = st.reader.offset) (hwant : f.want ≤ st.reader.remaining)
    (hpos : 0 < f.want) (hroom : f.want ≤ room) (arrived : Bool) :
    Inv ix contents range (tr ++ [(.poll room arrived, (resume ix contents st room arrived f).2)])
      (resume ix contents st room arrived f).1 := by
  obtain ⟨hallowed, hcache⟩ := f.poll_spec hfits h.cache hsound arrived
  unfold FileReader.resume
  split
  next stage cache' hpoll =>
    rw [hpoll] at hallowed hcache
    have hdelivered : delivered (tr ++ [(.poll room arrived, .pending)]) = delivered tr :=
      delivered_concat.trans (append_nil _)
    refine ⟨hcache, h.delivers.concat ⟨nofun, nofun⟩ ?_ nofun, ?_, ?_, fun f' hf' => ?_⟩
    · exact (append_nil _).symm ▸ h.delivers.ordered
    · exact hdelivered.symm ▸ h.offset
    · exact hdelivered.symm ▸ h.remaining
    · cases hf'
      exact ⟨hallowed, hoffset, hwant, hpos⟩
  next data cache' hpoll =>
    rw [hpoll] at hallowed hcache
    obtain ⟨hlength, hordered, hall⟩ := h.returns hoffset hwant hpos hallowed
    rw [if_neg (by omega)]
    rw [if_neg (by omega)]
    refine ⟨hcache, h.delivers.concat ⟨nofun, nofun⟩ hordered fun _ _ _ hnil _ => ?_, ?_, ?_, nofun⟩
    · cases hnil
      exact hall rfl
    · rw [delivered_concat, length_append]
      show st.reader.offset + data.length = _ + (_ + data.length)
      rw [h.offset, Nat.add_assoc]
    · rw [delivered_concat, length_append, ← h.remaining]
      show st.reader.remaining - data.length + (_ + data.length) = _
      omega
  next cache' hpoll =>
    rw [hpoll] at hallowed
    exact hallowed.elim
  next cache' hpoll =>
    rw [hpoll] at hallowed
    exact hallowed.elim

theorem Inv.quiet (hcache : cache.Holds ix) (ha : ∀ room arrived, a ≠ .poll room arrived) :
    Inv ix contents range (tr ++ [(a, .silent)]) { st with cache } := by
  have hdelivered : delivered (tr ++ [(a, .silent)]) = delivered tr := delivered_concat.trans (append_nil _)
  refine ⟨hcache, h.delivers.concat ⟨nofun, nofun⟩ ?_ fun room arrived heq => absurd heq (ha room arrived), ?_, ?_,
    h.pending⟩
  · exact (append_nil _).symm ▸ h.delivers.ordered
  · exact hdelivered.symm ▸ h.offset
  · exact hdelivered.symm ▸ h.remaining

variable (hfits : contents.start + contents.size ≤ ix.size)
include hfits

theorem Inv.pollRead {room : ℕ} {arrived : Bool} (hroomy : Roomy tr st (.poll room arrived)) :
    Inv ix contents range (tr ++ [(.poll room arrived, (pollRead ix contents st room arrived).2)])
      (pollRead ix contents st room arrived).1 := by
  unfold FileReader.pollRead
  split
  next f hpending =>
    obtain ⟨hsound, hoffset, hwant, hpos⟩ := h.pending f hpending
    exact h.resume hfits hsound hoffset hwant hpos (hroomy room arrived f rfl hpending) arrived
  next hpending =>
    split_ifs with hnothing
    · have hdelivered : delivered (tr ++ [(.poll room arrived, .ready [])]) = delivered tr :=
        delivered_concat.trans (append_nil _)
      refine ⟨h.cache, h.delivers.concat ⟨nofun, nofun⟩ ?_ fun room' _ heq _ hroom => ?_, ?_, ?_, h.pending⟩
      · exact (append_nil _).symm ▸ h.delivers.ordered
      · cases heq
        refine h.all_delivered ?_
        rw [hnothing.resolve_right hroom.ne', take_zero]
      · exact hdelivered.symm ▸ h.offset
      · exact hdelivered.symm ▸ h.remaining
    · obtain ⟨hremaining, hroom⟩ := not_or.mp hnothing
      have hpos : 0 < min room st.reader.remaining :=
        lt_min (Nat.pos_of_ne_zero hroom) (Nat.pos_of_ne_zero hremaining)
      exact h.resume (f := ⟨_, _, .created⟩) hfits trivial rfl (min_le_right _ _) hpos (min_le_left _ _) arrived

theorem Inv.step (hroomy : Roomy tr st a) :
    Inv ix contents range (tr ++ [(a, (step ix contents st a).2)]) (step ix contents st a).1 := by
  cases a with
  | poll room arrived => exact h.pollRead hfits hroomy
  | lookup idx => exact h.quiet h.cache.get nofun
  | insert idx =>
    simp only [step]
    split
    next chunk hchunk => exact h.quiet (h.cache.insert hchunk) nofun
    · exact h.quiet h.cache nofun

end

/-- **The requested range is delivered** in every run of polls where a kept read finds as much room as it was
started with. -/
theorem range_delivered (hfits : contents.start + contents.size ≤ ix.size) {as : List Action}
    (hg : Steps (step ix contents) Roomy (init contents range) as) :
    Delivers (requested ix contents range) (trace (step ix contents) (init contents range) as) := by
  have hinit : Inv ix contents range [] (init contents range) :=
    ⟨ChunkCache.holds_new _ _, ⟨nofun, nil_prefix, fun pre _ _ _ h => by cases pre <;> cases h⟩, rfl, rfl, nofun⟩
  exact (inv_of_steps hinit (fun _ _ _ hst hroomy => hst.step hfits hroomy) hg).delivers

/-- Three bytes of a file that lies in two chunks, the second of which another reader has fetched. -/
def twoChunks : DynamicIndex := .ofChunks [[1, 2, 3], [4, 5, 6]]

def acrossChunks : List Action :=
  [.poll 8 false, .insert 1, .poll 8 true, .poll 8 false, .poll 8 false]

theorem range_delivered_across_chunks :
    Delivers [3, 4, 5] (trace (step twoChunks ⟨1, 4⟩) (init ⟨1, 4⟩ (some (1, 9))) acrossChunks) := by
  have hrequested : requested twoChunks ⟨1, 4⟩ (some (1, 9)) = [3, 4, 5] := rfl
  rw [← hrequested]
  refine range_delivered (by decide) ?_
  have hkept : (exec (step twoChunks ⟨1, 4⟩) (init ⟨1, 4⟩ (some (1, 9))) [.poll 8 false, .insert 1]).reader.pending =
      some ⟨1, 8, .downloading 0 2 3⟩ := by decide +kernel
  have hnone : (exec (step twoChunks ⟨1, 4⟩) (init ⟨1, 4⟩ (some (1, 9)))
      [.poll 8 false, .insert 1, .poll 8 true]).reader.pending = none := by decide +kernel
  have hnone' : (exec (step twoChunks ⟨1, 4⟩) (init ⟨1, 4⟩ (some (1, 9)))
      [.poll 8 false, .insert 1, .poll 8 true, .poll 8 false]).reader.pending = none := by decide +kernel
  simp only [acrossChunks, steps_cons]
  refine ⟨nofun, nofun, ?_, ?_, ?_, steps_nil⟩
  · rintro _ _ f ⟨⟩ hf
    cases hkept.symm.trans hf
    decide
  · rintro _ _ f ⟨⟩ hf
    cases hnone.symm.trans hf
  · rintro _ _ f ⟨⟩ hf
    cases hnone'.symm.trans hf

/-- The first caller has room for both bytes and the second one for one of them. -/
theorem kept_read_panics :
    ¬Delivers [1, 2] (trace (step (.ofChunks [[1, 2]]) ⟨0, 2⟩) (init ⟨0, 2⟩ none) [.poll 2 false, .poll 1 true]) := by
  intro h
  have hreply : Reply.panicked ∈ (trace (step (.ofChunks [[1, 2]]) ⟨0, 2⟩) (init ⟨0, 2⟩ none)
      [.poll 2 false, .poll 1 true]).map Prod.snd := by decide +kernel
  obtain ⟨e, he, hpanicked⟩ := mem_map.mp hreply
  exact (h.works e he).1 hpanicked

end FileReader

end Wings.Pbs
