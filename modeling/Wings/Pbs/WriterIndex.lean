import Mathlib.Data.List.Nodup
import Wings.Pbs.Writer

/-!
# Wings.Pbs.WriterIndex — a finished upload describes the stream

Whatever the schedule, the chunks that the consumer has dealt with, those in the channel, those held by the
producer and in its buffer, and those the chunker has not given out yet are together the stream, in order; and
which of them are new is settled by the stream alone (`labels`).

* **`upload_describes_stream`**
-/

namespace Wings.Pbs.Writer

open Lib List State

variable (codec : Codec)

/-! ## Labels -/

/-- A chunk of the stream, and whether it has to be uploaded. -/
structure Labelled where
  isNew : Bool
  chunk : List Byte

/-- The chunks of a stream, and `none` for an error. -/
def labels : List Digest → List Item → List (Option Labelled)
  | _, [] => []
  | known, .error _ :: items => none :: labels known items
  | known, .ok chunk :: items =>
    if codec.sha256 chunk ∈ known then some ⟨false, chunk⟩ :: labels known items
    else some ⟨true, chunk⟩ :: labels (codec.sha256 chunk :: known) items

def newDigests (done : List Labelled) : List Digest := (done.filter (·.isNew)).map fun l => codec.sha256 l.chunk

def digests (done : List Labelled) : List Digest := done.map fun l => codec.sha256 l.chunk

def sizeOf (done : List Labelled) : ℕ := (done.map (·.chunk.length)).sum

def startOffsets (start : ℕ) : List (List Byte) → List ℕ
  | [] => []
  | chunk :: chunks => u64 start :: startOffsets (start + chunk.length) chunks

/-- Where each of the chunks ends, with its digest. -/
def endEntries (start : ℕ) : List (List Byte) → List (ℕ × Digest)
  | [] => []
  | chunk :: chunks => (u64 (start + chunk.length), codec.sha256 chunk) :: endEntries (start + chunk.length) chunks

variable {codec} {known : List Digest} {items : List Item} (done : List Labelled)

theorem newDigests_concat (l : Labelled) :
    newDigests codec (done ++ [l]) = newDigests codec done ++ if l.isNew then [codec.sha256 l.chunk] else [] := by
  rw [newDigests, newDigests]
  cases h : l.isNew <;> simp [h]

theorem sizeOf_concat (l : Labelled) : sizeOf (done ++ [l]) = sizeOf done + l.chunk.length := by
  simp [sizeOf]

variable (chunks : List (List Byte)) (start : ℕ)

theorem startOffsets_concat (chunk : List Byte) :
    startOffsets start (chunks ++ [chunk]) =
      startOffsets start chunks ++ [u64 (start + (chunks.map length).sum)] := by
  induction chunks generalizing start with
  | nil => simp [startOffsets]
  | cons c chunks ih => simp [startOffsets, ih, Nat.add_assoc]

theorem endEntries_concat (chunk : List Byte) :
    endEntries codec start (chunks ++ [chunk]) = endEntries codec start chunks ++
      [(u64 (start + (chunks.map length).sum + chunk.length), codec.sha256 chunk)] := by
  induction chunks generalizing start with
  | nil => simp [endEntries]
  | cons c chunks ih => simp [endEntries, ih, Nat.add_assoc]

theorem length_endEntries : (endEntries codec start chunks).length = chunks.length := by
  induction chunks generalizing start with
  | nil => rfl
  | cons c chunks ih => rw [endEntries, length_cons, ih, length_cons]

variable {done : List Labelled}

theorem items_of_labels (h : labels codec known items = done.map some) :
    items = done.map fun l => .ok l.chunk := by
  induction items generalizing known done with
  | nil => cases done with
    | nil => rfl
    | cons l done => cases h
  | cons item items ih =>
    cases item with
    | error e => cases done <;> cases h
    | ok chunk =>
      cases done with
      | nil => rw [labels] at h; split_ifs at h <;> cases h
      | cons l done =>
        rw [labels] at h
        split_ifs at h
        all_goals
          rw [map_cons, cons.injEq, Option.some.injEq] at h
          obtain ⟨rfl, h⟩ := h
          rw [ih h, map_cons]

theorem newDigests_spec {rest : List (Option Labelled)} (h : labels codec known items = done.map some ++ rest) :
    (newDigests codec done).Nodup ∧ (∀ d ∈ newDigests codec done, d ∉ known) ∧
      ∀ d ∈ digests codec done, d ∈ known ∨ d ∈ newDigests codec done := by
  induction items generalizing known done with
  | nil =>
    rw [labels, eq_comm, append_eq_nil_iff, map_eq_nil_iff] at h
    obtain ⟨rfl, _⟩ := h
    exact ⟨nodup_nil, nofun, nofun⟩
  | cons item items ih =>
    cases done with
    | nil => exact ⟨nodup_nil, nofun, nofun⟩
    | cons l done =>
      cases item with
      | error e => cases h
      | ok chunk =>
        rw [labels] at h
        split_ifs at h with hknown <;> rw [map_cons, cons_append, cons.injEq, Option.some.injEq] at h
        · obtain ⟨rfl, h⟩ := h
          obtain ⟨hnodup, hfresh, hall⟩ := ih h
          exact ⟨hnodup, hfresh, forall_mem_cons.mpr ⟨.inl hknown, hall⟩⟩
        · obtain ⟨rfl, h⟩ := h
          obtain ⟨hnodup, hfresh, hall⟩ := ih h
          refine ⟨nodup_cons.mpr ⟨fun hmem => hfresh _ hmem mem_cons_self, hnodup⟩,
            forall_mem_cons.mpr ⟨hknown, fun d hd hk => hfresh d hd (mem_cons_of_mem _ hk)⟩,
            forall_mem_cons.mpr ⟨.inr mem_cons_self, fun d hd => ?_⟩⟩
          rcases hall d hd with hmem | hmem
          · rcases mem_cons.mp hmem with rfl | hmem
            · exact .inr mem_cons_self
            · exact .inl hmem
          · exact .inr (mem_cons_of_mem _ hmem)

/-! ## What is on its way -/

variable (codec) in
/-- A future or message for a label.  Anything may have failed. -/
inductive Agrees : Option Labelled → Slot → Prop
  | error {l e} : Agrees l (.ready (.error e))
  | known {chunk} : Agrees (some ⟨false, chunk⟩) (.ready (.ok (.known (codec.sha256 chunk) chunk.length)))
  | encoding {chunk} : Agrees (some ⟨true, chunk⟩) (.encoding chunk (codec.sha256 chunk))
  | new {chunk} : Agrees (some ⟨true, chunk⟩) (.ready (.ok (.new (encodeBlobWithDigest codec chunk (codec.sha256 chunk)))))

/-- What has been taken from the chunker and not received yet, the oldest first. -/
def State.pipeline (st : State) : List Slot := st.channel.map .ready ++ st.held.toList.map .ready ++ st.buffer

variable (codec) in
/-- The labels of what is on its way, and the end of the stream: the producer stops there, or after an error. -/
structure Carried (known : List Digest) (items : List Item) (done : List Labelled) (todo : List (Option Labelled))
    (st : State) :
    Prop where
  ordered : labels codec known items = done.map some ++ todo ++ labels codec st.known st.stream
  agrees : List.Forall₂ (Agrees codec) todo st.pipeline
  stopped : st.producing = false →
    (st.stream = [] ∧ st.buffer = [] ∧ st.held = none) ∨ ∃ e, (.error e : Message) ∈ st.channel

variable {done : List Labelled} {todo : List (Option Labelled)} {st st' : State} {threads : ℕ}

theorem Carried.poll (h : Carried codec known items done todo st) (hstep : st.poll codec threads = some st') :
    ∃ todo, Carried codec known items done todo st' := by
  rw [State.poll] at hstep
  split_ifs at hstep with hcan
  simp only [Bool.and_eq_true] at hcan
  have hlabels := h.ordered
  -- whatever slot is added at the end of the buffer is added at the end of what is on its way
  have hadd : ∀ {l slot stream known'}, Agrees codec l slot →
      labels codec st.known st.stream = l :: labels codec known' stream →
      Carried codec known items done (todo ++ [l])
        { st with stream, known := known', buffer := st.buffer ++ [slot] } := fun {l slot stream known'} hagrees hl => by
    refine ⟨?_, ?_, fun hstop => absurd hcan.1.1 (by simp [show st.producing = false from hstop])⟩
    · rw [hlabels, hl]; simp
    · rw [pipeline, ← append_assoc]
      exact rel_append h.agrees (.cons hagrees .nil)
  cases hstream : st.stream with
  | nil => rw [hstream] at hstep; cases hstep
  | cons item stream =>
    rw [hstream] at hstep
    cases item with
    | error e =>
      cases hstep
      exact ⟨_, hadd .error (by rw [hstream, labels])⟩
    | ok chunk =>
      dsimp only at hstep
      split_ifs at hstep with hknown
      · cases hstep
        exact ⟨_, hadd .known (by rw [hstream, labels, if_pos hknown])⟩
      · cases hstep
        exact ⟨_, hadd .encoding (by rw [hstream, labels, if_neg hknown])⟩

theorem forall₂_set {R : Option Labelled → Slot → Prop} {ls : List (Option Labelled)} {slots : List Slot} {i : ℕ}
    {x y : Slot}
    (h : Forall₂ R ls slots) (hx : slots[i]? = some x) (hxy : ∀ l, R l x → R l y) :
    Forall₂ R ls (slots.set i y) := by
  induction h generalizing i with
  | nil => exact .nil
  | @cons l slot ls slots hhead hrest ih =>
    cases i with
    | zero =>
      cases hx
      exact .cons (hxy l hhead) hrest
    | succ i => exact .cons hhead (ih hx)

section

variable (h : Carried codec known items done todo st)
include h

theorem Carried.encoded {i : ℕ} {error : Option String}
    (hstep : st.encoded codec i error = some st') : Carried codec known items done todo st' := by
  rw [State.encoded] at hstep
  cases hslot : st.buffer[i]? with
  | none => rw [hslot] at hstep; cases hstep
  | some slot =>
    rw [hslot] at hstep
    cases slot with
    | ready message => cases hstep
    | encoding chunk digest =>
      cases hstep
      refine ⟨h.ordered, ?_, fun hstop => ?_⟩
      · -- the slot, counted from the channel on
        rw [pipeline]
        generalize hfront : st.channel.map Slot.ready ++ st.held.toList.map Slot.ready = front
        have hagrees : Forall₂ (Agrees codec) todo (front ++ st.buffer) := hfront ▸ h.agrees
        have hget : (front ++ st.buffer)[front.length + i]? = some (.encoding chunk digest) := by
          rw [getElem?_append_right (Nat.le_add_right _ _), Nat.add_sub_cancel_left, hslot]
        rw [← Nat.add_sub_cancel_left front.length i, ← set_append_right _ _ (Nat.le_add_right _ _)]
        refine forall₂_set hagrees hget fun l hl => ?_
        cases hl
        cases error with
        | none => exact .new
        | some e => exact .error
      · refine (h.stopped hstop).imp_left fun hend => ?_
        rw [hend.2.1] at hslot
        cases hslot

theorem Carried.next (hstep : st.next = some st') :
    Carried codec known items done todo st' := by
  rw [State.next] at hstep
  split_ifs at hstep with hcan
  simp only [Bool.and_eq_true, Option.isNone_iff_eq_none] at hcan
  have hagrees := h.agrees
  rw [pipeline, hcan.2] at hagrees
  split at hstep
  · next message buffer hbuffer =>
    cases hstep
    rw [hbuffer] at hagrees
    exact ⟨h.ordered, by simpa [pipeline] using hagrees, fun hstop =>
      absurd hcan.1 (by simp [show st.producing = false from hstop])⟩
  · next hbuffer hstream =>
    cases hstep
    exact ⟨h.ordered, h.agrees, fun _ => .inl ⟨hstream, hbuffer, hcan.2⟩⟩
  · cases hstep

theorem Carried.send (hstep : st.send = some st') :
    Carried codec known items done todo st' := by
  rw [State.send] at hstep
  have hagrees := h.agrees
  split at hstep
  · next message hheld =>
    split_ifs at hstep
    cases hstep
    rw [pipeline, hheld] at hagrees
    refine ⟨h.ordered, by simpa [pipeline] using hagrees, fun hstop => .inr ?_⟩
    cases message with
    | error e => exact ⟨e, by simp⟩
    | ok m =>
      have hproducing : st.producing = false := by simpa [Except.toBool] using hstop
      rcases h.stopped hproducing with ⟨_, _, hnone⟩ | ⟨e, he⟩
      · rw [hheld] at hnone; cases hnone
      · exact ⟨e, mem_append_left _ he⟩
  · cases hstep

end

/-! ## What the server has been told -/

def Request.upload? : Request → Option Digest
  | .dynamicChunk _ digest _ _ _ => some digest
  | _ => none

def Request.registered : Request → List Digest
  | .registerChunks _ digestList _ => digestList
  | _ => []

def Request.offsets : Request → List ℕ
  | .registerChunks _ _ offsetList => offsetList
  | _ => []

def Request.close? : Request → Option (ℕ × ℕ × Digest)
  | .dynamicClose _ chunkCount size csum => some (chunkCount, size, csum)
  | _ => none

def uploads (requests : List Request) : List Digest := requests.filterMap Request.upload?

/-- The concatenated digest lists of the batches. -/
def registered (requests : List Request) : List Digest := requests.flatMap Request.registered

/-- The concatenated offset lists of the batches. -/
def offsets (requests : List Request) : List ℕ := requests.flatMap Request.offsets

/-- The chunk counts, sizes and checksums with which the index is closed. -/
def closes (requests : List Request) : List (ℕ × ℕ × Digest) := requests.filterMap Request.close?

/-- A batch names only chunks that were known from the start or have been uploaded before. -/
def Named (known : List Digest) (requests : List Request) : Prop :=
  ∀ before request after, requests = before ++ request :: after → ∀ d ∈ request.registered, d ∈ known ∨ d ∈ uploads before

theorem Named.concat {requests : List Request} {request : Request} (h : Named known requests)
    (hrequest : ∀ d ∈ request.registered, d ∈ known ∨ d ∈ uploads requests) : Named known (requests ++ [request]) := by
  intro before r after heq d hd
  rcases append_eq_append_iff.mp heq with ⟨mid, rfl, hmid⟩ | ⟨mid, hmid, hafter⟩
  · cases mid with
    | nil =>
      cases hmid
      rw [append_nil]
      exact hrequest d hd
    | cons r' mid => simp at hmid
  · cases mid with
    | nil =>
      cases hafter
      rw [append_nil] at hmid
      exact hmid ▸ hrequest d hd
    | cons r' mid =>
      rw [cons_append, cons.injEq] at hafter
      exact h before r mid (by rw [hmid, hafter.1]) d hd

theorem u64_add (m n : ℕ) : u64 (u64 m + n) = u64 (m + n) := Nat.mod_add_mod m _ n

variable (codec) in
/-- What the server has been told: of the chunks `handled`, the new ones have been uploaded; the chunks `pushed`
are in the index, those in the two lists excepted. -/
structure Indexed (known : List Digest) (pushed handled : List Labelled) (digestList : List Digest) (offsetList : List ℕ)
    (st : State) : Prop where
  endOffset : st.endOffset = u64 (sizeOf handled)
  entries : st.entries = endEntries codec 0 (pushed.map (·.chunk))
  uploads : uploads st.requests = newDigests codec handled
  registered : registered st.requests ++ digestList = digests codec pushed
  offsets : offsets st.requests ++ offsetList = startOffsets 0 (pushed.map (·.chunk))
  lengths : digestList.length = offsetList.length
  named : Named known st.requests

/-- Nothing is left of the stream, and nothing is on its way. -/
structure Drained (st : State) : Prop where
  producing : st.producing = false
  stream : st.stream = []
  pipeline : st.pipeline = []

variable (codec) in
/-- What holds while the consumer waits. -/
def Phase (known : List Digest) (done : List Labelled) (st : State) : Consumer → Prop
  | .connecting | .receiving => Indexed codec known done done st.digestList st.offsetList st
  | .uploading digest startOffset =>
    ∃ pushed chunk, done = pushed ++ [⟨true, chunk⟩] ∧ digest = codec.sha256 chunk ∧ startOffset = u64 (sizeOf pushed) ∧
      Indexed codec known pushed done st.digestList st.offsetList st
  | .registering last => (last = true → Drained st) ∧ Indexed codec known done done [] [] st
  | _ => False

variable (codec) in
/-- The index has been closed, with all chunks of the stream. -/
def Closed (known : List Digest) (items : List Item) (st : State) : Prop :=
  ∃ done : List Labelled, labels codec known items = done.map some ∧ Indexed codec known done done [] [] st ∧
    closes st.requests = [(done.length, u64 (sizeOf done), indexCsum codec (endEntries codec 0 (done.map (·.chunk))))]

variable (codec) in
/-- **The invariant of an upload.** -/
def Inv (known : List Digest) (items : List Item) (st : State) : Prop :=
  match st.consumer with
  | .failed => closes st.requests ≠ [] → ∃ done : List Labelled, labels codec known items = done.map some
  | .closing => Closed codec known items st
  | .finished archive => Closed codec known items st ∧ archive.size = st.endOffset
  | consumer => closes st.requests = [] ∧ ∃ done todo, Carried codec known items done todo st ∧
      Phase codec known done st consumer

theorem inv_initial (archiveName : String) : Inv codec known items (.initial archiveName items known) := by
  have hnone : Named known [] := fun before request after heq => by simp at heq
  exact ⟨rfl, [], [], ⟨rfl, .nil, nofun⟩, ⟨rfl, rfl, rfl, rfl, rfl, rfl, hnone.concat nofun⟩⟩

/-! ## Steps of the producer -/

structure Same (st st' : State) : Prop where
  consumer : st'.consumer = st.consumer
  endOffset : st'.endOffset = st.endOffset
  entries : st'.entries = st.entries
  digestList : st'.digestList = st.digestList
  offsetList : st'.offsetList = st.offsetList
  requests : st'.requests = st.requests

theorem Indexed.of_same {pushed handled : List Labelled} {digestList : List Digest} {offsetList : List ℕ}
    (h : Indexed codec known pushed handled digestList offsetList st) (hsame : Same st st') :
    Indexed codec known pushed handled digestList offsetList st' := by
  obtain ⟨-, hend, hentries, -, -, hrequests⟩ := hsame
  exact ⟨hend ▸ h.endOffset, hentries ▸ h.entries, hrequests ▸ h.uploads, hrequests ▸ h.registered, hrequests ▸ h.offsets,
    h.lengths, hrequests ▸ h.named⟩

section

variable (h : Inv codec known items st) (hrun : st.consumer.isRunning = true)
include h hrun

theorem Inv.of_same (hlive : ¬ Drained st) (hsame : Same st st')
    (hcarried : ∀ done todo, Carried codec known items done todo st → ∃ todo, Carried codec known items done todo st') :
    Inv codec known items st' := by
  rw [Inv, hsame.consumer]
  rw [Inv] at h
  cases hconsumer : st.consumer with
  | connecting => rw [hconsumer] at hrun; cases hrun
  | receiving =>
    simp only [hconsumer] at h
    obtain ⟨hopen, done, todo, hc, hphase⟩ := h
    obtain ⟨todo', hc'⟩ := hcarried done todo hc
    refine ⟨hsame.requests ▸ hopen, done, todo', hc', ?_⟩
    rw [Phase, hsame.digestList, hsame.offsetList]
    exact Indexed.of_same hphase hsame
  | uploading digest startOffset =>
    simp only [hconsumer] at h
    obtain ⟨hopen, done, todo, hc, pushed, chunk, hdone, hdigest, hstart, hindexed⟩ := h
    obtain ⟨todo', hc'⟩ := hcarried done todo hc
    refine ⟨hsame.requests ▸ hopen, done, todo', hc', pushed, chunk, hdone, hdigest, hstart, ?_⟩
    rw [hsame.digestList, hsame.offsetList]
    exact hindexed.of_same hsame
  | registering last =>
    simp only [hconsumer] at h
    obtain ⟨hopen, done, todo, hc, hlast, hindexed⟩ := h
    obtain ⟨todo', hc'⟩ := hcarried done todo hc
    exact ⟨hsame.requests ▸ hopen, done, todo', hc', fun hl => absurd (hlast hl) hlive, hindexed.of_same hsame⟩
  | closing => rw [hconsumer] at hrun; cases hrun
  | finished archive => rw [hconsumer] at hrun; cases hrun
  | failed => rw [hconsumer] at hrun; cases hrun

theorem Inv.poll (hstep : st.poll codec threads = some st') : Inv codec known items st' := by
  refine h.of_same hrun (fun hd => ?_) ?_ fun done todo hc => hc.poll hstep
  · simp [State.poll, hd.producing] at hstep
  · rw [State.poll] at hstep
    split_ifs at hstep
    split at hstep
    · cases hstep
    · cases hstep; exact ⟨rfl, rfl, rfl, rfl, rfl, rfl⟩
    · dsimp only at hstep
      split_ifs at hstep <;> cases hstep <;> exact ⟨rfl, rfl, rfl, rfl, rfl, rfl⟩

theorem Inv.encoded {i : ℕ} {error : Option String}
    (hstep : st.encoded codec i error = some st') : Inv codec known items st' := by
  refine h.of_same hrun (fun hd => ?_) ?_ fun done todo hc => ⟨todo, hc.encoded hstep⟩
  · have hbuffer : st.buffer = [] := (append_eq_nil_iff.mp hd.pipeline).2
    simp [State.encoded, hbuffer] at hstep
  · rw [State.encoded] at hstep
    split at hstep
    · cases hstep; exact ⟨rfl, rfl, rfl, rfl, rfl, rfl⟩
    · cases hstep

theorem Inv.next (hstep : st.next = some st') :
    Inv codec known items st' := by
  refine h.of_same hrun (fun hd => ?_) ?_ fun done todo hc => ⟨todo, hc.next hstep⟩
  · simp [State.next, hd.producing] at hstep
  · rw [State.next] at hstep
    split_ifs at hstep
    split at hstep <;> cases hstep <;> exact ⟨rfl, rfl, rfl, rfl, rfl, rfl⟩

theorem Inv.send (hstep : st.send = some st') :
    Inv codec known items st' := by
  refine h.of_same hrun (fun hd => ?_) ?_ fun done todo hc => ⟨todo, hc.send hstep⟩
  · have hheld := (append_eq_nil_iff.mp (append_eq_nil_iff.mp hd.pipeline).1).2
    have hnone : st.held = none := by simpa using hheld
    simp [State.send, hnone] at hstep
  · rw [State.send] at hstep
    split at hstep
    · split_ifs at hstep
      cases hstep
      exact ⟨rfl, rfl, rfl, rfl, rfl, rfl⟩
    · cases hstep

end

/-! ## Steps of the consumer -/

theorem Carried.of_producer (h : Carried codec known items done todo st)
    (hsame : st'.known = st.known ∧ st'.stream = st.stream ∧ st'.producing = st.producing ∧ st'.channel = st.channel ∧
      st'.pipeline = st.pipeline ∧ st'.buffer = st.buffer ∧ st'.held = st.held) :
    Carried codec known items done todo st' := by
  obtain ⟨hknown, hstream, hproducing, hchannel, hpipeline, hbuffer, hheld⟩ := hsame
  refine ⟨by rw [hknown, hstream]; exact h.ordered, by rw [hpipeline]; exact h.agrees, ?_⟩
  rw [hproducing, hstream, hbuffer, hheld, hchannel]
  exact h.stopped

theorem Indexed.registerChunks (hc : Carried codec known items done todo st)
    (h : Indexed codec known done done st.digestList st.offsetList st) (last : Bool) :
    Indexed codec known done done [] [] (st.registerChunks last) := by
  have hspec := newDigests_spec (hc.ordered.trans (append_assoc _ _ _))
  refine ⟨h.endOffset, h.entries, ?_, ?_, ?_, rfl, h.named.concat fun d hd => ?_⟩
  · rw [← h.uploads]; simp [State.registerChunks, Writer.uploads, Request.upload?]
  · rw [← h.registered]; simp [State.registerChunks, Writer.registered, Request.registered]
  · rw [← h.offsets]; simp [State.registerChunks, Writer.offsets, Request.offsets]
  · rw [h.uploads]
    exact hspec.2.2 d (h.registered ▸ mem_append_right _ hd)

theorem closes_registerChunks (last : Bool) : closes (st.registerChunks last).requests = closes st.requests := by
  simp [registerChunks, closes, Request.close?]

theorem Inv.push {pushed : List Labelled} {l : Labelled} (hopen : closes st.requests = [])
    (hc : Carried codec known items (pushed ++ [l]) todo st)
    (h : Indexed codec known pushed (pushed ++ [l]) st.digestList st.offsetList st) :
    Inv codec known items (st.push (codec.sha256 l.chunk) (u64 (sizeOf pushed))) := by
  rw [State.push]
  generalize hpushed : ({ st with
    consumer := .receiving
    entries := st.entries ++ [(st.endOffset, codec.sha256 l.chunk)]
    digestList := st.digestList ++ [codec.sha256 l.chunk]
    offsetList := st.offsetList ++ [u64 (sizeOf pushed)] }) = st'
  have hc' : Carried codec known items (pushed ++ [l]) todo st' := hc.of_producer (by subst hpushed; simp [pipeline])
  have hopen' : closes st'.requests = [] := by subst hpushed; exact hopen
  have hindexed : Indexed codec known (pushed ++ [l]) (pushed ++ [l]) st'.digestList st'.offsetList st' := by
    subst hpushed
    refine ⟨h.endOffset, ?_, h.uploads, ?_, ?_, by simp [h.lengths], h.named⟩
    · rw [map_append, map_singleton, endEntries_concat, h.entries, h.endOffset, sizeOf_concat, Nat.zero_add,
        map_map]
      rfl
    · rw [← append_assoc, h.registered, digests, digests, map_append, map_singleton]
    · rw [← append_assoc, h.offsets, map_append, map_singleton, startOffsets_concat, Nat.zero_add, map_map]
      rfl
  have hconsumer : st'.consumer = .receiving := by subst hpushed; rfl
  split_ifs
  · refine ⟨(closes_registerChunks false).trans hopen', _, todo, ?_, nofun, hindexed.registerChunks hc' false⟩
    exact hc'.of_producer (by simp [registerChunks, pipeline])
  · rw [Inv, hconsumer]
    exact ⟨hopen', _, todo, hc', hindexed⟩

theorem Closed.close (hopen : closes st.requests = []) (hdrained : Drained st)
    (hc : Carried codec known items done todo st)
    (h : Indexed codec known done done [] [] st) : Closed codec known items (st.close codec) := by
  have htodo : todo = [] := by
    have hagrees := hc.agrees
    rw [hdrained.pipeline] at hagrees
    cases hagrees
    rfl
  have hordered := hc.ordered
  rw [htodo, hdrained.stream, labels, append_nil, append_nil] at hordered
  refine ⟨done, hordered, ⟨h.endOffset, h.entries, ?_, ?_, ?_, rfl, h.named.concat nofun⟩, ?_⟩
  · rw [← h.uploads]; simp [State.close, uploads, Request.upload?]
  · rw [← h.registered]; simp [State.close, registered, Request.registered]
  · rw [← h.offsets]; simp [State.close, offsets, Request.offsets]
  · rw [closes] at hopen
    simp [State.close, closes, Request.close?, hopen, length_endEntries, h.endOffset, h.entries]

theorem Carried.recv {message : ChunkMessage} {channel : List Message} (h : Carried codec known items done todo st)
    (st' : State)
    (hchannel : st.channel = .ok message :: channel) (hsame : st'.known = st.known ∧ st'.stream = st.stream ∧
      st'.producing = st.producing ∧ st'.channel = channel ∧ st'.buffer = st.buffer ∧ st'.held = st.held) :
    ∃ l todo, Agrees codec (some l) (.ready (.ok message)) ∧ Carried codec known items (done ++ [l]) todo st' := by
  obtain ⟨hknown, hstream, hproducing, hchannel', hbuffer, hheld⟩ := hsame
  have hpipeline : st.pipeline = .ready (.ok message) :: st'.pipeline := by
    rw [pipeline, pipeline, hchannel, hchannel', hbuffer, hheld]
    simp
  have hagrees := h.agrees
  rw [hpipeline] at hagrees
  obtain ⟨l, todo, hl, htodo, rfl⟩ := forall₂_cons_right_iff.mp hagrees
  obtain ⟨l, rfl⟩ : ∃ l', l = some l' := by cases hl <;> exact ⟨_, rfl⟩
  refine ⟨l, todo, hl, ?_, htodo, fun hstop => ?_⟩
  · rw [hknown, hstream, h.ordered]; simp
  · rw [hstream, hbuffer, hheld, hchannel']
    refine (h.stopped (hproducing ▸ hstop)).imp_right fun ⟨e, he⟩ => ⟨e, ?_⟩
    rw [hchannel] at he
    exact (mem_cons.mp he).resolve_left nofun

section

variable (h : Inv codec known items st)
include h

/-- A chunk that is known goes to the lists at once, a new one is uploaded first. -/
theorem Inv.recv (hreceiving : st.consumer = .receiving) (hstep : st.recv codec = some st') :
    Inv codec known items st' := by
  rw [Inv, hreceiving] at h
  obtain ⟨hopen, done, todo, hc, hphase⟩ := h
  have hindexed : Indexed codec known done done st.digestList st.offsetList st := hphase
  rw [State.recv] at hstep
  split at hstep
  · cases hstep
    exact fun hclosed => absurd hopen hclosed
  · next digest size channel hchannel =>
    cases hstep
    obtain ⟨l, todo', hl, hc'⟩ := hc.recv { st with channel, endOffset := u64 (st.endOffset + size) } hchannel
      ⟨rfl, rfl, rfl, rfl, rfl, rfl⟩
    cases hl with
    | @known chunk =>
      rw [hindexed.endOffset] at hc' ⊢
      refine push ?_ hc'
        { hindexed with endOffset := ?_, uploads := ?_ }
      · exact hopen
      · rw [u64_add, sizeOf_concat]
      · rw [newDigests_concat]
        exact hindexed.uploads.trans (append_nil _).symm
  · next blob channel hchannel =>
    cases hstep
    obtain ⟨l, todo', hl, hc'⟩ := hc.recv { st with
      channel
      endOffset := u64 (st.endOffset + blob.plaintextSize)
      consumer := .uploading blob.digest st.endOffset
      requests := st.requests ++ [.dynamicChunk st.wid blob.digest blob.plaintextSize blob.data.length blob.data] }
      hchannel ⟨rfl, rfl, rfl, rfl, rfl, rfl⟩
    cases hl with
    | @new chunk =>
      refine ⟨?_, _, todo', hc', done, chunk, rfl, rfl, hindexed.endOffset,
        ⟨?_, hindexed.entries, ?_, ?_, ?_, hindexed.lengths, ?_⟩⟩
      · rw [closes] at hopen
        simp [closes, Request.close?, hopen]
      · show u64 (st.endOffset + chunk.length) = _
        rw [hindexed.endOffset, u64_add, sizeOf_concat]
      · rw [newDigests_concat, ← hindexed.uploads]
        simp [uploads, Request.upload?, encodeBlobWithDigest]
      · rw [← hindexed.registered]; simp [registered, Request.registered]
      · rw [← hindexed.offsets]; simp [offsets, Request.offsets]
      · exact hindexed.named.concat nofun
  · next hchannel =>
    split_ifs at hstep with hproducing hempty
    all_goals
      have hdrained : Drained st := by
        rcases hc.stopped (by simpa using hproducing) with ⟨hstream, hbuffer, hheld⟩ | ⟨e, he⟩
        · exact ⟨by simpa using hproducing, hstream, by rw [pipeline, hchannel, hheld, hbuffer]; rfl⟩
        · rw [hchannel] at he; cases he
      cases hstep
    · have hoffsets : st.offsetList = [] := eq_nil_of_length_eq_zero (by rw [← hindexed.lengths, hempty]; rfl)
      exact Closed.close hopen hdrained hc (by rw [hempty, hoffsets] at hindexed; exact hindexed)
    · refine ⟨(closes_registerChunks true).trans hopen, done, todo, ?_, fun _ => ?_, hindexed.registerChunks hc true⟩
      · exact hc.of_producer (by simp [registerChunks, pipeline])
      · exact { hdrained with }

theorem Inv.answered {value : Option ℕ} (hstep : st.answered codec value = some st') :
    Inv codec known items st' := by
  rw [Inv] at h
  unfold State.answered at hstep
  cases hconsumer : st.consumer with
  | connecting =>
    simp only [hconsumer] at h hstep
    obtain ⟨hopen, done, todo, hc, hphase⟩ := h
    have hindexed : Indexed codec known done done st.digestList st.offsetList st := hphase
    cases value with
    | none =>
      cases hstep
      exact fun hclosed => absurd hopen hclosed
    | some wid =>
      cases hstep
      refine ⟨hopen, done, todo, hc.of_producer (by simp [pipeline]), ?_⟩
      exact { hindexed with }
  | uploading digest startOffset =>
    simp only [hconsumer] at h hstep
    obtain ⟨hopen, _, todo, hc, pushed, chunk, rfl, rfl, rfl, hindexed⟩ := h
    cases hstep
    exact push hopen hc hindexed
  | registering last =>
    simp only [hconsumer] at h hstep
    obtain ⟨hopen, done, todo, hc, hlast, hindexed⟩ := h
    cases hstep
    have hcleared : Indexed codec known done done [] []
        { st with consumer := .receiving, digestList := [], offsetList := [] } :=
      { hindexed with lengths := rfl }
    have hc' : Carried codec known items done todo
        { st with consumer := .receiving, digestList := [], offsetList := [] } :=
      hc.of_producer (by simp [pipeline])
    cases last with
    | false => exact ⟨hopen, done, todo, hc', hcleared⟩
    | true =>
      have hdrained := hlast rfl
      exact Closed.close hopen { hdrained with } hc' hcleared
  | closing =>
    simp only [hconsumer] at h hstep
    obtain ⟨done, hlabels, hindexed, hcloses⟩ := h
    cases hstep
    refine ⟨⟨done, hlabels, ?_, hcloses⟩, rfl⟩
    exact { hindexed with lengths := rfl }
  | receiving => simp [hconsumer] at hstep
  | finished archive => simp [hconsumer] at hstep
  | failed => simp [hconsumer] at hstep

theorem Inv.fail : Inv codec known items { st with consumer := .failed } := by
  intro hclosed
  rw [Inv] at h
  split at h
  · exact h hclosed
  · exact h.imp fun _ hdone => hdone.1
  · exact h.1.imp fun _ hdone => hdone.1
  · exact absurd h.1 hclosed

theorem Inv.respond {answer : Option (Option ℕ)} (hstep : st.respond codec answer = some st') :
    Inv codec known items st' := by
  unfold State.respond at hstep
  split at hstep
  iterate 3 cases hstep
  · cases hstep
    exact h.fail
  · exact h.answered hstep

/-! ## Whole runs -/

/-- **One step** of the producer, of the consumer or of the server. -/
theorem inv_step {a : Action} (hstep : step codec threads st a = some st') :
    Inv codec known items st' := by
  cases a <;> rw [step] at hstep
  case poll =>
    split_ifs at hstep with hrun
    exact h.poll hrun hstep
  case encoded i error =>
    split_ifs at hstep with hrun
    exact h.encoded hrun hstep
  case next =>
    split_ifs at hstep with hrun
    exact h.next hrun hstep
  case send =>
    split_ifs at hstep with hrun
    exact h.send hrun hstep
  case recv =>
    split at hstep
    · next hreceiving => exact h.recv hreceiving hstep
    · cases hstep
  case respond answer => exact h.respond hstep

end

/-- **Whole runs**, with the steps in any order. -/
theorem inv_of_reachable {archiveName : String} (h : Reachable codec threads archiveName items known st) :
    Inv codec known items st := by
  obtain ⟨actions, hrun⟩ := h
  exact inv_of_scheduled (fun _ _ _ hinv _ hstep => inv_step hinv hstep) (inv_initial archiveName) hrun

/-- **A finished upload describes the stream that it read.**  The index is only closed when the chunker has ended
without an error.  When the upload returns its result, the batches name the digests of all chunks in order, with
the offsets where they start; the index is closed once, with the number of chunks and their length; what was not
known from the start has been uploaded exactly once, before the batch that names it; and nothing else has been
uploaded. -/
theorem upload_describes_stream {archiveName : String} {st : State}
    (h : Reachable codec threads archiveName items known st) :
    (closes st.requests ≠ [] → ∃ chunks : List (List Byte), items = chunks.map .ok) ∧
    ∀ archive, st.consumer = .finished archive → ∃ chunks : List (List Byte), items = chunks.map .ok ∧
      registered st.requests = chunks.map codec.sha256 ∧
      offsets st.requests = startOffsets 0 chunks ∧
      closes st.requests = [(chunks.length, u64 chunks.flatten.length, indexCsum codec (endEntries codec 0 chunks))] ∧
      archive.size = u64 chunks.flatten.length ∧
      (∀ d, (uploads st.requests).count d = if d ∈ chunks.map codec.sha256 ∧ d ∉ known then 1 else 0) ∧
      ∀ before request after, st.requests = before ++ request :: after →
        ∀ d ∈ request.registered, d ∉ known → d ∈ uploads before := by
  have hinv := inv_of_reachable h
  constructor
  · intro hclosed
    obtain ⟨done, hdone⟩ : ∃ done : List Labelled, labels codec known items = done.map some := by
      have hfail := hinv.fail
      exact hfail hclosed
    exact ⟨done.map (·.chunk), by rw [items_of_labels hdone, map_map]; rfl⟩
  · intro archive harchive
    rw [Inv, harchive] at hinv
    obtain ⟨⟨done, hdone, hindexed, hcloses⟩, hsize⟩ := hinv
    obtain ⟨hnodup, hfresh, hall⟩ := newDigests_spec (hdone.trans (append_nil _).symm)
    have htotal : (done.map (·.chunk)).flatten.length = sizeOf done := by
      rw [length_flatten, map_map]; rfl
    have hdigests : (done.map (·.chunk)).map codec.sha256 = digests codec done := by rw [map_map]; rfl
    refine ⟨done.map (·.chunk), by rw [items_of_labels hdone, map_map]; rfl, ?_, ?_, ?_, ?_, fun d => ?_, ?_⟩
    · rw [hdigests, ← hindexed.registered, append_nil]
    · rw [← hindexed.offsets, append_nil]
    · rw [hcloses, htotal, length_map]
    · rw [hsize, hindexed.endOffset, htotal]
    · rw [hdigests, hindexed.uploads]
      split_ifs with hd
      · exact count_eq_one_of_mem hnodup ((hall d hd.1).resolve_left hd.2)
      · refine count_eq_zero_of_not_mem fun hmem => hd ⟨?_, hfresh d hmem⟩
        obtain ⟨l, hl, rfl⟩ := mem_map.mp hmem
        exact mem_map.mpr ⟨l, (mem_filter.mp hl).1, rfl⟩
    · intro before request after heq d hd hknown
      exact (hindexed.named before request after heq d hd).resolve_left hknown

/-- An upload of the chunk `a` two times: the second one is known. -/
theorem upload_describes_repeated_chunk :
    let digest : Digest := [0xCA, 0x97, 0x81, 0x12, 0xCA, 0x1B, 0xBD, 0xCA, 0xFA, 0xC2, 0x31, 0xB3, 0x9A, 0x23, 0xDC, 0x4D,
      0xA7, 0x86, 0xEF, 0xF8, 0x14, 0x7C, 0x4E, 0x72, 0xB9, 0x80, 0x77, 0x85, 0xAF, 0xEE, 0x48, 0xBB]
    let indexDigest : Digest := [0xF5, 0xD5, 0xCE, 0x5B, 0x56, 0x0E, 0xCA, 0xA8, 0x25, 0xFC, 0x1C, 0xE8, 0xF5, 0x6B, 0xB4,
      0x5B, 0xE3, 0x33, 0x97, 0x31, 0xA6, 0x1B, 0xC5, 0xAF, 0xBC, 0xBC, 0x18, 0xD9, 0x22, 0x39, 0x97, 0x49]
    let codec : Codec :=
      { sha256 := fun data => if data = [0x61] then digest else indexDigest
        compress := fun _ => some [0x28, 0xB5, 0x2F, 0xFD, 0x20, 0x01, 0x09, 0x00, 0x00, 0x61]
        crc32 := fun _ => 0xE8B7BE43 }
    let items : List Item := [.ok [0x61], .ok [0x61]]
    ∃ st archive, Reachable codec 1 "root.pxar.didx" items [] st ∧ st.consumer = .finished archive ∧
      uploads st.requests = [digest] ∧ ∃ chunks : List (List Byte), items = chunks.map (Except.ok (ε := String)) ∧
        registered st.requests = chunks.map codec.sha256 ∧ offsets st.requests = startOffsets 0 chunks ∧
        archive.size = u64 chunks.flatten.length := by
  intro digest indexDigest codec items
  have hrun : ∃ st archive, Scheduled (step codec 1) (fun _ _ => True) (.initial "root.pxar.didx" items [])
      [.respond (some (some 1)), .poll, .encoded 0 none, .next, .send, .poll, .next, .send, .next, .recv,
        .respond (some none),
        .recv, .recv, .respond (some none), .respond (some none)] st ∧ st.consumer = .finished archive ∧
        uploads st.requests = [digest] := by
    exact ⟨_, _, scheduled_of_foldlM (fun _ _ _ => trivial) rfl, rfl, rfl⟩
  obtain ⟨st, archive, hrun, hfinished, huploads⟩ := hrun
  have hreachable : Reachable codec 1 "root.pxar.didx" items [] st := ⟨_, hrun⟩
  obtain ⟨chunks, hitems, hregistered, hoffsets, _, hsize, _⟩ := (upload_describes_stream hreachable).2 archive hfinished
  exact ⟨st, archive, hreachable, hfinished, huploads, chunks, hitems, hregistered, hoffsets, hsize⟩

end Wings.Pbs.Writer
