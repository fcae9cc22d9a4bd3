import Wings.Filesystem.ServerFile

/-!
# Wings.Filesystem.AsyncServerFile — charging through an allocation future

`server/filesystem/file.rs`, `AsyncServerFile`.  The handle charges like `ServerFile`, but an
allocation is a future the handle owns and polls: its first poll updates the cached totals, and it
then waits for the write lock of the disk usage tree before it updates the tree.  Dropping the
handle drops that future and spawns a task for `accumulated_bytes + allocating_bytes`.

* **`dropped_cached_iff`**
-/

namespace Wings.Filesystem

open Lib

/-! ## The handle and its future -/

inductive Poll (α : Type)
  | ready (value : α)
  | pending
  deriving DecidableEq, Repr

/-- The deltas applied on behalf of a handle: to the cached totals, and to the tree. -/
structure Ledger where
  cached : List ℤ
  tree : List ℤ
  deriving DecidableEq, Repr

/-- The future of `async_allocate_in_path_iterator`.  `charged` is its suspension point: the cached
totals are updated and the tree is not. -/
structure Allocation where
  bytes : ℤ
  charged : Bool
  deriving DecidableEq, Repr

/-- `AsyncServerFile`, with the ledger of what was charged for it. -/
structure AsyncServerFile where
  ignorant : Bool
  accumulatedBytes : ℤ
  allocatingBytes : ℤ
  allocationInProgress : Option Allocation
  currentPosition : ℕ
  highestPosition : ℕ
  ledger : Ledger
  deriving DecidableEq, Repr

/-- What one poll of an allocation finds: the cached totals, and whether the lock of the tree is
free. -/
structure Grant where
  usage : Cached
  lockFree : Bool

/-- The future waits for the lock and then updates the tree. -/
def Allocation.pollLock (fut : Allocation) (grant : Grant) (ledger : Ledger) : Poll Bool × Allocation × Ledger :=
  if grant.lockFree then
    (.ready true, fut, { ledger with tree := ledger.tree ++ [fut.bytes] })
  else
    (.pending, fut, ledger)

/-- One poll of the future: the first one passes the cached totals, or is refused there. -/
def Allocation.poll (fut : Allocation) (ignorant : Bool) (grant : Grant) (ledger : Ledger) :
    Poll Bool × Allocation × Ledger :=
  if fut.charged then
    fut.pollLock grant ledger
  else
    match tryUpdateAtomics grant.usage (.ofI64 fut.bytes) ignorant with
    | none => (.ready false, fut, ledger)
    | some _ => { fut with charged := true : Allocation }.pollLock grant
        { ledger with cached := ledger.cached ++ [fut.bytes] }

namespace AsyncServerFile

def wrap (accumulatedBytes : ℤ) (highestPosition : ℕ) : AsyncServerFile where
  ignorant := false
  accumulatedBytes := accumulatedBytes
  allocatingBytes := 0
  allocationInProgress := none
  currentPosition := 0
  highestPosition := highestPosition
  ledger := ⟨[], []⟩

/-- `AsyncServerFile::new_checked` over a file of `previousSize` bytes, which it truncates. -/
def newChecked (previousSize : ℕ) : AsyncServerFile :=
  wrap (wrapI64 (-wrapI64 previousSize)) 0

def newFile (initialSize : ℕ) : AsyncServerFile := wrap 0 initialSize

def beIgnorant (s : AsyncServerFile) : AsyncServerFile := { s with ignorant := true }

def startAllocation (s : AsyncServerFile) : AsyncServerFile :=
  if s.accumulatedBytes ≠ 0 ∧ s.allocationInProgress = none then
    { s with
      allocationInProgress := some ⟨s.accumulatedBytes, false⟩
      allocatingBytes := s.accumulatedBytes
      accumulatedBytes := 0 }
  else s

def pollAllocation (s : AsyncServerFile) (grant : Grant) : AsyncServerFile × Poll (Except IoError Unit) :=
  match s.allocationInProgress with
  | none => (s, .ready (.ok ()))
  | some fut =>
    match fut.poll s.ignorant grant s.ledger with
    | (.ready true, _, ledger) =>
      ({ s with allocationInProgress := none, allocatingBytes := 0, ledger := ledger },
        .ready (.ok ()))
    | (.ready false, _, ledger) =>
      ({ s with
          allocationInProgress := none
          accumulatedBytes := wrapI64 (s.accumulatedBytes + s.allocatingBytes)
          allocatingBytes := 0
          ledger := ledger },
        .ready (.error .storageFull))
    | (.pending, fut, ledger) =>
      ({ s with allocationInProgress := some fut, ledger := ledger }, .pending)

/-- The bookkeeping of `poll_write` after `written` bytes. -/
def advance (s : AsyncServerFile) (written : ℕ) : AsyncServerFile :=
  let position := wrapU64 (s.currentPosition + written)
  let s := { s with currentPosition := position }
  let s :=
    if s.highestPosition < position then
      { s with
        accumulatedBytes :=
          wrapI64 (s.accumulatedBytes + wrapI64 (position - s.highestPosition : ℕ))
        highestPosition := position }
    else s
  if allocationThreshold ≤ s.accumulatedBytes then s.startAllocation else s

end AsyncServerFile

/-! ## The polls -/

/-- What the file below answers to a poll: `none` is an error. -/
abbrev FilePoll := Poll (Option ℕ)

/-- A poll of the handle, with what it finds.  Flushing and shutting down differ only in what they
ask of the file. -/
inductive AsyncOp
  | pollWrite (grant : Grant) (file : FilePoll)
  | pollFlush (grant again : Grant) (file : FilePoll)
  | pollShutdown (grant again : Grant) (file : FilePoll)
  | startSeek (accepted : Bool)
  | pollComplete (grant : Grant) (file : FilePoll)
  | pollRead (file : FilePoll)

/-- A poll returns a number where the source does, and `0` for unit. -/
abbrev AsyncReply := Poll (Except IoError ℕ)

/-- The file's answer as the handle passes it on. -/
def FilePoll.reply : FilePoll → AsyncReply
  | .pending => .pending
  | .ready none => .ready (.error .os)
  | .ready (some n) => .ready (.ok n)

namespace AsyncServerFile

/-- The `match self.poll_allocation(cx)` at the head of a poll: go on once it is done. -/
def afterAllocation (s : AsyncServerFile) (grant : Grant)
    (next : AsyncServerFile → AsyncServerFile × AsyncReply) : AsyncServerFile × AsyncReply :=
  match s.pollAllocation grant with
  | (s, .ready (.ok ())) => next s
  | (s, .ready (.error err)) => (s, .ready (.error err))
  | (s, .pending) => (s, .pending)

def pollWrite (s : AsyncServerFile) (grant : Grant) (file : FilePoll) : AsyncServerFile × AsyncReply :=
  s.afterAllocation grant fun s =>
    match file with
    | .ready (some written) => (s.advance written, file.reply)
    | _ => (s, file.reply)

def pollFlush (s : AsyncServerFile) (grant again : Grant) (file : FilePoll) : AsyncServerFile × AsyncReply :=
  s.afterAllocation grant fun s =>
    if s.accumulatedBytes ≠ 0 then
      s.startAllocation.afterAllocation again fun s => (s, file.reply)
    else
      (s, file.reply)

def startSeek (s : AsyncServerFile) (accepted : Bool) : AsyncServerFile × AsyncReply :=
  let s := if s.accumulatedBytes ≠ 0 then s.startAllocation else s
  (s, .ready (if accepted then .ok 0 else .error .os))

def pollComplete (s : AsyncServerFile) (grant : Grant) (file : FilePoll) : AsyncServerFile × AsyncReply :=
  s.afterAllocation grant fun s =>
    match file with
    | .ready (some newPos) => ({ s with currentPosition := newPos }, file.reply)
    | _ => (s, file.reply)

/-- `Drop`, and the task it spawns, run to its end: the ledger of everything charged for the
handle.  The future in progress is dropped where it stands. -/
def drop (s : AsyncServerFile) (usage : Cached) : Ledger :=
  let leftover := wrapI64 (s.accumulatedBytes + s.allocatingBytes)
  if leftover ≠ 0 then
    (Allocation.poll ⟨leftover, false⟩ s.ignorant ⟨usage, true⟩ s.ledger).2.2
  else s.ledger

end AsyncServerFile

def AsyncOp.step (s : AsyncServerFile) : AsyncOp → AsyncServerFile × AsyncReply
  | .pollWrite grant file => s.pollWrite grant file
  | .pollFlush grant again file => s.pollFlush grant again file
  | .pollShutdown grant again file => s.pollFlush grant again file
  | .startSeek accepted => s.startSeek accepted
  | .pollComplete grant file => s.pollComplete grant file
  | .pollRead file => (s, file.reply)

/-- File offsets are signed 64-bit numbers: the file never reports a position, nor accepts bytes at
a position, beyond `i64::MAX`. -/
def AsyncOp.InRange (s : AsyncServerFile) : AsyncOp → Prop
  | .pollWrite _ (.ready (some written)) => s.currentPosition + written ≤ maxOffset
  | .pollComplete _ (.ready (some newPos)) => newPos ≤ maxOffset
  | _ => True

/-! ## The books of a live handle -/

namespace AsyncServerFile

variable {s t : AsyncServerFile} {start : ℤ}

/-- An allocation that already updated the cached totals is waiting for the lock. -/
def Charged (s : AsyncServerFile) : Prop :=
  ∃ fut, s.allocationInProgress = some fut ∧ fut.charged = true

instance (s : AsyncServerFile) : Decidable s.Charged :=
  match h : s.allocationInProgress with
  | none => isFalse fun ⟨_, hs, _⟩ => by simp [h] at hs
  | some fut =>
    if hc : fut.charged = true then isTrue ⟨fut, h, hc⟩
    else isFalse fun ⟨_, hs, hf⟩ => hc (by rw [h] at hs; cases hs; exact hf)

/-- The part of `allocating_bytes` that the cached totals do not know yet. -/
def uncharged (s : AsyncServerFile) : ℤ := if s.Charged then 0 else s.allocatingBytes

/-- Everything the handle owes is accounted for: what was charged, what is accumulated and what is
in progress add up to its growth.  `start` is the initial accumulator minus the initial highest
position. -/
structure Books (start : ℤ) (s : AsyncServerFile) : Prop where
  ignorant : s.ignorant = true
  cached : s.ledger.cached.sum + s.accumulatedBytes + s.uncharged = s.highestPosition + start
  tree : s.ledger.tree.sum + s.accumulatedBytes + s.allocatingBytes = s.highestPosition + start
  idle : s.allocationInProgress = none → s.allocatingBytes = 0
  busy : ∀ fut, s.allocationInProgress = some fut → fut.bytes = s.allocatingBytes ∧ s.allocatingBytes ≠ 0
  debit : -(maxOffset : ℤ) ≤ s.accumulatedBytes
  credit : s.accumulatedBytes ≤ s.highestPosition
  debit_all : -(maxOffset : ℤ) ≤ s.accumulatedBytes + s.allocatingBytes
  credit_all : s.accumulatedBytes + s.allocatingBytes ≤ s.highestPosition
  position : s.currentPosition ≤ maxOffset
  highest : s.highestPosition ≤ maxOffset

theorem uncharged_of_idle (h : s.allocationInProgress = none) : s.uncharged = s.allocatingBytes := by
  refine if_neg fun ⟨_, hs, _⟩ => ?_
  rw [h] at hs
  cases hs

theorem Books.startAllocation (h : Books start s) : Books start s.startAllocation := by
  unfold AsyncServerFile.startAllocation
  split_ifs with hs
  · obtain ⟨hne, hnone⟩ := hs
    have h0 := h.idle hnone
    have hc := h.cached
    have ht := h.tree
    rw [uncharged_of_idle hnone] at hc
    refine ⟨h.ignorant, ?_, ?_, (fun hn => nomatch hn), ?_, ?_, ?_, ?_, ?_, h.position, h.highest⟩
    · show s.ledger.cached.sum + 0 + s.accumulatedBytes = s.highestPosition + start
      omega
    · show s.ledger.tree.sum + 0 + s.accumulatedBytes = s.highestPosition + start
      omega
    · rintro fut ⟨⟩
      exact ⟨rfl, hne⟩
    · show -(maxOffset : ℤ) ≤ 0
      omega
    · exact Int.natCast_nonneg _
    · show -maxOffset ≤ 0 + s.accumulatedBytes
      have := h.debit
      omega
    · show 0 + s.accumulatedBytes ≤ s.highestPosition
      have := h.credit
      omega
  · exact h

/-- A poll of an ignorant handle's allocation never ends refused: the first one charges the cached
totals, and every one then tries the lock. -/
theorem poll_ignorant (fut : Allocation) (grant : Grant) (ledger : Ledger) :
    fut.poll true grant ledger =
      Allocation.pollLock { fut with charged := true } grant
        (if fut.charged then ledger else { ledger with cached := ledger.cached ++ [fut.bytes] }) := by
  unfold Allocation.poll
  by_cases hc : fut.charged = true
  · rw [if_pos hc, if_pos hc, ← hc]
  · rw [if_neg hc, if_neg hc]
    obtain ⟨c, hup⟩ := Option.isSome_iff_exists.mp (tryUpdateAtomics_ignorant grant.usage (.ofI64 fut.bytes))
    rw [hup]

/-- The state while the allocation waits, its first poll done. -/
def waiting (s : AsyncServerFile) (fut : Allocation) : AsyncServerFile :=
  { s with
    allocationInProgress := some { fut with charged := true }
    ledger := if fut.charged then s.ledger
      else { s.ledger with cached := s.ledger.cached ++ [fut.bytes] } }

/-- Charging the cached totals on the first poll moves the bytes from owed to charged. -/
theorem Books.waiting (h : Books start s) {fut : Allocation}
    (hf : s.allocationInProgress = some fut) : Books start (s.waiting fut) := by
  obtain ⟨hbytes, hne⟩ := h.busy fut hf
  have hun' : (s.waiting fut).uncharged = 0 := if_pos ⟨_, rfl, rfl⟩
  refine { h with cached := ?_, tree := ?_, idle := (fun hn => nomatch hn), busy := ?_ }
  · have hc := h.cached
    rw [hun']
    by_cases hfut : fut.charged = true
    · rw [show s.uncharged = 0 from if_pos ⟨fut, hf, hfut⟩] at hc
      simpa [AsyncServerFile.waiting, hfut] using hc
    · have hun : s.uncharged = s.allocatingBytes := by
        refine if_neg fun ⟨fut', hf', hc'⟩ => hfut ?_
        rw [hf] at hf'
        cases hf'
        exact hc'
      simp only [AsyncServerFile.waiting, if_neg hfut, List.sum_append, List.sum_singleton]
      omega
  · by_cases hfut : fut.charged = true <;> simpa [AsyncServerFile.waiting, hfut] using h.tree
  · rintro fut' ⟨⟩
    exact ⟨hbytes, hne⟩

/-- The state once the waiting allocation got the lock. -/
def finished (s : AsyncServerFile) (fut : Allocation) : AsyncServerFile :=
  { s with
    allocationInProgress := none
    allocatingBytes := 0
    ledger := { s.ledger with tree := s.ledger.tree ++ [fut.bytes] } }

section

variable (h : Books start s)
include h

theorem Books.finished (fut : Allocation) (hf : s.allocationInProgress = some fut) (hcharged : fut.charged = true) :
    Books start (s.finished fut) := by
  obtain ⟨hbytes, -⟩ := h.busy fut hf
  have hc := h.cached
  have ht := h.tree
  have hd := h.debit
  have hu := h.credit
  rw [show s.uncharged = 0 from if_pos ⟨fut, hf, hcharged⟩] at hc
  refine ⟨h.ignorant, ?_, ?_, fun _ => rfl, (fun _ hs => nomatch hs), hd, hu, ?_, ?_, h.position, h.highest⟩
  · exact hc
  · simp only [AsyncServerFile.finished, List.sum_append, List.sum_singleton]
    omega
  · simp only [AsyncServerFile.finished]
    omega
  · simp only [AsyncServerFile.finished]
    omega

theorem Books.pollAllocation (grant : Grant) :
    Books start (s.pollAllocation grant).1 ∧ (s.pollAllocation grant).1.currentPosition = s.currentPosition := by
  unfold AsyncServerFile.pollAllocation
  cases hf : s.allocationInProgress with
  | none => exact ⟨h, rfl⟩
  | some fut =>
    have hw := h.waiting hf
    have hpoll : fut.poll s.ignorant grant s.ledger =
        Allocation.pollLock { fut with charged := true } grant (s.waiting fut).ledger := by
      rw [h.ignorant, poll_ignorant]
      rfl
    by_cases hl : grant.lockFree = true
    · simp only [hpoll, Allocation.pollLock, if_pos hl]
      exact ⟨hw.finished { fut with charged := true } rfl rfl, trivial⟩
    · simp only [hpoll, Allocation.pollLock, if_neg hl]
      exact ⟨hw, trivial⟩

theorem Books.afterAllocation (grant : Grant) {next : AsyncServerFile → AsyncServerFile × AsyncReply}
    (hnext : ∀ t, Books start t → t.currentPosition = s.currentPosition → Books start (next t).1) :
    Books start (s.afterAllocation grant next).1 := by
  obtain ⟨hb, hp⟩ := h.pollAllocation grant
  unfold AsyncServerFile.afterAllocation
  split
  next t heq => rw [heq] at hb hp; exact hnext t hb hp
  next t err heq => rw [heq] at hb; exact hb
  next t heq => rw [heq] at hb; exact hb

theorem Books.grow {stop : ℕ} (hs : s.highestPosition < stop) (hr : stop ≤ maxOffset) :
    Books start { s with
      currentPosition := stop
      accumulatedBytes := s.accumulatedBytes + (stop - s.highestPosition : ℕ)
      highestPosition := stop } := by
  have hc := h.cached
  have ht := h.tree
  have hd := h.debit
  have hu := h.credit
  have hda := h.debit_all
  have hua := h.credit_all
  refine ⟨h.ignorant, ?_, ?_, h.idle, h.busy, ?_, ?_, ?_, ?_, hr, hr⟩
  · show s.ledger.cached.sum + (s.accumulatedBytes + _) + s.uncharged = stop + start
    omega
  all_goals
    simp only
    omega

theorem Books.advance {written : ℕ}
    (hr : s.currentPosition + written ≤ maxOffset) : Books start (s.advance written) := by
  have hwrap : wrapU64 (s.currentPosition + written) = s.currentPosition + written :=
    wrapU64_of_lt (by simp only [maxOffset] at hr; omega)
  have hadvanced : Books start (if s.highestPosition < s.currentPosition + written then
      { s with
        currentPosition := s.currentPosition + written
        accumulatedBytes := wrapI64 (s.accumulatedBytes +
          wrapI64 (s.currentPosition + written - s.highestPosition : ℕ))
        highestPosition := s.currentPosition + written }
      else { s with currentPosition := s.currentPosition + written }) := by
    split_ifs with hs
    · rw [(wrap_growth h.debit h.credit hs (by omega) (by omega)).mpr (Nat.add_sub_of_le hs.le).symm]
      exact h.grow hs hr
    · exact { h with position := hr }
  simp only [AsyncServerFile.advance, hwrap]
  split_ifs with hs ht ht
  · rw [if_pos hs] at hadvanced
    exact hadvanced.startAllocation
  · rw [if_pos hs] at hadvanced
    exact hadvanced
  · rw [if_neg hs] at hadvanced
    exact hadvanced.startAllocation
  · rw [if_neg hs] at hadvanced
    exact hadvanced

/-- **Step lemma.**  Every poll in range keeps the books. -/
theorem Books.step (op : AsyncOp) (hr : op.InRange s) : Books start (op.step s).1 := by
  have hflush : ∀ grant again file, Books start (s.pollFlush grant again file).1 := by
    intro grant again file
    refine h.afterAllocation grant fun t ht _ => ?_
    split_ifs
    · exact ht.startAllocation.afterAllocation again fun u hu _ => hu
    · exact ht
  cases op with
  | pollWrite grant file =>
    refine h.afterAllocation grant fun t ht hp => ?_
    rcases file with (_ | written) | _
    · exact ht
    · exact ht.advance (hp ▸ hr)
    · exact ht
  | pollFlush grant again file => exact hflush grant again file
  | pollShutdown grant again file => exact hflush grant again file
  | startSeek accepted =>
    simp only [AsyncOp.step, startSeek]
    split_ifs
    · exact h.startAllocation
    · exact h
  | pollComplete grant file =>
    refine h.afterAllocation grant fun t ht _ => ?_
    rcases file with (_ | newPos) | _
    · exact ht
    · exact { ht with position := hr }
    · exact ht
  | pollRead file => exact h

/-! ## The drop -/

/-- The task spawned by the drop of an ignorant handle charges the leftover to both. -/
theorem drop_sums (usage : Cached) :
    (s.drop usage).cached.sum =
        s.ledger.cached.sum + (s.accumulatedBytes + s.allocatingBytes) ∧
      (s.drop usage).tree.sum = s.ledger.tree.sum + (s.accumulatedBytes + s.allocatingBytes) := by
  have hd := h.debit_all
  have hu := h.credit_all
  have hh := h.highest
  have hleft : wrapI64 (s.accumulatedBytes + s.allocatingBytes) =
      s.accumulatedBytes + s.allocatingBytes := by
    simp only [maxOffset] at hd hh
    exact wrapI64_of_mem (by simp only [i64Min]; omega) (by simp only [i64Max]; omega)
  simp only [drop, hleft, h.ignorant, poll_ignorant]
  by_cases hne : s.accumulatedBytes + s.allocatingBytes = 0
  · simp [hne]
  · simp [hne, Allocation.pollLock]

end

/-- Where a handle starts from: over a file it truncates, or over the first `size` bytes of a file
somebody else opened. -/
inductive AsyncOpening
  | newChecked
  | newFile

def AsyncOpening.handle (size : ℕ) : AsyncOpening → AsyncServerFile
  | .newChecked => (AsyncServerFile.newChecked size).beIgnorant
  | .newFile => (AsyncServerFile.newFile size).beIgnorant

theorem books_wrap (acc : ℤ) (high : ℕ) (hl : -maxOffset ≤ acc) (hu : acc ≤ high)
    (hh : high ≤ maxOffset) : Books (acc - high) (wrap acc high).beIgnorant := by
  refine ⟨rfl, ?_, ?_, fun _ => rfl, (fun _ hs => nomatch hs), hl, hu, ?_, ?_, Nat.zero_le _, hh⟩
  · show 0 + acc + 0 = high + (acc - high)
    omega
  · show 0 + acc + 0 = high + (acc - high)
    omega
  · show -maxOffset ≤ acc + 0
    omega
  · show acc + 0 ≤ high
    omega

theorem AsyncOpening.books (opening : AsyncOpening) {size : ℕ} (hsize : size ≤ maxOffset) :
    Books ((opening.handle size).accumulatedBytes - (opening.handle size).highestPosition)
      (opening.handle size) := by
  cases opening with
  | newChecked =>
    have heq : newChecked.handle size = (wrap (-size) 0).beIgnorant := by
      simp only [handle, AsyncServerFile.newChecked, wrapI64_neg_natCast hsize]
    rw [heq]
    exact books_wrap (-size) 0 (by omega) (by omega) (Nat.zero_le _)
  | newFile => exact books_wrap 0 size (by omega) (by omega) hsize

end AsyncServerFile

open AsyncServerFile

section dropped

variable {size : ℕ} (opening : AsyncOpening) (ops : List AsyncOp) (usage : Cached)

theorem books_exec (hsize : size ≤ maxOffset)
    (hrange : Steps AsyncOp.step (fun _ s op => op.InRange s) (opening.handle size) ops) :
    Books ((opening.handle size).accumulatedBytes - (opening.handle size).highestPosition)
      (exec AsyncOp.step (opening.handle size) ops) :=
  inv_of_steps (I := fun _ s => Books _ s) (opening.books hsize) (fun _ _ op h hr => h.step op hr) hrange

/-- **At most once, unless dropped while waiting.**  For every opening over a file of any length,
every list of polls with every schedule of the lock, and the drop after it: the amount added to the
cached totals on behalf of the handle is the growth of its highest position plus its initial
accumulator exactly when no allocation whose first poll is done is in progress at the drop. -/
theorem dropped_cached_iff (hsize : size ≤ maxOffset)
    (hrange : Steps AsyncOp.step (fun _ s op => op.InRange s) (opening.handle size) ops) :
    ((exec AsyncOp.step (opening.handle size) ops).drop usage).cached.sum =
        ((exec AsyncOp.step (opening.handle size) ops).highestPosition -
          (opening.handle size).highestPosition) + (opening.handle size).accumulatedBytes ↔
      ¬ (exec AsyncOp.step (opening.handle size) ops).Charged := by
  have hb := books_exec opening ops hsize hrange
  generalize exec AsyncOp.step (opening.handle size) ops = s at hb ⊢
  rw [(drop_sums hb usage).1]
  have hc := hb.cached
  constructor
  · rintro heq ⟨fut, hf, hcharged⟩
    rw [show s.uncharged = 0 from if_pos ⟨fut, hf, hcharged⟩] at hc
    exact (hb.busy fut hf).2 (by omega)
  · intro hn
    rw [show s.uncharged = s.allocatingBytes from if_neg hn] at hc
    omega

/-- The tree is charged exactly, also when the drop interrupts an allocation: what the dropped
future did not do, the spawned task does. -/
theorem dropped_tree (hsize : size ≤ maxOffset)
    (hrange : Steps AsyncOp.step (fun _ s op => op.InRange s) (opening.handle size) ops) :
    ((exec AsyncOp.step (opening.handle size) ops).drop usage).tree.sum =
      ((exec AsyncOp.step (opening.handle size) ops).highestPosition -
        (opening.handle size).highestPosition) + (opening.handle size).accumulatedBytes := by
  have hb := books_exec opening ops hsize hrange
  have ht := hb.tree
  rw [(drop_sums hb usage).2]
  omega

end dropped

/-- The lock of the tree is free, on an unlimited filesystem that is still empty. -/
def freeLock : Grant := ⟨⟨0, 0, 0, 0⟩, true⟩

/-- Somebody else holds the lock of the tree. -/
def heldLock : Grant := ⟨⟨0, 0, 0, 0⟩, false⟩

theorem dropped_cached_iff_flushed :
    ((exec AsyncOp.step (AsyncOpening.newFile.handle 0)
      [.pollWrite freeLock (.ready (some 5)), .pollFlush freeLock freeLock (.ready (some 0))]).drop
        freeLock.usage).cached.sum = 5 := by
  refine ((dropped_cached_iff .newFile _ freeLock.usage (by decide) ?_).mpr (by decide)).trans (by decide)
  show Steps _ _ _ (([] ++ [_]) ++ [_])
  rw [steps_concat, steps_concat]
  exact ⟨⟨steps_nil, show 0 + 5 ≤ maxOffset by decide⟩, trivial⟩

theorem dropped_tree_waiting : ((exec AsyncOp.step (AsyncOpening.newFile.handle 0)
      [.pollWrite heldLock (.ready (some 5)), .pollFlush heldLock heldLock (.ready (some 0))]).drop
      heldLock.usage).tree.sum = 5 := by
  refine (dropped_tree .newFile _ heldLock.usage (by decide) ?_).trans (by decide)
  show Steps _ _ _ (([] ++ [_]) ++ [_])
  rw [steps_concat, steps_concat]
  exact ⟨⟨steps_nil, show 0 + 5 ≤ maxOffset by decide⟩, trivial⟩

/-- Five bytes are written and flushed, and the flush waits for the lock with the cached totals
already charged.  Dropping the handle here charges the five bytes a second time. -/
theorem dropped_while_waiting :
    let s := exec AsyncOp.step (AsyncOpening.newFile.handle 0)
      [.pollWrite heldLock (.ready (some 5)), .pollFlush heldLock heldLock (.ready (some 0))]
    s.highestPosition = 5 ∧ s.drop heldLock.usage = ⟨[5, 5], [5]⟩ ∧
      (s.drop heldLock.usage).cached.sum ≠ (s.highestPosition - 0) + 0 := by
  decide

end Wings.Filesystem
