import Wings.Filesystem.Atomics
import Wings.Lib.OpenFile
import Wings.Lib.Run

/-!
# Wings.Filesystem.ServerFile — a file handle that charges what it writes

`server/filesystem/file.rs`, `ServerFile`.  The handle keeps a position of its own, the highest
position it has seen and a signed accumulator.  What is written past the highest position is
accumulated and passed on to `allocate_in_path_iterator` in steps of 1 MiB, on `flush`, on `seek`
and on drop; a truncating open starts with a debit for the old contents.

* **`charged_iff_lands`**
-/

namespace Wings.Filesystem

open Lib Option OpenFile

/-! ## The handle -/

def allocationThreshold : ℤ := 1024 * 1024

inductive IoError
  /-- `StorageFull`, "Failed to allocate space". -/
  | storageFull
  /-- Whatever the operating system reported. -/
  | os
  deriving DecidableEq, Repr

/-- `ServerFile`.  `allocations` is the log of accepted `allocate_in_path_iterator` calls, all of
them for the parent directory. -/
structure ServerFile where
  file : OpenFile
  ignorant : Bool
  accumulatedBytes : ℤ
  currentPosition : ℕ
  highestPosition : ℕ
  allocations : List ℤ

namespace ServerFile

def wrap (file : OpenFile) (accumulatedBytes : ℤ) (highestPosition : ℕ) : ServerFile where
  file := file
  ignorant := false
  accumulatedBytes := accumulatedBytes
  currentPosition := 0
  highestPosition := highestPosition
  allocations := []

/-- `open_and_check` of a regular file that passes the check: the open file, truncated only when
asked, and its size before. -/
def openAndCheck (content : Content) (options : OpenOptions) (truncate : Bool) : OpenFile × ℕ :=
  let file := options.openFile content
  let previousSize := file.length
  (if truncate ∧ 0 < previousSize then file.clear else file, previousSize)

def openChecked (content : Content) (options : OpenOptions) (truncate : Bool) : ServerFile :=
  let (file, previousSize) := openAndCheck content options truncate
  if truncate then
    wrap file (wrapI64 (-wrapI64 previousSize)) 0
  else
    wrap file 0 previousSize

/-- `ServerFile::new_checked`, through `open_destination`: write only, truncating. -/
def newChecked (content : Content) : ServerFile :=
  let (file, previousSize) := openAndCheck content ⟨false, true, false⟩ true
  wrap file (wrapI64 (-wrapI64 previousSize)) 0

def beIgnorant (s : ServerFile) : ServerFile := { s with ignorant := true }

/-- `ServerFile::allocate_accumulated` while the cached totals are `usage`; `none` is
`StorageFull`, which changes nothing. -/
def allocateAccumulated (s : ServerFile) (usage : Cached) : Option ServerFile :=
  if s.accumulatedBytes ≠ 0 then
    (tryUpdateAtomics usage (.ofI64 s.accumulatedBytes) s.ignorant).map fun _ =>
      { s with accumulatedBytes := 0, allocations := s.allocations ++ [s.accumulatedBytes] }
  else some s

/-- The end of `write` and `write_at`: allocate once the threshold is reached. -/
def allocateAtThreshold (s : ServerFile) (usage : Cached) : Option ServerFile :=
  if allocationThreshold ≤ s.accumulatedBytes then s.allocateAccumulated usage else some s

/-- The bookkeeping of `write` after `written` bytes. -/
def advance (s : ServerFile) (file : OpenFile) (written : ℕ) : ServerFile :=
  let position := wrapU64 (s.currentPosition + written)
  if s.highestPosition < position then
    { s with
      file := file
      currentPosition := position
      accumulatedBytes :=
        wrapI64 (s.accumulatedBytes + wrapI64 (position - s.highestPosition : ℕ))
      highestPosition := position }
  else
    { s with file := file, currentPosition := position }

/-- The bookkeeping of `write_at` after `written` bytes at `pos`. -/
def advanceAt (s : ServerFile) (file : OpenFile) (pos written : ℕ) : ServerFile :=
  let stop := clampU64 (pos + written)
  if s.highestPosition < stop then
    { s with
      file := file
      accumulatedBytes :=
        saturatingAdd s.accumulatedBytes (min i64Max (stop - s.highestPosition : ℕ))
      highestPosition := stop }
  else
    { s with file := file }

/-- `Drop`: the deltas passed to `allocate_in_path_iterator` over the life of the handle. -/
def drop (s : ServerFile) : List ℤ :=
  if s.accumulatedBytes ≠ 0 then s.allocations ++ [s.accumulatedBytes] else s.allocations

/-- The sum of those deltas. -/
def charged (s : ServerFile) : ℤ := s.drop.sum

end ServerFile

/-! ## The calls -/

/-- What the rest of the system contributes to a call: the cached totals it finds, and how many
bytes the operating system accepts, `none` when it fails. -/
structure Env where
  usage : Cached
  accept : Option ℕ

inductive Op
  | read (room : ℕ) (env : Env)
  | write (buf : List UInt8) (env : Env)
  | writeAt (pos : ℕ) (buf : List UInt8) (env : Env)
  | seek (pos : SeekFrom) (env : Env)
  | flush (env : Env)

inductive Reply
  | bytes (bytes : List UInt8)
  | count (written : ℕ)
  | position (pos : ℕ)
  | done

namespace ServerFile

def read (s : ServerFile) (room : ℕ) (env : Env) : ServerFile × Except IoError Reply :=
  match env.accept.bind (s.file.read room) with
  | none => (s, .error .os)
  | some (file, bytes) => ({ s with file := file }, .ok (.bytes bytes))

def write (s : ServerFile) (buf : List UInt8) (env : Env) : ServerFile × Except IoError Reply :=
  match env.accept.bind (s.file.write buf) with
  | none => (s, .error .os)
  | some (file, written) =>
    let s := s.advance file written
    match s.allocateAtThreshold env.usage with
    | none => (s, .error .storageFull)
    | some s => (s, .ok (.count written))

def writeAt (s : ServerFile) (pos : ℕ) (buf : List UInt8) (env : Env) : ServerFile × Except IoError Reply :=
  match env.accept.bind (s.file.writeAt pos buf) with
  | none => (s, .error .os)
  | some (file, written) =>
    let s := s.advanceAt file pos written
    match s.allocateAtThreshold env.usage with
    | none => (s, .error .storageFull)
    | some s => (s, .ok (.count written))

def seek (s : ServerFile) (pos : SeekFrom) (env : Env) : ServerFile × Except IoError Reply :=
  match s.allocateAccumulated env.usage with
  | none => (s, .error .storageFull)
  | some s =>
    match env.accept.bind fun _ => s.file.seek pos with
    | none => (s, .error .os)
    | some (file, newPos) =>
      ({ s with file := file, currentPosition := newPos }, .ok (.position newPos))

def flush (s : ServerFile) (env : Env) : ServerFile × Except IoError Reply :=
  match s.allocateAccumulated env.usage with
  | none => (s, .error .storageFull)
  | some s => if env.accept.isSome then (s, .ok .done) else (s, .error .os)

end ServerFile

def Op.step (s : ServerFile) : Op → ServerFile × Except IoError Reply
  | .read room env => s.read room env
  | .write buf env => s.write buf env
  | .writeAt pos buf env => s.writeAt pos buf env
  | .seek pos env => s.seek pos env
  | .flush env => s.flush env

/-! ## Growth in machine arithmetic -/

section growth

variable {acc : ℤ} {high stop m : ℕ}

/-- The wrapping accumulation of `write` adds `m` exactly when the handle's end is `m` bytes past
the highest position: the two could only differ by a multiple of `2 ^ 64`. -/
theorem wrap_growth (hl : -maxOffset ≤ acc) (hu : acc ≤ high) (hs : high < stop)
    (hs' : stop ≤ maxOffset + maxTransfer) (hm : high + m ≤ maxOffset) :
    wrapI64 (acc + wrapI64 (stop - high : ℕ)) = acc + m ↔ stop = high + m := by
  simp only [maxOffset, maxTransfer] at hl hs' hm
  constructor
  · obtain ⟨k, hk⟩ := exists_wrapI64_eq (stop - high : ℕ)
    obtain ⟨k', hk'⟩ := exists_wrapI64_eq (acc + wrapI64 (stop - high : ℕ))
    omega
  · intro h
    have hstop : stop - high = m := by omega
    rw [hstop, wrapI64_of_mem (x := m) (by simp only [i64Min]; omega) (by simp only [i64Max]; omega)]
    exact wrapI64_of_mem (by simp only [i64Min]; omega) (by simp only [i64Max]; omega)

/-- The saturating accumulation of `write_at` likewise; where it does saturate, the growth is far
beyond what one call transfers. -/
theorem saturating_growth (hl : -maxOffset ≤ acc) (hu : acc ≤ high) (ht : acc < allocationThreshold)
    (hs : high < stop) (hm : high + m ≤ maxOffset) (hm' : stop ≤ maxOffset ∨ m ≤ maxTransfer) :
    saturatingAdd acc (min i64Max (stop - high : ℕ)) = acc + m ↔ stop = high + m := by
  simp only [maxOffset, maxTransfer, allocationThreshold] at hl hm ht hm'
  simp only [saturatingAdd, clampI64, i64Min, i64Max]
  omega

end growth

/-! ## What a call does to the accounting -/

/-- A write of `n` bytes that the handle believes to start at `claimed`, and that is aimed at
`offset`, lands: it starts where the handle believes, or it stays inside the file either way.  An
empty write lands when the handle does not believe to be behind the end. -/
def Lands (f : OpenFile) (claimed offset n : ℕ) : Prop :=
  if n = 0 then claimed ≤ f.length
  else claimed = f.landing offset ∨ claimed + n ≤ f.length ∧ f.landing offset + n ≤ f.length

/-- The step condition: every write lands.  `write` is believed to start at the handle's position
and is aimed at the cursor of the file; `write_at` names its offset. -/
def Op.Lands (s : ServerFile) : Op → Prop
  | .write buf env => ∀ file n, env.accept.bind (s.file.write buf) = some (file, n) →
      Filesystem.Lands s.file s.currentPosition s.file.cursor n
  | .writeAt pos buf env => ∀ file n, env.accept.bind (s.file.writeAt pos buf) = some (file, n) →
      Filesystem.Lands s.file pos pos n
  | _ => True

/-- A write lands exactly when the file ends where the handle believes it to end. -/
theorem lands_iff {f : OpenFile} {claimed offset n : ℕ} :
    max f.length (claimed + n) = f.lengthAfter offset n ↔ Lands f claimed offset n := by
  unfold Lands lengthAfter
  by_cases hn : n = 0
  · rw [if_pos hn, if_pos hn]
    omega
  · rw [if_neg hn, if_neg hn]
    omega

namespace ServerFile

variable {s t : ServerFile} {initial : ℕ} {file : OpenFile} (content : Content)

theorem charged_eq (s : ServerFile) : s.charged = s.allocations.sum + s.accumulatedBytes := by
  unfold charged drop
  split_ifs with h
  · simp
  · simp [not_not.mp h]

/-- The state of a handle whose accounting is exact: it has seen the end of the file, it has charged
the growth, and the accumulator is in the range between two allocations. -/
structure Exact (initial : ℕ) (s : ServerFile) : Prop where
  ignorant : s.ignorant = true
  highest : s.highestPosition = s.file.length
  charged : s.charged = s.file.length - initial
  below : s.accumulatedBytes < allocationThreshold
  debit : -(maxOffset : ℤ) ≤ s.accumulatedBytes
  credit : s.accumulatedBytes ≤ s.highestPosition
  position : s.currentPosition ≤ maxOffset

/-- `t` is `s` with the accumulator possibly passed on. -/
structure Settles (s t : ServerFile) : Prop where
  file_eq : t.file = s.file
  ignorant : t.ignorant = s.ignorant
  position : t.currentPosition = s.currentPosition
  highest : t.highestPosition = s.highestPosition
  charged : t.charged = s.charged
  accumulated : t.accumulatedBytes = s.accumulatedBytes ∨ t.accumulatedBytes = 0

theorem Settles.refl (s : ServerFile) : Settles s s := ⟨rfl, rfl, rfl, rfl, rfl, .inl rfl⟩

theorem allocateAccumulated_spec (hi : s.ignorant = true) (usage : Cached) :
    ∃ t, s.allocateAccumulated usage = some t ∧ Settles s t ∧ t.accumulatedBytes = 0 := by
  unfold allocateAccumulated
  split_ifs with h
  · rw [hi]
    obtain ⟨c, hc⟩ := isSome_iff_exists.mp (tryUpdateAtomics_ignorant usage (.ofI64 s.accumulatedBytes))
    rw [hc]
    refine ⟨_, rfl, ⟨rfl, hi.symm, rfl, rfl, ?_, .inr rfl⟩, rfl⟩
    rw [charged_eq, charged_eq]
    simp
  · exact ⟨s, rfl, Settles.refl s, not_not.mp h⟩

theorem allocateAtThreshold_spec (hi : s.ignorant = true) (usage : Cached) :
    ∃ t, s.allocateAtThreshold usage = some t ∧ Settles s t ∧ t.accumulatedBytes < allocationThreshold := by
  unfold allocateAtThreshold
  split_ifs with h
  · obtain ⟨t, ht, hs, h0⟩ := allocateAccumulated_spec hi usage
    exact ⟨t, ht, hs, by rw [h0]; decide⟩
  · exact ⟨s, rfl, Settles.refl s, not_le.mp h⟩

theorem Exact.of_settles (h : Exact initial s) (hs : Settles s t) : Exact initial t where
  ignorant := hs.ignorant.trans h.ignorant
  highest := by rw [hs.highest, hs.file_eq, h.highest]
  charged := by rw [hs.charged, hs.file_eq, h.charged]
  below := by
    rcases hs.accumulated with ha | ha
    · rw [ha]; exact h.below
    · rw [ha]; decide
  debit := by
    have := h.debit
    rcases hs.accumulated with ha | ha <;> omega
  credit := by
    have := h.credit
    have := hs.highest
    rcases hs.accumulated with ha | ha <;> omega
  position := by rw [hs.position]; exact h.position

/-- `t` is `s` after a write to `file` that the handle believes to end at `stop`. -/
structure Bumps (s : ServerFile) (file : OpenFile) (stop : ℕ) (t : ServerFile) : Prop where
  file_eq : t.file = file
  ignorant : t.ignorant = s.ignorant
  highest : t.highestPosition = max s.highestPosition stop
  allocations : t.allocations = s.allocations
  inside : stop ≤ s.highestPosition → t.accumulatedBytes = s.accumulatedBytes
  beyond : s.highestPosition < stop →
    (t.accumulatedBytes = s.accumulatedBytes + (file.length - s.file.length : ℕ) ↔ stop = file.length)

section

variable (h : Exact initial s)
include h

theorem advance_bumps {n : ℕ} (hn : n ≤ maxTransfer) (hlen : s.file.length ≤ file.length) :
    Bumps s file (s.currentPosition + n) (s.advance file n) := by
  have hp := h.position
  have hfile := file.length_le_maxOffset
  have hhigh := h.highest
  have hwrap : wrapU64 (s.currentPosition + n) = s.currentPosition + n :=
    wrapU64_of_lt (by simp only [maxOffset, maxTransfer] at hp hn; omega)
  simp only [advance, hwrap]
  split_ifs with hs
  · refine ⟨rfl, rfl, (max_eq_right hs.le).symm, rfl, fun hle => absurd hs (by omega), fun _ => ?_⟩
    rw [wrap_growth h.debit h.credit hs (by omega) (by omega)]
    omega
  · exact ⟨rfl, rfl, (max_eq_left (not_lt.mp hs)).symm, rfl, fun _ => rfl, fun hlt => absurd hlt hs⟩

theorem advanceAt_bumps {pos n : ℕ} (hpos : pos ≤ maxOffset) (hn : n ≤ maxTransfer)
    (hlen : s.file.length ≤ file.length) (hgrow : pos + n ≤ maxOffset ∨ file.length - s.file.length ≤ maxTransfer) :
    Bumps s file (pos + n) (s.advanceAt file pos n) := by
  have hfile := file.length_le_maxOffset
  have hhigh := h.highest
  have hclamp : clampU64 (pos + n) = pos + n :=
    clampU64_of_le (by simp only [maxOffset, maxTransfer, u64Max] at hpos hn ⊢; omega)
  simp only [advanceAt, hclamp]
  split_ifs with hs
  · refine ⟨rfl, rfl, (max_eq_right hs.le).symm, rfl, fun hle => absurd hs (by omega), fun _ => ?_⟩
    rw [saturating_growth h.debit h.credit h.below hs (by omega) hgrow]
    omega
  · exact ⟨rfl, rfl, (max_eq_left (not_lt.mp hs)).symm, rfl, fun _ => rfl, fun hlt => absurd hlt hs⟩

variable (hlen : s.file.length ≤ file.length)
include hlen

/-- After a write the charges are exact exactly when the file ends where the handle believes. -/
theorem Bumps.charged_iff {stop : ℕ} (b : Bumps s file stop t) :
    t.charged = file.length - initial ↔ max s.file.length stop = file.length := by
  have hc := h.charged
  have hh := h.highest
  rw [charged_eq] at hc
  rw [charged_eq, b.allocations]
  by_cases hs : s.highestPosition < stop
  · have hb := b.beyond hs
    omega
  · have hi := b.inside (not_lt.mp hs)
    omega

/-- A write whose charges are exact leaves an exact handle, once the threshold was looked at. -/
theorem Bumps.exact {stop : ℕ} {u : ServerFile} (b : Bumps s file stop t)
    (hstop : max s.file.length stop = file.length) (hpos : t.currentPosition ≤ maxOffset) (hu : Settles t u)
    (hbelow : u.accumulatedBytes < allocationThreshold) : Exact initial u := by
  have hd := h.debit
  have hc := h.credit
  have hh := h.highest
  have hhigh : t.highestPosition = file.length := by rw [b.highest, hh, hstop]
  have hacc : t.accumulatedBytes = s.accumulatedBytes + (file.length - s.file.length : ℕ) := by
    by_cases hs : s.highestPosition < stop
    · exact (b.beyond hs).mpr (by omega)
    · have := b.inside (not_lt.mp hs)
      omega
  refine ⟨?_, ?_, ?_, hbelow, ?_, ?_, ?_⟩
  · rw [hu.ignorant, b.ignorant, h.ignorant]
  · rw [hu.highest, hu.file_eq, b.file_eq, hhigh]
  · rw [hu.charged, hu.file_eq, b.file_eq]
    exact (b.charged_iff h hlen).mpr hstop
  · rcases hu.accumulated with ha | ha <;> omega
  · have := hu.highest
    rcases hu.accumulated with ha | ha <;> omega
  · rw [hu.position]; exact hpos

end

/-- What a call does from an exact state: its charges are exact exactly when it lands, and then it
leaves an exact state. -/
def KeepsExact (initial : ℕ) (t : ServerFile) (lands : Prop) : Prop :=
  (t.charged = t.file.length - initial ↔ lands) ∧ (lands → Exact initial t)

theorem Exact.keeps {lands : Prop} (h : Exact initial t) (hl : lands) : KeepsExact initial t lands :=
  ⟨⟨fun _ => hl, fun _ => h.charged⟩, fun _ => h⟩

variable {claimed offset n : ℕ}

theorem le_maxOffset_of_lands {f g : OpenFile} (hg : g.length = f.lengthAfter offset n) (h : Lands f claimed offset n) :
    claimed + n ≤ maxOffset := by
  have hstop := lands_iff.mpr h
  have hle := g.length_le_maxOffset
  omega

/-- The part that `write` and `write_at` share: for the handle the write ends `n` bytes behind
`claimed`, and the threshold is looked at last. -/
theorem Bumps.keeps {u : ServerFile} {lands : Prop}
    (b : Bumps s file (claimed + n) t) (h : Exact initial s) (hfile : file.length = s.file.lengthAfter offset n)
    (hpos : claimed + n ≤ maxOffset → t.currentPosition ≤ maxOffset) (hu : Settles t u)
    (hbelow : u.accumulatedBytes < allocationThreshold)
    (hlands : lands ↔ Lands s.file claimed offset n) : KeepsExact initial u lands := by
  have hiff : max s.file.length (claimed + n) = file.length ↔ lands := by
    rw [hfile, lands_iff, hlands]
  have hlen : s.file.length ≤ file.length := hfile ▸ le_lengthAfter s.file offset n
  refine ⟨?_, fun hl => ?_⟩
  · rw [hu.charged, hu.file_eq, b.file_eq, b.charged_iff h hlen, hiff]
  · have hp := hpos (le_maxOffset_of_lands hfile (hlands.mp hl))
    exact b.exact h hlen (hiff.mpr hl) hp hu hbelow

theorem advance_position_le (s : ServerFile) (file : OpenFile) (n : ℕ) :
    (s.advance file n).currentPosition ≤ s.currentPosition + n := by
  have hmod : wrapU64 (s.currentPosition + n) ≤ s.currentPosition + n := Nat.mod_le _ _
  simp only [advance]
  split_ifs <;> exact hmod

section

variable (h : Exact initial s)
include h

theorem write_keeps (buf : List UInt8) (env : Env) :
    KeepsExact initial (s.write buf env).1 ((Op.write buf env).Lands s) := by
  unfold write
  cases hw : env.accept.bind (s.file.write buf) with
  | none => exact h.keeps fun file n hs => by simp [hw] at hs
  | some r =>
    obtain ⟨file, n⟩ := r
    obtain ⟨accept, -, hfile⟩ := bind_eq_some_iff.mp hw
    obtain ⟨hn, hlen⟩ := write_spec hfile
    have hgrown : s.file.length ≤ file.length := hlen ▸ le_lengthAfter _ _ _
    have hb := advance_bumps h hn hgrown
    obtain ⟨u, hu, hsettles, hbelow⟩ :=
      allocateAtThreshold_spec (hb.ignorant.trans h.ignorant) env.usage
    simp only [hu]
    refine hb.keeps h hlen (fun hp => (advance_position_le s file n).trans hp) hsettles hbelow ?_
    simp [Op.Lands, hw]

theorem writeAt_keeps (pos : ℕ) (buf : List UInt8) (env : Env) :
    KeepsExact initial (s.writeAt pos buf env).1 ((Op.writeAt pos buf env).Lands s) := by
  unfold writeAt
  cases hw : env.accept.bind (s.file.writeAt pos buf) with
  | none => exact h.keeps fun file n hs => by simp [hw] at hs
  | some r =>
    obtain ⟨file, n⟩ := r
    obtain ⟨accept, -, hfile⟩ := bind_eq_some_iff.mp hw
    obtain ⟨hn, hpos, hlen⟩ := writeAt_spec hfile
    -- an appended write cannot grow the file by more than it transfers, and any other write
    -- starts at `pos` and so ends inside the range of offsets
    have hgrow : pos + n ≤ maxOffset ∨ file.length - s.file.length ≤ maxTransfer := by
      have hle := file.length_le_maxOffset
      rw [lengthAfter, landing] at hlen
      split_ifs at hlen <;> omega
    have hgrown : s.file.length ≤ file.length := hlen ▸ le_lengthAfter _ _ _
    have hb := advanceAt_bumps h hpos hn hgrown hgrow
    obtain ⟨u, hu, hsettles, hbelow⟩ :=
      allocateAtThreshold_spec (hb.ignorant.trans h.ignorant) env.usage
    simp only [hu]
    refine hb.keeps h hlen (fun _ => ?_) hsettles hbelow ?_
    · simp only [advanceAt]
      split_ifs <;> exact h.position
    · simp [Op.Lands, hw]

theorem read_keeps (room : ℕ) (env : Env) : KeepsExact initial (s.read room env).1 True := by
  unfold read
  cases hr : env.accept.bind (s.file.read room) with
  | none => exact h.keeps trivial
  | some r =>
    obtain ⟨accept, -, hfile⟩ := bind_eq_some_iff.mp hr
    have hlen := read_length hfile
    refine Exact.keeps { h with highest := ?_, charged := ?_ } trivial
    · exact h.highest.trans hlen.symm
    · rw [hlen]; exact h.charged

theorem seek_keeps (pos : SeekFrom) (env : Env) :
    KeepsExact initial (s.seek pos env).1 True := by
  obtain ⟨t, ht, hsettles, -⟩ := allocateAccumulated_spec h.ignorant env.usage
  have h' := h.of_settles hsettles
  simp only [seek, ht]
  cases hr : env.accept.bind fun _ => t.file.seek pos with
  | none => exact h'.keeps trivial
  | some r =>
    obtain ⟨accept, -, hfile⟩ := bind_eq_some_iff.mp hr
    obtain ⟨hlen, -, hp⟩ := seek_spec hfile
    refine Exact.keeps { h' with highest := ?_, charged := ?_, position := hp } trivial
    · exact h'.highest.trans hlen.symm
    · rw [hlen]; exact h'.charged

theorem flush_keeps (env : Env) : KeepsExact initial (s.flush env).1 True := by
  obtain ⟨t, ht, hsettles, -⟩ := allocateAccumulated_spec h.ignorant env.usage
  simp only [flush, ht]
  split_ifs <;> exact (h.of_settles hsettles).keeps trivial

/-- **Step lemma.** -/
theorem step_keeps (op : Op) : KeepsExact initial (op.step s).1 (op.Lands s) := by
  cases op with
  | read room env => exact read_keeps h room env
  | write buf env => exact write_keeps h buf env
  | writeAt pos buf env => exact writeAt_keeps h pos buf env
  | seek pos env => exact seek_keeps h pos env
  | flush env => exact flush_keeps h env

end

/-! ## Runs -/

/-- The two ways to open a handle that the accounting is about. -/
inductive Opening
  | newChecked
  | openChecked (options : OpenOptions)

/-- The ignorant handle on a file that holds `content`. -/
def Opening.handle (content : Content) : Opening → ServerFile
  | .newChecked => (ServerFile.newChecked content).beIgnorant
  | .openChecked options => (ServerFile.openChecked content options false).beIgnorant

theorem exact_newChecked : Exact content.1.length (newChecked content).beIgnorant := by
  have hlen : (newChecked content).beIgnorant.file.length = 0 := by
    simp only [newChecked, openAndCheck, beIgnorant, wrap]
    split_ifs with h
    · rfl
    · simpa using h
  have hacc : (newChecked content).beIgnorant.accumulatedBytes = -content.1.length := by
    simp only [newChecked, openAndCheck, beIgnorant, wrap, length_openFile]
    exact wrapI64_neg_natCast content.2
  refine ⟨rfl, hlen.symm, ?_, ?_, ?_, ?_, Nat.zero_le _⟩
  · rw [charged_eq, hlen, hacc]
    show ([]).sum + _ = _
    simp
  · simp only [allocationThreshold]
    omega
  · omega
  · omega

theorem exact_openChecked (options : OpenOptions) :
    Exact content.1.length (openChecked content options false).beIgnorant := by
  refine ⟨rfl, rfl, ?_, ?_, ?_, Int.natCast_nonneg _, Nat.zero_le _⟩
  · show (0 : ℤ) = content.1.length - content.1.length
    omega
  · show 0 < allocationThreshold
    decide
  · show -(maxOffset : ℤ) ≤ 0
    omega

theorem Opening.exact_handle (opening : Opening) : Exact content.1.length (opening.handle content) := by
  cases opening with
  | newChecked => exact exact_newChecked content
  | openChecked options => exact exact_openChecked content options

end ServerFile

open ServerFile

/-- **A handle charges what it changes, as long as its writes land.**  For every content, every
opening and every list of calls, with whatever short writes and failures the system answers: in
every prefix of the run the deltas passed on by the time of a drop add up to the growth of the file
exactly when every write of the run lands. -/
theorem charged_iff_lands (content : Content) (opening : Opening) (ops : List Op) :
    (∀ pre, pre <+: ops → (exec Op.step (opening.handle content) pre).charged =
        (exec Op.step (opening.handle content) pre).file.length - content.1.length) ↔
      Steps Op.step (fun _ s op => op.Lands s) (opening.handle content) ops := by
  have h0 := opening.exact_handle content
  refine forall_prefix_iff_steps (I := fun _ s => charged s = s.file.length - content.1.length) h0.charged ?_ ops
  intro as a hsteps _
  have hexact : Exact content.1.length (exec Op.step (opening.handle content) as) :=
    inv_of_steps (I := fun _ s => Exact content.1.length s) h0 (fun _ _ op h hl => (step_keeps h op).2 hl) hsteps
  rw [exec_concat]
  exact (step_keeps hexact a).1

/-- A handle opened for reading and writing on a file of two bytes: it reads both and writes a
third.  Every call succeeds, the file grows by one byte, and nothing is charged: `read` moved the
cursor of the file but not the position of the handle. -/
theorem read_then_write_uncharged :
    let env : Env := ⟨⟨0, 0, 0, 0⟩, some 2⟩
    let handle := (Opening.openChecked ⟨true, true, false⟩).handle ⟨[1, 2], by decide⟩
    let ops := [.read 2 env, .write [3] env]
    (trace Op.step handle ops).map Prod.snd = [.ok (.bytes [1, 2]), .ok (.count 1)] ∧
      (exec Op.step handle ops).file.content = [1, 2, 3] ∧
      (exec Op.step handle ops).drop = [] ∧
      (exec Op.step handle ops).charged ≠ (exec Op.step handle ops).file.length - 2 := by
  refine ⟨rfl, rfl, rfl, by decide⟩

end Wings.Filesystem
