import Wings.Lib.MachineInt
import Wings.Path

/-!
# Wings.Archive.MultiReader — many cursors on one file

`archive/multi_reader.rs`.  A read is served from a window of the file that is filled where the read begins; a
large read goes past the window, and a seek leaves it as it is.

* `MultiReader`, with `fillWindow`, `read`, `seek`, `clone`; a slice that is out of range is `none`.
* **`reads_exact`**
-/

namespace Wings.Archive

open Lib List Option

def readaheadSequential : ℕ := 256 * 1024

def readaheadRandom : ℕ := 16 * 1024

/-- `read_at`, which may return less than there is, but not nothing. -/
def readAt (source : List Byte) (short position length : ℕ) : List Byte :=
  ((source.drop position).take length).take (short + 1)

def getSlice (data : List Byte) (start stop : ℕ) : Option (List Byte) :=
  if start ≤ stop ∧ stop ≤ data.length then some ((data.take stop).drop start) else none

structure MultiReader where
  fileSize : ℕ
  offset : ℕ
  window : List Byte
  windowStart : ℕ
  windowLen : ℕ

inductive SeekFrom
  | start (offset : ℕ)
  | fromEnd (offset : ℤ)
  | current (offset : ℤ)

namespace MultiReader

def withSize (fileSize : ℕ) : MultiReader := ⟨fileSize, 0, List.replicate readaheadSequential 0, 0, 0⟩

def windowEnd (r : MultiReader) : ℕ := r.windowStart + r.windowLen

variable (source : List Byte)

def fillWindow (r : MultiReader) (short : ℕ) : Option MultiReader :=
  let size := if r.offset = r.windowEnd then readaheadSequential else readaheadRandom
  (getSlice r.window 0 size).map fun slice =>
    let filled := readAt source short r.offset slice.length
    { r with
      window := filled ++ r.window.drop filled.length
      windowStart := r.offset
      windowLen := filled.length }

/-- The end of `read`: the window has the position. -/
def copyOut (r : MultiReader) (length : ℕ) : Option (MultiReader × List Byte) :=
  (getSlice r.window (r.offset - r.windowStart) r.windowLen).bind fun available =>
    let count := min available.length length
    (getSlice available 0 count).map fun bytes => ({ r with offset := r.offset + count }, bytes)

def read (r : MultiReader) (short length : ℕ) : Option (MultiReader × List Byte) :=
  if readaheadSequential ≤ length then
    let bytes := readAt source short r.offset length
    some ({ r with offset := r.offset + bytes.length }, bytes)
  else if r.offset < r.windowStart ∨ r.windowEnd ≤ r.offset then
    (r.fillWindow source short).bind fun r => if r.windowLen = 0 then some (r, []) else r.copyOut length
  else r.copyOut length

/-- A position and a distance from it; `saturating_abs` has no value for the smallest distance but one. -/
def moved (position : ℕ) (offset : ℤ) : ℕ :=
  if 0 ≤ offset then min (position + offset.toNat) u64Max else position - min offset.natAbs i64Max.toNat

def seek (r : MultiReader) : SeekFrom → MultiReader
  | .start offset => { r with offset }
  | .fromEnd offset => { r with offset := moved r.fileSize offset }
  | .current offset => { r with offset := moved r.offset offset }

def clone (r : MultiReader) : MultiReader := { withSize r.fileSize with offset := r.offset }

end MultiReader

inductive Action
  | read (reader short length : ℕ)
  | seek (reader : ℕ) (position : SeekFrom)
  | clone (reader : ℕ)

def step (source : List Byte) (readers : List MultiReader) : Action → Option (List MultiReader × List Byte)
  | .read i short length => readers[i]?.bind fun r =>
    (r.read source short length).map fun (r, bytes) => (readers.set i r, bytes)
  | .seek i position => readers[i]?.map fun r => (readers.set i (r.seek position), [])
  | .clone i => readers[i]?.map fun r => (readers ++ [r.clone], [])

/-- Calls of readers one after the other, with what each of them returned. -/
def run (source : List Byte) : List MultiReader → List Action → Option (List MultiReader × List (List Byte))
  | readers, [] => some (readers, [])
  | readers, a :: calls => (step source readers a).bind fun (readers, bytes) =>
    (run source readers calls).map fun (readers, outputs) => (readers, bytes :: outputs)

/-- The calls name one of the readers there are then, `n` at first, and seek to a `u64`. -/
def Valid : ℕ → List Action → Prop
  | _, [] => True
  | n, .read i _ _ :: calls => i < n ∧ Valid n calls
  | n, .seek i (.start offset) :: calls => i < n ∧ offset ≤ u64Max ∧ Valid n calls
  | n, .seek i _ :: calls => i < n ∧ Valid n calls
  | n, .clone i :: calls => i < n ∧ Valid (n + 1) calls

/-- The position that lies `offset` behind another, kept between 0 and the largest `u64`.  The smallest `i64`
counts as the one above it, its absolute value being no `i64`. -/
def shifted (position : ℕ) (offset : ℤ) : ℕ := (min (position + max offset (-i64Max)) u64Max).toNat

/-- Where a seek puts a reader of a file of `size` bytes. -/
def SeekFrom.target (size position : ℕ) : SeekFrom → ℕ
  | .start offset => offset
  | .fromEnd offset => shifted size offset
  | .current offset => shifted position offset

/-- **What readers are for**, each of them a position in the file and nothing else: a read returns bytes of the
file from that position on and goes past them, a seek goes where it says, and a clone starts where its original
is. -/
inductive Cursors.Step (source : List Byte) (cursors : List ℕ) : Action → List ℕ → List Byte → Prop
  | read {i position short length : ℕ} {bytes : List Byte} (hi : cursors[i]? = some position)
    (hcontent : bytes <+: source.drop position) (hle : bytes.length ≤ length)
    (hnil : bytes = [] → length = 0 ∨ source.length ≤ position) :
    Step source cursors (.read i short length) (cursors.set i (position + bytes.length)) bytes
  | seek {i position : ℕ} (hi : cursors[i]? = some position) (place : SeekFrom) :
    Step source cursors (.seek i place) (cursors.set i (place.target source.length position)) []
  | clone {i position : ℕ} (hi : cursors[i]? = some position) :
    Step source cursors (.clone i) (cursors ++ [position]) []

inductive Cursors.Run (source : List Byte) : List ℕ → List Action → List (List Byte) → List ℕ → Prop
  | nil (cursors : List ℕ) : Run source cursors [] [] cursors
  | cons {cursors next last : List ℕ} {a : Action} {calls : List Action} {bytes : List Byte} {outputs : List (List Byte)}
    (hstep : Step source cursors a next bytes) (hrun : Run source next calls outputs last) :
    Run source cursors (a :: calls) (bytes :: outputs) last

variable {source : List Byte} {r r' : MultiReader} {bytes : List Byte} {short length : ℕ}

/-- The window is what the file has where it starts. -/
structure Sound (source : List Byte) (r : MultiReader) : Prop where
  size : r.fileSize = source.length
  length : r.window.length = readaheadSequential
  len : r.windowLen ≤ readaheadSequential
  content : r.window.take r.windowLen <+: source.drop r.windowStart

theorem sound_withSize : Sound source (.withSize source.length) :=
  ⟨rfl, length_replicate, Nat.zero_le _, nil_prefix⟩

theorem readAt_prefix (position : ℕ) : readAt source short position length <+: source.drop position :=
  (List.take_prefix _ _).trans (List.take_prefix _ _)

theorem length_readAt (position : ℕ) : (readAt source short position length).length ≤ length := by
  rw [readAt, length_take, length_take]
  omega

theorem readAt_eq_nil {position : ℕ} (h : readAt source short position length = []) :
    length = 0 ∨ source.length ≤ position := by
  have hlen := congrArg List.length h
  rw [readAt, length_take, length_take, length_drop, length_nil] at hlen
  omega

/-- What a read returns, and what it does to its reader. -/
structure Exact (source : List Byte) (r : MultiReader) (length : ℕ) (r' : MultiReader) (bytes : List Byte) : Prop where
  sound : Sound source r'
  content : bytes <+: source.drop r.offset
  le : bytes.length ≤ length
  nonempty : bytes = [] → length = 0 ∨ source.length ≤ r.offset
  offset : r'.offset = r.offset + bytes.length

theorem Sound.copyOut (h : Sound source r) (hstart : r.windowStart ≤ r.offset) (hend : r.offset < r.windowEnd)
    (length : ℕ) :
    ∃ r' bytes, r.copyOut length = some (r', bytes) ∧ Exact source r length r' bytes := by
  have hlen := h.len
  have hlength := h.length
  unfold MultiReader.windowEnd at hend
  have havailable : getSlice r.window (r.offset - r.windowStart) r.windowLen =
      some ((r.window.take r.windowLen).drop (r.offset - r.windowStart)) := if_pos ⟨by omega, by omega⟩
  have hsize : ((r.window.take r.windowLen).drop (r.offset - r.windowStart)).length =
      r.windowLen - (r.offset - r.windowStart) := by
    rw [length_drop, length_take, Nat.min_eq_left (by omega)]
  have hcontent : (r.window.take r.windowLen).drop (r.offset - r.windowStart) <+: source.drop r.offset := by
    have hdrop := h.content.drop (r.offset - r.windowStart)
    rwa [drop_drop, Nat.add_sub_cancel' hstart] at hdrop
  generalize (r.window.take r.windowLen).drop (r.offset - r.windowStart) = available at *
  have hcount : getSlice available 0 (min available.length length) = some (available.take length) := by
    rw [getSlice, if_pos ⟨Nat.zero_le _, Nat.min_le_left _ _⟩, drop_zero, Nat.min_comm, ← take_eq_take_min]
  have hbytes : (available.take length).length = min available.length length := by rw [length_take, Nat.min_comm]
  refine ⟨{ r with offset := r.offset + min available.length length }, available.take length, ?_,
    { h with }, (List.take_prefix _ _).trans hcontent, by omega, fun hnil => ?_, by rw [hbytes]⟩
  · simp only [MultiReader.copyOut, havailable, bind_some, hcount, map_some]
  · rw [hnil, length_nil, hsize] at hbytes
    omega

theorem Sound.fillWindow (h : Sound source r) (short : ℕ) :
    ∃ r', r.fillWindow source short = some r' ∧ Sound source r' ∧ r'.offset = r.offset ∧ r'.windowStart = r.offset ∧
      (r'.windowLen = 0 → source.length ≤ r.offset) := by
  unfold MultiReader.fillWindow
  generalize hsize : (if r.offset = r.windowEnd then readaheadSequential else readaheadRandom) = size
  have hle : size ≤ readaheadSequential ∧ 0 < size := by
    subst hsize
    split_ifs
    · exact ⟨le_rfl, by decide⟩
    · decide
  have hlength := h.length
  have hslice : getSlice r.window 0 size = some (r.window.take size) := if_pos ⟨Nat.zero_le _, by omega⟩
  have hroom : (r.window.take size).length = size := by rw [length_take, Nat.min_eq_left (by omega)]
  have hfilled : (readAt source short r.offset size).length ≤ size := length_readAt r.offset
  simp only [hslice, map_some, hroom]
  refine ⟨_, rfl, ⟨h.size, ?_, ?_, ?_⟩, rfl, rfl, fun hnil => ?_⟩
  · rw [length_append, length_drop]
    omega
  · exact hfilled.trans hle.1
  · rw [take_left']
    · exact readAt_prefix _
    · rfl
  · exact (readAt_eq_nil (length_eq_zero_iff.mp hnil)).resolve_left (by omega)

theorem Sound.read (h : Sound source r) (short length : ℕ) :
    ∃ r' bytes, r.read source short length = some (r', bytes) ∧ Exact source r length r' bytes := by
  unfold MultiReader.read
  split_ifs with hlarge houtside
  · exact ⟨_, _, rfl, { h with }, readAt_prefix _, length_readAt _, readAt_eq_nil, rfl⟩
  · obtain ⟨r', hfill, hsound, hoffset, hstart, hempty⟩ := h.fillWindow short
    rw [hfill, bind_some]
    split_ifs with hnil
    · exact ⟨_, _, rfl, hsound, nil_prefix, Nat.zero_le _, fun _ => .inr (hempty hnil), hoffset⟩
    · obtain ⟨r'', bytes, hcopy, hexact⟩ := hsound.copyOut (by omega) (by unfold MultiReader.windowEnd; omega) length
      refine ⟨r'', bytes, hcopy, hexact.sound, ?_, hexact.le, ?_, ?_⟩
      all_goals rw [← hoffset]
      · exact hexact.content
      · exact hexact.nonempty
      · exact hexact.offset
  · rw [not_or, Nat.not_lt, Nat.not_le] at houtside
    exact h.copyOut houtside.1 houtside.2 length

theorem moved_eq {position : ℕ} (h : position ≤ u64Max) (offset : ℤ) :
    MultiReader.moved position offset = shifted position offset := by
  unfold MultiReader.moved shifted
  unfold u64Max at *
  unfold i64Max
  split_ifs <;> omega

/-- The invariant of the readers: their positions are `u64`s as well. -/
structure Placed (source : List Byte) (r : MultiReader) : Prop extends Sound source r where
  bound : r.offset ≤ u64Max

/-- No read goes past the end of the file. -/
theorem Placed.of_exact (h : Placed source r) (hsize : source.length ≤ u64Max) (hexact : Exact source r length r' bytes) :
    Placed source r' := by
  have hlength := hexact.content.length_le
  rw [length_drop] at hlength
  have hbound := h.bound
  have hoffset := hexact.offset
  exact { hexact.sound with bound := by omega }

theorem Placed.seek (h : Placed source r) (hsize : source.length ≤ u64Max) {place : SeekFrom}
    (hplace : ∀ offset, place = .start offset → offset ≤ u64Max) :
    (r.seek place).offset = place.target source.length r.offset ∧ Placed source (r.seek place) := by
  have hle (position : ℕ) (offset : ℤ) : shifted position offset ≤ u64Max := by
    unfold shifted
    omega
  cases place with
  | start offset => exact ⟨rfl, { h with bound := hplace offset rfl }⟩
  | fromEnd offset =>
    have hmoved : MultiReader.moved r.fileSize offset = shifted source.length offset := h.size ▸ moved_eq hsize offset
    exact ⟨hmoved, { h with bound := hmoved.trans_le (hle _ _) }⟩
  | current offset =>
    have hmoved := moved_eq h.bound offset
    exact ⟨hmoved, { h with bound := hmoved.trans_le (hle _ _) }⟩

theorem Placed.clone (h : Placed source r) : Placed source r.clone := by
  have hnew : Sound source r.clone := { @sound_withSize source with size := h.size }
  exact { hnew with bound := h.bound }

section Runs

variable (hsize : source.length ≤ u64Max) {readers : List MultiReader} (h : ∀ r ∈ readers, Placed source r)
include hsize h

/-- One call does to the readers what it does to their positions. -/
theorem step_refines {a : Action} {calls : List Action} (ha : Valid readers.length (a :: calls)) :
    ∃ readers' bytes, step source readers a = some (readers', bytes) ∧ (∀ r ∈ readers', Placed source r) ∧
      Cursors.Step source (readers.map (·.offset)) a (readers'.map (·.offset)) bytes ∧ Valid readers'.length calls := by
  have hfind {i : ℕ} (hi : i < readers.length) : ∃ r, readers[i]? = some r ∧ Placed source r ∧
      (readers.map (·.offset))[i]? = some r.offset :=
    ⟨_, getElem?_eq_getElem hi, h _ (getElem_mem hi), by rw [getElem?_map, getElem?_eq_getElem hi]; rfl⟩
  have hset {i : ℕ} {r' : MultiReader} (hr' : Placed source r') : ∀ r ∈ readers.set i r', Placed source r :=
    fun r hr => (mem_or_eq_of_mem_set hr).elim (h r) fun heq => heq ▸ hr'
  cases a with
  | read i short length =>
    obtain ⟨r, hr, hplaced, hcursor⟩ := hfind ha.1
    obtain ⟨r', bytes, hread, hexact⟩ := hplaced.toSound.read short length
    refine ⟨readers.set i r', bytes, by rw [step, hr, bind_some, hread]; rfl, hset (hplaced.of_exact hsize hexact), ?_,
      by rw [length_set]; exact ha.2⟩
    rw [map_set, hexact.offset]
    exact .read hcursor hexact.content hexact.le hexact.nonempty
  | seek i place =>
    have hi : i < readers.length := by cases place <;> exact ha.1
    obtain ⟨r, hr, hplaced, hcursor⟩ := hfind hi
    have hplace : ∀ offset, place = .start offset → offset ≤ u64Max := by
      rintro offset rfl
      exact ha.2.1
    have hcalls : Valid readers.length calls := by
      cases place with
      | start => exact ha.2.2
      | fromEnd => exact ha.2
      | current => exact ha.2
    obtain ⟨hoffset, hseek⟩ := hplaced.seek hsize hplace
    refine ⟨readers.set i (r.seek place), [], by rw [step, hr]; rfl, hset hseek, ?_,
      by rwa [length_set]⟩
    rw [map_set, hoffset]
    exact .seek hcursor place
  | clone i =>
    obtain ⟨r, hr, hplaced, hcursor⟩ := hfind ha.1
    refine ⟨readers ++ [r.clone], [], by rw [step, hr]; rfl,
      forall_mem_append.mpr ⟨h, forall_mem_singleton.mpr hplaced.clone⟩, ?_, by rw [length_append]; exact ha.2⟩
    rw [map_append]
    exact .clone hcursor

theorem run_refines {calls : List Action} (hcalls : Valid readers.length calls) :
    ∃ readers' outputs, run source readers calls = some (readers', outputs) ∧
      Cursors.Run source (readers.map (·.offset)) calls outputs (readers'.map (·.offset)) := by
  induction calls generalizing readers with
  | nil => exact ⟨readers, [], rfl, .nil _⟩
  | cons a calls ih =>
    obtain ⟨next, bytes, hstep, hnext, hcursors, hvalid⟩ := step_refines hsize h hcalls
    obtain ⟨last, outputs, hrun, hrest⟩ := ih hnext hvalid
    exact ⟨last, bytes :: outputs, by simp only [run, hstep, bind_some, hrun, map_some], .cons hcursors hrest⟩

end Runs

/-- **Every read is exact**: however reads, seeks and clones of any of the readers are interleaved and however
short the reads of the file are, no call fails, and the calls return what they return for readers that are
positions in the file and nothing else, which at the end are where the readers are. -/
theorem reads_exact (hsize : source.length ≤ u64Max) {calls : List Action} (hcalls : Valid 1 calls) :
    ∃ readers outputs, run source [.withSize source.length] calls = some (readers, outputs) ∧
      Cursors.Run source [0] calls outputs (readers.map (·.offset)) :=
  run_refines hsize (forall_mem_singleton.mpr { @sound_withSize source with bound := Nat.zero_le _ }) hcalls

/-- A reader goes back into its window and is cloned there: the clone reads on from the same byte. -/
theorem reads_exact_cloned : ∃ readers bytes bytes',
    run [1, 2, 3, 4] [.withSize 4] [.read 0 5 3, .seek 0 (.start 1), .clone 0, .read 1 5 2] =
      some (readers, [bytes, [], [], bytes']) ∧
    bytes <+: [1, 2, 3, 4] ∧ bytes' <+: [2, 3, 4] ∧ bytes' ≠ [] ∧ readers.map (·.offset) = [1, 1 + bytes'.length] := by
  obtain ⟨readers, outputs, hrun, hcursors⟩ := @reads_exact [1, 2, 3, 4] (by decide)
    [.read 0 5 3, .seek 0 (.start 1), .clone 0, .read 1 5 2] (by simp [Valid, u64Max])
  cases hcursors with | cons hread hcursors =>
  cases hread with | read hi hcontent _ _ =>
  cases hi
  cases hcursors with | cons hseek hcursors =>
  cases hseek with | seek hi _ =>
  cases hcursors with | cons hclone hcursors =>
  cases hclone with | clone hi =>
  cases hi
  cases hcursors with | cons hread hcursors =>
  cases hread with | read hi hcontent' _ hnil =>
  cases hi
  generalize hlast : readers.map (·.offset) = last at hcursors
  cases hcursors
  exact ⟨readers, _, _, hrun, hcontent, hcontent', fun h => by simpa [SeekFrom.target] using hnil h, hlast⟩

end Wings.Archive
