import Mathlib.Data.List.Basic
import Wings.Lib.MachineInt

/-!
# Wings.Lib.OpenFile — an open regular file with its cursor

The part of POSIX that a file handle rests on: a byte array, a cursor, `O_APPEND`, and the calls
`read`, `write`, `pwrite`, `lseek` and `ftruncate`.  Offsets are signed 64-bit, so neither the
length nor the cursor ever exceeds `i64::MAX`; the structure carries both bounds.  One call moves at
most `maxTransfer` bytes and may always move fewer: the caller of the model says how many bytes the
kernel is willing to take (`accept`).
-/

namespace Wings.Lib

def maxOffset : ℕ := 2 ^ 63 - 1

/-- The most bytes one `read` or `write` transfers on Linux. -/
def maxTransfer : ℕ := 0x7ffff000

/-- An open file description on a regular file nobody else modifies. -/
structure OpenFile where
  content : List UInt8
  cursor : ℕ
  append : Bool
  readable : Bool
  writable : Bool
  length_le : content.length ≤ maxOffset
  cursor_le : cursor ≤ maxOffset

structure OpenOptions where
  read : Bool
  write : Bool
  append : Bool
  deriving DecidableEq, Repr

abbrev Content := { bytes : List UInt8 // bytes.length ≤ maxOffset }

theorem Content.length_le (content : Content) : content.1.length ≤ maxOffset := content.2

/-- `open(2)` of a regular file without `O_TRUNC`; appending is a way of writing. -/
def OpenOptions.openFile (options : OpenOptions) (content : Content) : OpenFile where
  content := content.1
  cursor := 0
  append := options.append
  readable := options.read
  writable := options.write || options.append
  length_le := content.2
  cursor_le := Nat.zero_le _

inductive SeekFrom
  | start (offset : ℕ)
  | fromEnd (offset : ℤ)
  | current (offset : ℤ)
  deriving DecidableEq, Repr

/-- The content after `bytes` were stored at `offset`; a gap before them is filled with zeros. -/
def splice (content : List UInt8) (offset : ℕ) (bytes : List UInt8) : List UInt8 :=
  content.take offset ++ List.replicate (offset - content.length) 0 ++ bytes ++ content.drop (offset + bytes.length)

variable (content : List UInt8)

/-- The content after a write call transferred `bytes`; transferring nothing changes nothing. -/
def store (content : List UInt8) (offset : ℕ) (bytes : List UInt8) : List UInt8 :=
  if bytes = [] then content else splice content offset bytes

theorem length_store (offset : ℕ) (bytes : List UInt8) :
    (store content offset bytes).length =
      if bytes.length = 0 then content.length else max content.length (offset + bytes.length) := by
  unfold store
  by_cases h : bytes = []
  · simp [h]
  · rw [if_neg h, if_neg (by simpa using h)]
    simp only [splice, List.length_append, List.length_take, List.length_replicate, List.length_drop]
    omega

namespace OpenFile

def length (f : OpenFile) : ℕ := f.content.length

variable (f : OpenFile)

theorem length_le_maxOffset : f.length ≤ maxOffset := f.length_le

@[simp] theorem length_openFile (options : OpenOptions) (content : Content) :
    (options.openFile content).length = content.1.length := rfl

/-- The bytes of `buf` one call transfers when the kernel takes `accept` of them. -/
def transferred (buf : List UInt8) (accept : ℕ) : List UInt8 :=
  buf.take (min accept maxTransfer)

/-- The offset at which a write aimed at `offset` lands: under `O_APPEND` always the end. -/
def landing (f : OpenFile) (offset : ℕ) : ℕ := if f.append then f.length else offset

theorem length_transferred_le (buf : List UInt8) (accept : ℕ) : (transferred buf accept).length ≤ maxTransfer := by
  rw [transferred, List.length_take]
  omega

theorem length_store_le {offset : ℕ} {bytes : List UInt8}
    (h : offset + bytes.length ≤ maxOffset) : (store f.content offset bytes).length ≤ maxOffset := by
  have hl := f.length_le
  rw [length_store]
  split_ifs <;> omega

/-- `pwrite(2)` at `offset`: the file and the number of bytes written, `none` on an error.  The
cursor stays. -/
def writeAt (f : OpenFile) (offset : ℕ) (buf : List UInt8) (accept : ℕ) : Option (OpenFile × ℕ) :=
  let bytes := transferred buf accept
  if h : f.writable = true ∧ offset ≤ maxOffset ∧ f.landing offset + bytes.length ≤ maxOffset then
    some ({ f with
      content := store f.content (f.landing offset) bytes
      length_le := length_store_le f h.2.2 }, bytes.length)
  else none

/-- The cursor after `write(2)` transferred `n` bytes. -/
def cursorAfter (f : OpenFile) (n : ℕ) : ℕ :=
  if n = 0 then f.cursor else f.landing f.cursor + n

theorem cursorAfter_le {n : ℕ} (h : f.landing f.cursor + n ≤ maxOffset) : f.cursorAfter n ≤ maxOffset := by
  have hc := f.cursor_le
  unfold cursorAfter
  split_ifs <;> omega

/-- `write(2)`: a write at the cursor, which then stands behind the bytes written. -/
def write (f : OpenFile) (buf : List UInt8) (accept : ℕ) : Option (OpenFile × ℕ) :=
  let bytes := transferred buf accept
  if h : f.writable = true ∧ f.landing f.cursor + bytes.length ≤ maxOffset then
    some ({ f with
      content := store f.content (f.landing f.cursor) bytes
      cursor := f.cursorAfter bytes.length
      length_le := length_store_le f h.2
      cursor_le := cursorAfter_le f h.2 }, bytes.length)
  else none

/-- `lseek(2)`; `none` is `EINVAL` or `EOVERFLOW`. -/
def seek (f : OpenFile) (pos : SeekFrom) : Option (OpenFile × ℕ) :=
  let target : ℤ :=
    match pos with
    | .start offset => offset
    | .fromEnd offset => f.length + offset
    | .current offset => f.cursor + offset
  if h : 0 ≤ target ∧ target ≤ maxOffset then
    some ({ f with cursor := target.toNat, cursor_le := by omega }, target.toNat)
  else none

def read (f : OpenFile) (room accept : ℕ) : Option (OpenFile × List UInt8) :=
  if f.readable then
    let bytes := (f.content.drop f.cursor).take (min room (min accept maxTransfer))
    some ({ f with
      cursor := f.cursor + bytes.length
      cursor_le := by
        have hl := f.length_le
        have hc := f.cursor_le
        simp only [bytes, List.length_take, List.length_drop]
        omega }, bytes)
  else none

def clear (f : OpenFile) : OpenFile :=
  { f with content := [], length_le := Nat.zero_le _ }

/-- The length of a file after `n` bytes aimed at `offset` were written into it. -/
def lengthAfter (f : OpenFile) (offset n : ℕ) : ℕ :=
  if n = 0 then f.length else max f.length (f.landing offset + n)

theorem le_lengthAfter (offset n : ℕ) : f.length ≤ f.lengthAfter offset n := by
  unfold lengthAfter
  split_ifs <;> omega

section specs

variable {f g : OpenFile} {n : ℕ} {buf : List UInt8} {accept : ℕ}

theorem writeAt_spec {offset : ℕ} (h : f.writeAt offset buf accept = some (g, n)) :
    n ≤ maxTransfer ∧ offset ≤ maxOffset ∧ g.length = f.lengthAfter offset n := by
  simp only [writeAt] at h
  split_ifs at h with hok
  obtain ⟨rfl, rfl⟩ := h
  exact ⟨length_transferred_le buf accept, hok.2.1, length_store _ _ _⟩

theorem write_spec (h : f.write buf accept = some (g, n)) :
    n ≤ maxTransfer ∧ g.length = f.lengthAfter f.cursor n := by
  simp only [write] at h
  split_ifs at h with hok
  obtain ⟨rfl, rfl⟩ := h
  exact ⟨length_transferred_le buf accept, length_store _ _ _⟩

theorem seek_spec {pos : SeekFrom} (h : f.seek pos = some (g, n)) :
    g.length = f.length ∧ g.cursor = n ∧ n ≤ maxOffset := by
  simp only [seek] at h
  split_ifs at h with hok
  obtain ⟨rfl, rfl⟩ := h
  exact ⟨rfl, rfl, by omega⟩

theorem read_length {room : ℕ} {bytes : List UInt8} (h : f.read room accept = some (g, bytes)) :
    g.length = f.length := by
  unfold read at h
  split_ifs at h
  obtain ⟨rfl, -⟩ := h
  rfl

end specs

end OpenFile

end Wings.Lib
