import Mathlib.Data.List.Infix
import Std.Data.String.ToNat
import Wings.Lib.Text

/-!
# Wings.Filesystem.FileRead — a part of a file as a response

`ByteRange` and `FileRead` of `virtualfs/mod.rs` with the readers of `io/range_reader.rs`.  The bounds of a request
are read by the parser, by `resolve_range` and for the `Content-Range` header.

* **`ranged_response`**
-/

namespace Wings.Filesystem

open Lib List

inductive Bound where
  | included (n : ℕ)
  | excluded (n : ℕ)
  | unbounded
  deriving DecidableEq

/-- `str::parse::<u64>`. -/
def parseU64 (text : Text) : Option ℕ :=
  let digits := if text.head? = some '+' then text.tail else text
  let value := digits.foldl (fun n c => 10 * n + (c.toNat - '0'.toNat)) 0
  if digits ≠ [] ∧ digits.all Char.isDigit ∧ value < 2 ^ 64 then some value else none

def parseBound (text : Text) : Option Bound :=
  if text = [] then some .unbounded else (parseU64 text).map .included

structure ByteRange where
  start : Bound
  stop : Bound
  deriving DecidableEq

namespace ByteRange

def fromHeaders : Option Text → Option ByteRange
  | some ('b' :: 'y' :: 't' :: 'e' :: 's' :: '=' :: values) =>
    match values.splitOn '-' with
    | [start, stop] => (parseBound start).bind fun start => (parseBound stop).map (⟨start, ·⟩)
    | _ => none
  | _ => none

def getStart (range : ByteRange) : Option ℕ :=
  match range.start with
  | .included s => some s
  | .excluded s => some (s + 1)
  | .unbounded => none

def getEnd (range : ByteRange) : Option ℕ :=
  match range.stop with
  | .included e => some e
  | .excluded e => some (e - 1)
  | .unbounded => none

def contentRange (s e total : ℕ) : String := s!"bytes {s}-{e}/{total}"

theorem contentRange_inj {s e e' total : ℕ} (h : contentRange s e total = contentRange s e' total) : e = e' := by
  have hrepr : e.repr = e'.repr := by simpa [contentRange, String.append_assoc] using h
  exact Nat.repr_inj.mp hrepr

def getHeaderValue (range : ByteRange) (total : ℕ) : String :=
  contentRange (range.getStart.getD 0) (range.getEnd.getD (total - 1)) total

def resolveRange (range : ByteRange) (len : ℕ) : Option (ℕ × ℕ) :=
  if len = 0 ∨ range.start = .excluded (2 ^ 64 - 1) ∨ range.stop = .excluded 0 then none
  else
    let start := range.getStart.getD 0
    let stop := min (range.getEnd.getD (len - 1)) (len - 1)
    if stop < start then none else some (start, stop)

/-- What a request means: the last bytes, where it has only an end. -/
def meant (range : ByteRange) (len : ℕ) : ℕ × ℕ :=
  match range.getStart, range.getEnd with
  | some a, some b => (a, min b (len - 1))
  | some a, none => (a, len - 1)
  | none, some n => (len - min n len, len - 1)
  | none, none => (0, len - 1)

end ByteRange

/-- A reader; `inner` is the file from its cursor on. -/
structure RangeReader where
  inner : List UInt8
  start : ℕ
  stop : ℕ
  pos : ℕ

namespace RangeReader

def new (content : List UInt8) (range : ByteRange) : Option RangeReader :=
  (range.resolveRange content.length).map fun (start, stop) => ⟨content.drop start, start, stop, start⟩

def len (r : RangeReader) : ℕ := r.stop - r.start + 1

/-- A read into `room` bytes.  The file gives up to `accept` bytes more than one, or it is pending. -/
def read (r : RangeReader) (room : ℕ) : Option ℕ → RangeReader × List UInt8
  | none => (r, [])
  | some accept =>
    if r.stop < r.pos then (r, [])
    else
      let toRead := min (r.stop - r.pos + 1) room
      let bytes := r.inner.take (min toRead (accept + 1))
      ({ r with inner := r.inner.drop bytes.length, pos := r.pos + bytes.length }, bytes)

def readAll (r : RangeReader) : List (ℕ × Option ℕ) → List UInt8
  | [] => []
  | (room, accept) :: reads => (r.read room accept).2 ++ readAll (r.read room accept).1 reads

/-- What has not been read. -/
def left (r : RangeReader) : List UInt8 := r.inner.take (r.stop + 1 - r.pos)

variable (r : RangeReader)

theorem left_read (room : ℕ) (accept : Option ℕ) : r.left = (r.read room accept).2 ++ (r.read room accept).1.left := by
  cases accept with
  | none => rfl
  | some accept =>
    unfold read
    split_ifs with hpos
    · rfl
    · have hle : (r.inner.take (min (min (r.stop - r.pos + 1) room) (accept + 1))).length ≤ r.stop + 1 - r.pos := by
        rw [length_take]
        omega
      have hread := prefix_iff_eq_take.mp <| take_prefix (min (min (r.stop - r.pos + 1) room) (accept + 1)) r.inner
      rw [left, left, ← Nat.add_sub_cancel' hle, take_add, ← hread, Nat.sub_sub]

theorem read_ne_nil {room accept : ℕ} (hroom : 0 < room) (hleft : r.left ≠ []) : (r.read room (some accept)).2 ≠ [] := by
  simp only [left, ne_eq, take_eq_nil_iff, not_or] at hleft
  rw [read, if_neg (by omega)]
  simp only [ne_eq, take_eq_nil_iff, not_or]
  exact ⟨by omega, hleft.2⟩

/-- What is read is the beginning of what is left, and all of it after enough reads that have room and are not
pending. -/
theorem readAll_spec (reads : List (ℕ × Option ℕ)) : r.readAll reads <+: r.left ∧
    (r.left.length ≤ reads.countP (fun c => 0 < c.1 ∧ c.2.isSome) → r.readAll reads = r.left) := by
  induction reads generalizing r with
  | nil => exact .intro nil_prefix fun h => (length_eq_zero_iff.mp (Nat.le_zero.mp h)).symm
  | cons c reads ih =>
    obtain ⟨room, accept⟩ := c
    have hleft := r.left_read room accept
    obtain ⟨hbegin, hall⟩ := ih (r.read room accept).1
    rw [readAll]
    refine ⟨hleft ▸ (prefix_append_right_inj _).mpr hbegin, fun h => ?_⟩
    rw [hleft, hall]
    have hlength := congrArg length hleft
    rw [length_append] at hlength
    rw [countP_cons] at h
    split_ifs at h with hread
    · obtain ⟨hroom, haccept⟩ := of_decide_eq_true hread
      obtain ⟨accept, rfl⟩ := Option.isSome_iff_exists.mp haccept
      by_cases hnil : r.left = []
      · rw [hnil, length_nil] at hlength
        omega
      · have hpos : 0 < (r.read room (some accept)).2.length := length_pos_of_ne_nil (r.read_ne_nil hroom hnil)
        omega
    · omega

end RangeReader

structure FileRead where
  size : ℕ
  totalSize : ℕ
  readerRange : ByteRange
  reader : RangeReader

namespace FileRead

/-- With a range; without one the reader is the file. -/
def fromFile (content : List UInt8) (range : ByteRange) : Option FileRead :=
  (RangeReader.new content range).map fun reader => ⟨reader.len, content.length, range, reader⟩

/-- `Content-Length` and `Content-Range`. -/
def headers (f : FileRead) : ℕ × String := (f.size, f.readerRange.getHeaderValue f.totalSize)

/-- **A ranged response describes its body**, however the reads are split, exactly if the end that is asked for is
in the file and stands behind a start. -/
theorem ranged_response {range : ByteRange} {content : List UInt8} {f : FileRead} (hf : fromFile content range = some f) :
    (∃ s e, s ≤ e ∧ e < content.length ∧ f.headers = (e - s + 1, ByteRange.contentRange s e content.length) ∧
      range.meant content.length = (s, e) ∧
      ∀ reads, f.reader.readAll reads <+: (content.drop s).take (e - s + 1) ∧
        (f.size ≤ reads.countP (fun c => 0 < c.1 ∧ c.2.isSome) →
          f.reader.readAll reads = (content.drop s).take (e - s + 1))) ↔
      ∀ b, range.getEnd = some b → b < content.length ∧ range.getStart.isSome := by
  obtain ⟨r, hr, rfl⟩ := Option.map_eq_some_iff.mp hf
  obtain ⟨⟨s, e⟩, hresolve, rfl⟩ := Option.map_eq_some_iff.mp hr
  constructor
  · rintro ⟨s', e', hle, hlt, hheaders, hmeant, -⟩ b hb
    obtain ⟨hlength, hvalue⟩ := Prod.mk.inj hheaders
    rw [ByteRange.getHeaderValue, hb, Option.getD_some] at hvalue
    rw [ByteRange.meant, hb] at hmeant
    cases hstart : range.getStart with
    | some a =>
      rw [hstart] at hvalue hmeant
      cases hmeant
      exact ⟨(ByteRange.contentRange_inj hvalue).trans_lt hlt, rfl⟩
    | none =>
      -- the last bytes are meant, and the first ones are sent
      simp only [ByteRange.resolveRange, hstart, hb, Option.getD_none, Option.getD_some] at hresolve
      split_ifs at hresolve
      cases hresolve
      rw [hstart] at hvalue hmeant
      cases hmeant
      simp only [RangeReader.len] at hlength
      have hfrom : content.length - min b content.length = 0 := by omega
      rw [hfrom] at hvalue
      have hb' := ByteRange.contentRange_inj hvalue
      omega
  · intro hend
    have hspec : s ≤ e ∧ e < content.length ∧ range.getHeaderValue content.length =
        ByteRange.contentRange s e content.length ∧ range.meant content.length = (s, e) := by
      grind [ByteRange.resolveRange, ByteRange.getHeaderValue, ByteRange.meant]
    obtain ⟨hle, hlt, hvalue, hmeant⟩ := hspec
    refine ⟨s, e, hle, hlt, Prod.ext rfl hvalue, hmeant, ?_⟩
    have hsize : e + 1 - s = e - s + 1 := Nat.sub_add_comm hle
    rw [← hsize]
    exact fun reads => (RangeReader.readAll_spec _ reads).imp_right fun hall hcount =>
      hall ((length_take_le _ _).trans (hsize.le.trans hcount))

/-- The second and third byte of four. -/
theorem ranged_response_two_bytes : ∃ f, fromFile [1, 2, 3, 4] ⟨.included 1, .included 2⟩ = some f ∧
    ∀ reads, f.reader.readAll reads <+: [2, 3] := by
  have hf : fromFile [1, 2, 3, 4] ⟨.included 1, .included 2⟩ = some _ := rfl
  obtain ⟨s, e, -, -, -, hmeant, hreads⟩ := (ranged_response hf).mpr fun b hb => ⟨by cases hb; decide, rfl⟩
  cases hmeant
  exact ⟨_, hf, fun reads => (hreads reads).1⟩

/-- Of the last two bytes that are asked for, the first three are sent. -/
theorem suffix_sent_from_start : ∃ range f,
    ByteRange.fromHeaders (some ['b', 'y', 't', 'e', 's', '=', '-', '2']) = some range ∧
      fromFile [1, 2, 3, 4] range = some f ∧ range.meant 4 = (2, 3) ∧ f.reader.readAll [(9, some 9)] = [1, 2, 3] := by
  refine ⟨⟨.unbounded, .included 2⟩, _, by decide, rfl, rfl, by decide⟩

end FileRead

end Wings.Filesystem
