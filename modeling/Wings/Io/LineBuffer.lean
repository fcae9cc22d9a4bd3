import Mathlib.Data.List.DropRight
import Wings.Path

/-!
# Wings.Io.LineBuffer — console lines out of a stream of bytes

`io/line_buffer.rs`.  Bytes are appended as they arrive; a line is taken off as soon as its newline is there, or as
soon as it is too long.  What was taken is dropped from the buffer now and then.

* `LineBuffer`, with `extend`, `nextPiece` (`next_line` before it trims the line), `compact`, `flush`; `Op`, `run`.
* **`lines_independent`**
-/

namespace Wings.Io

open List

/-- A piece of the input, and whether a newline was consumed after it. -/
abbrev Piece := List Byte × Bool

structure LineBuffer where
  buffer : List Byte
  lineStart : ℕ

def maxLineLength : ℕ := 5120

def compactThreshold : ℕ := 10240

def newline : Byte := 0x0A

def isAsciiWhitespace (byte : Byte) : Bool := byte ∈ [0x20, 0x09, 0x0A, 0x0C, 0x0D]

def trimAsciiEnd (line : List Byte) : List Byte := line.rdropWhile isAsciiWhitespace

/-- The length of the next line of what is left, and how far it goes. -/
def cut (rest : List Byte) : Option (ℕ × ℕ) :=
  match rest.findIdx? (· = newline) with
  | some pos => if pos ≤ maxLineLength then some (pos, pos + 1) else some (maxLineLength, maxLineLength)
  | none => if maxLineLength < rest.length then some (maxLineLength, maxLineLength) else none

namespace LineBuffer

def new : LineBuffer := ⟨[], 0⟩

def rest (b : LineBuffer) : List Byte := b.buffer.drop b.lineStart

def extend (b : LineBuffer) (data : List Byte) : LineBuffer := { b with buffer := b.buffer ++ data }

def nextPiece (b : LineBuffer) : Option (LineBuffer × Piece) :=
  (cut b.rest).map fun (len, advance) =>
    ({ b with lineStart := b.lineStart + advance }, (b.rest.take len, len < advance))

def compact (b : LineBuffer) : LineBuffer :=
  if compactThreshold < b.lineStart ∧ b.buffer.length / 2 < b.lineStart then ⟨b.rest, 0⟩ else b

def flush (b : LineBuffer) : Option (List Byte) := if b.rest = [] then none else some (trimAsciiEnd b.rest)

end LineBuffer

inductive Op
  | extend (data : List Byte)
  | nextLine
  | compact

def Op.data : Op → List Byte
  | .extend data => data
  | .nextLine | .compact => []

/-- The buffer, and the pieces that were returned. -/
def step (st : LineBuffer × List Piece) : Op → LineBuffer × List Piece
  | .extend data => (st.1.extend data, st.2)
  | .nextLine => st.1.nextPiece.elim st fun (b, piece) => (b, st.2 ++ [piece])
  | .compact => (st.1.compact, st.2)

def run (ops : List Op) : LineBuffer × List Piece := ops.foldl step (.new, [])

/-- The lines that are returned, and at last what `flush` returns. -/
def linesOf (st : LineBuffer × List Piece) : List (List Byte) := st.2.map (trimAsciiEnd ·.1) ++ st.1.flush.toList

/-! ## Cuts -/

variable {rest more : List Byte} {len advance : ℕ}

open LineBuffer

section

variable (h : cut rest = some (len, advance))
include h

theorem cut_bounds :
    len ≤ maxLineLength ∧ 0 < advance ∧ advance ≤ rest.length ∧ len ≤ advance := by
  unfold cut at h
  split at h
  next pos hpos =>
    have hlt := (findIdx?_eq_some_iff_getElem.mp hpos).1
    split_ifs at h with hle
    · cases h
      exact ⟨hle, Nat.succ_pos _, hlt, Nat.le_succ _⟩
    · cases h
      exact ⟨le_rfl, by decide, by omega, le_rfl⟩
  · split_ifs at h with hlt
    cases h
    exact ⟨le_rfl, by decide, hlt.le, le_rfl⟩

theorem cut_append (more : List Byte) : cut (rest ++ more) = some (len, advance) := by
  unfold cut at h ⊢
  rw [findIdx?_append]
  split at h
  next pos hpos => rwa [hpos, Option.some_or]
  next hnone =>
    split_ifs at h with hlt
    cases h
    rw [hnone, Option.none_or]
    cases more.findIdx? (· = newline) with
    | none => exact if_pos (by rw [length_append]; omega)
    | some pos => exact if_neg (by show ¬pos + rest.length ≤ _; omega)

theorem take_append_newline :
    rest.take len ++ (if len < advance then [newline] else []) = rest.take advance := by
  unfold cut at h
  split at h
  next pos hpos =>
    obtain ⟨hlt, hnewline, _⟩ := findIdx?_eq_some_iff_getElem.mp hpos
    split_ifs at h with hle
    · cases h
      rw [if_pos (Nat.lt_succ_self _), take_succ_eq_append_getElem hlt, of_decide_eq_true hnewline]
    · cases h
      rw [if_neg (lt_irrefl _), append_nil]
  · split_ifs at h
    cases h
    rw [if_neg (lt_irrefl _), append_nil]

end

theorem cut_eq_none (h : cut rest = none) : rest.length ≤ maxLineLength ∧ newline ∉ rest := by
  unfold cut at h
  split at h
  · split_ifs at h
  next hnone =>
    split_ifs at h with hlt
    exact ⟨not_lt.mp hlt, fun hmem => by simpa using findIdx?_eq_none_iff.mp hnone newline hmem⟩

/-- The bytes are cut into the pieces, and something is left. -/
inductive Cuts : List Byte → List Piece → List Byte → Prop
  | nil (rest : List Byte) : Cuts rest [] rest
  | cons {rest left : List Byte} {len advance : ℕ} {ps : List Piece} (h : cut rest = some (len, advance))
    (tail : Cuts (rest.drop advance) ps left) : Cuts rest ((rest.take len, decide (len < advance)) :: ps) left

namespace Cuts

variable {left left' : List Byte} {ps ps' : List Piece} (h : Cuts rest ps left)
include h

theorem append (more : List Byte) : Cuts (rest ++ more) ps (left ++ more) := by
  induction h with
  | nil rest => exact .nil _
  | @cons rest left len advance ps hcut tail ih =>
    obtain ⟨_, _, hadvance, hlen⟩ := cut_bounds hcut
    have hcons := cons (cut_append hcut more) (by rwa [drop_append_of_le_length hadvance])
    rwa [take_append_of_le_length (hlen.trans hadvance)] at hcons

theorem concat (hcut : cut left = some (len, advance)) :
    Cuts rest (ps ++ [(left.take len, decide (len < advance))]) (left.drop advance) := by
  induction h with
  | nil rest => exact .cons hcut (.nil _)
  | cons hcut' tail ih => exact .cons hcut' (ih hcut)

theorem unique (h' : Cuts rest ps' left') (hleft : cut left = none) (hleft' : cut left' = none) :
    ps = ps' ∧ left = left' := by
  induction h generalizing ps' with
  | nil rest =>
    cases h' with
    | nil => exact ⟨rfl, rfl⟩
    | cons hcut => rw [hleft] at hcut; cases hcut
  | cons hcut tail ih =>
    cases h' with
    | nil => rw [hleft'] at hcut; cases hcut
    | cons hcut' tail' =>
      rw [hcut] at hcut'
      cases hcut'
      obtain ⟨rfl, rfl⟩ := ih tail' hleft
      exact ⟨rfl, rfl⟩

theorem flatten : ps.flatMap (fun p => p.1 ++ if p.2 then [newline] else []) ++ left = rest := by
  induction h with
  | nil rest => rfl
  | @cons rest left len advance ps hcut tail ih =>
    rw [flatMap_cons, append_assoc, ih]
    simp only [decide_eq_true_eq, take_append_newline hcut, take_append_drop]

theorem length_le : ∀ p ∈ ps, p.1.length ≤ maxLineLength := by
  induction h with
  | nil rest => exact forall_mem_nil _
  | cons hcut tail ih =>
    refine forall_mem_cons.mpr ⟨?_, ih⟩
    exact (length_take_le _ _).trans (cut_bounds hcut).1

end Cuts

/-! ## Runs -/

def arrived (ops : List Op) : List Byte := ops.flatMap Op.data

theorem rest_compact (b : LineBuffer) : b.compact.rest = b.rest := by
  unfold compact
  split_ifs
  · rfl
  · rfl

variable (ops : List Op)

theorem run_concat (op : Op) : run (ops ++ [op]) = step (run ops) op := by
  rw [run, foldl_append]
  rfl

theorem step_nextLine {st : LineBuffer × List Piece} (h : cut st.1.rest = some (len, advance)) :
    step st .nextLine = ({ st.1 with lineStart := st.1.lineStart + advance },
      st.2 ++ [(st.1.rest.take len, decide (len < advance))]) := by
  rw [step, nextPiece, h]
  rfl

/-- What has been returned are the first pieces of what has arrived; nothing is left out. -/
theorem cuts_run :
    (run ops).1.lineStart ≤ (run ops).1.buffer.length ∧ Cuts (arrived ops) (run ops).2 (run ops).1.rest := by
  induction ops using reverseRecOn with
  | nil => exact ⟨le_rfl, .nil _⟩
  | append_singleton ops op ih =>
    obtain ⟨hstart, hcuts⟩ := ih
    rw [run_concat, arrived, flatMap_append, flatMap_singleton]
    cases op with
    | extend data =>
      have hrest : ((run ops).1.extend data).rest = (run ops).1.rest ++ data := drop_append_of_le_length hstart
      refine ⟨?_, hrest ▸ hcuts.append data⟩
      show (run ops).1.lineStart ≤ ((run ops).1.buffer ++ data).length
      rw [length_append]
      omega
    | nextLine =>
      rw [Op.data, append_nil]
      cases hcut : cut (run ops).1.rest with
      | none =>
        rw [step, nextPiece, hcut]
        exact ⟨hstart, hcuts⟩
      | some c =>
        obtain ⟨len, advance⟩ := c
        rw [step_nextLine hcut]
        have hadvance := (cut_bounds hcut).2.2.1
        rw [rest, length_drop] at hadvance
        refine ⟨show _ ≤ (run ops).1.buffer.length by dsimp only; omega, ?_⟩
        have hconcat := hcuts.concat hcut
        rwa [rest, drop_drop] at hconcat
    | compact =>
      rw [Op.data, append_nil]
      refine ⟨?_, (rest_compact _).symm ▸ hcuts⟩
      show (run ops).1.compact.lineStart ≤ (run ops).1.compact.buffer.length
      unfold compact
      split_ifs
      · exact Nat.zero_le _
      · exact hstart

theorem cut_eq_none_iff {b : LineBuffer} : b.nextPiece = none ↔ cut b.rest = none := Option.map_eq_none_iff

theorem exists_drained : ∃ k, (run (ops ++ replicate k .nextLine)).1.nextPiece = none := by
  induction hn : (run ops).1.rest.length using Nat.strong_induction_on generalizing ops with
  | _ n ih =>
    cases hcut : cut (run ops).1.rest with
    | none => exact ⟨0, cut_eq_none_iff.mpr (by rwa [replicate_zero, append_nil])⟩
    | some c =>
      obtain ⟨len, advance⟩ := c
      have hbounds := cut_bounds hcut
      have hrest : (run (ops ++ [.nextLine])).1.rest = (run ops).1.rest.drop advance := by
        rw [run_concat, step_nextLine hcut, rest, rest, drop_drop]
      have hlt : ((run ops).1.rest.drop advance).length < n := by
        rw [length_drop]
        omega
      obtain ⟨k, hk⟩ := ih _ hlt (ops ++ [.nextLine]) (by rw [hrest])
      exact ⟨k + 1, by rwa [append_assoc] at hk⟩

/-- **The lines do not depend on how the bytes arrive**: when `next_line` has been called until it returns nothing,
the lines and what `flush` returns are those of every such run with the same bytes, for one with a single `extend`.
The pieces with the newlines between them and a last piece, which `flush` returns trimmed unless it is empty, are
the input, and no piece is too long. -/
theorem lines_independent (ops : List Op) :
    (∃ k, (run (ops ++ replicate k .nextLine)).1.nextPiece = none) ∧
    ((run ops).1.nextPiece = none →
      (∀ ops', arrived ops' = arrived ops → (run ops').1.nextPiece = none → linesOf (run ops') = linesOf (run ops)) ∧
      (∀ p ∈ (run ops).2, p.1.length ≤ maxLineLength) ∧
      ∃ last, (run ops).2.flatMap (fun p => p.1 ++ if p.2 then [newline] else []) ++ last = arrived ops ∧
        last.length ≤ maxLineLength ∧ newline ∉ last ∧
        (run ops).1.flush = if last = [] then none else some (trimAsciiEnd last)) := by
  refine ⟨exists_drained ops, fun hdone => ?_⟩
  have hcuts := (cuts_run ops).2
  rw [cut_eq_none_iff] at hdone
  refine ⟨fun ops' hsame hdone' => ?_, hcuts.length_le, _, hcuts.flatten, ?_, ?_, rfl⟩
  · have hcuts' := (cuts_run ops').2
    rw [hsame] at hcuts'
    obtain ⟨hpieces, hrest⟩ := hcuts'.unique hcuts (cut_eq_none_iff.mp hdone') hdone
    rw [linesOf, linesOf, flush, flush, hpieces, hrest]
  · exact (cut_eq_none hdone).1
  · exact (cut_eq_none hdone).2

end Wings.Io
