import Mathlib.Algebra.GroupWithZero.Nat
import Mathlib.Data.List.Infix
import Mathlib.Data.List.Lex
import Mathlib.Order.Fin.Basic

/-!
# Wings.Path — names, components and paths

Rust's `OsStr` and `Path` on Unix: names are byte strings, a path is what `Path::components` yields.
Two paths are equal exactly when their components are.

* `toStringLossy` — what is not UTF-8 becomes replacement characters.
-/

namespace Wings

open List

abbrev Byte := Fin 256

abbrev Name := List Byte

instance neZero_byte : NeZero 256 := ⟨by decide⟩

instance lawfulBEq_byte : LawfulBEq Byte := inferInstance

instance lawfulBEq_name : LawfulBEq Name := inferInstance

/-! ## UTF-8 -/

def isContinuation (b : Byte) : Bool := 0x80 ≤ b && b ≤ 0xBF

/-- The width of the scalar value at the head, as `run_utf8_validation` reads it; `none` where the
bytes are not UTF-8. -/
def charWidth : Name → Option ℕ
  | [] => none
  | a :: rest =>
    if a < 0x80 then some 1
    else if 0xC2 ≤ a && a ≤ 0xDF then
      match rest with
      | b :: _ => if isContinuation b then some 2 else none
      | _ => none
    else if 0xE0 ≤ a && a ≤ 0xEF then
      match rest with
      | b :: c :: _ =>
        -- no overlong forms below `E0 A0`, no surrogates from `ED A0`
        let low : Byte := if a = 0xE0 then 0xA0 else 0x80
        let high : Byte := if a = 0xED then 0x9F else 0xBF
        if low ≤ b && b ≤ high && isContinuation c then some 3 else none
      | _ => none
    else if 0xF0 ≤ a && a ≤ 0xF4 then
      match rest with
      | b :: c :: d :: _ =>
        let low : Byte := if a = 0xF0 then 0x90 else 0x80
        let high : Byte := if a = 0xF4 then 0x8F else 0xBF
        if low ≤ b && b ≤ high && isContinuation c && isContinuation d then some 4 else none
      | _ => none
    else none

/-- The validation loop; every round consumes at least one byte. -/
def validUtf8Loop : ℕ → Name → Bool
  | _, [] => true
  | 0, _ :: _ => false
  | fuel + 1, a :: rest =>
    match charWidth (a :: rest) with
    | some width => validUtf8Loop fuel ((a :: rest).drop width)
    | none => false

/-- Whether `std::str::from_utf8` accepts the bytes. -/
def validUtf8 (bytes : Name) : Bool := validUtf8Loop bytes.length bytes

abbrev Str := { bytes : Name // validUtf8 bytes = true }

/-- How many bytes one replacement character stands for where the bytes are not UTF-8: the longest
start of a scalar value, at least one byte. -/
def invalidWidth : Name → ℕ
  | [] => 0
  | a :: rest =>
    if 0xE0 ≤ a && a ≤ 0xEF then
      match rest with
      | b :: _ =>
        let low : Byte := if a = 0xE0 then 0xA0 else 0x80
        let high : Byte := if a = 0xED then 0x9F else 0xBF
        if low ≤ b && b ≤ high then 2 else 1
      | _ => 1
    else if 0xF0 ≤ a && a ≤ 0xF4 then
      match rest with
      | b :: rest =>
        let low : Byte := if a = 0xF0 then 0x90 else 0x80
        let high : Byte := if a = 0xF4 then 0x8F else 0xBF
        if low ≤ b && b ≤ high then
          match rest with
          | c :: _ => if isContinuation c then 3 else 2
          | _ => 2
        else 1
      | _ => 1
    else 1

def replacementCharacter : Name := [0xEF, 0xBF, 0xBD]

/-- The loop over the chunks of the bytes. -/
def toStringLossyLoop : ℕ → Name → Name
  | _, [] => []
  | 0, _ :: _ => []
  | fuel + 1, a :: rest =>
    match charWidth (a :: rest) with
    | some width => (a :: rest).take width ++ toStringLossyLoop fuel ((a :: rest).drop width)
    | none =>
      replacementCharacter ++ toStringLossyLoop fuel ((a :: rest).drop (invalidWidth (a :: rest)))

def toStringLossy (name : Name) : Name := toStringLossyLoop name.length name

variable {bytes : Name}

theorem charWidth_pos {width : ℕ} (h : charWidth bytes = some width) : 1 ≤ width := by
  unfold charWidth at h
  grind

variable {fuel : ℕ}

theorem toStringLossyLoop_of_valid (h : validUtf8Loop fuel bytes = true) :
    toStringLossyLoop fuel bytes = bytes := by
  induction fuel generalizing bytes with
  | zero =>
    cases bytes with
    | nil => rfl
    | cons a rest => cases h
  | succ fuel ih =>
    cases bytes with
    | nil => rfl
    | cons a rest =>
      rw [validUtf8Loop] at h
      rw [toStringLossyLoop]
      cases hw : charWidth (a :: rest) with
      | none => rw [hw] at h; cases h
      | some width =>
        rw [hw] at h
        simp only [ih h, take_append_drop]

theorem toStringLossy_of_valid {name : Name} (h : validUtf8 name = true) : toStringLossy name = name :=
  toStringLossyLoop_of_valid h

theorem mem_toStringLossyLoop {b : Byte}
    (h : b ∈ toStringLossyLoop fuel bytes) : b ∈ bytes ∨ b ∈ replacementCharacter := by
  induction fuel generalizing bytes with
  | zero => cases bytes <;> cases h
  | succ fuel ih =>
    cases bytes with
    | nil => cases h
    | cons a rest =>
      rw [toStringLossyLoop] at h
      cases hw : charWidth (a :: rest) with
      | none =>
        simp only [hw, mem_append] at h
        rcases h with h | h
        · exact .inr h
        · exact (ih h).imp_left fun hb => mem_of_mem_drop hb
      | some width =>
        simp only [hw, mem_append] at h
        rcases h with h | h
        · exact .inl (mem_of_mem_take h)
        · exact (ih h).imp_left fun hb => mem_of_mem_drop hb

theorem mem_toStringLossyLoop_of_invalid (hfuel : bytes.length ≤ fuel)
    (h : validUtf8Loop fuel bytes = false) : 0xEF ∈ toStringLossyLoop fuel bytes := by
  induction fuel generalizing bytes with
  | zero =>
    rw [length_eq_zero_iff.mp (Nat.le_zero.mp hfuel)] at h
    cases h
  | succ fuel ih =>
    cases bytes with
    | nil => cases h
    | cons a rest =>
      rw [validUtf8Loop] at h
      rw [toStringLossyLoop]
      cases hw : charWidth (a :: rest) with
      | none => simp [replacementCharacter]
      | some width =>
        have hpos := charWidth_pos hw
        have hlen : ((a :: rest).drop width).length ≤ fuel := by
          rw [length_drop]
          omega
        rw [hw] at h
        exact mem_append_right _ (ih hlen h)

example : toStringLossy [0x61, 0xE2, 0x82, 0x62, 0xFF] =
    [0x61] ++ replacementCharacter ++ [0x62] ++ replacementCharacter := by
  decide

/-! ## Paths -/

def slash : Byte := 0x2F

/-- What makes a name a file name: not empty, without `/`, and neither `.` nor `..`. -/
def IsFileName (name : Name) : Prop :=
  name ≠ [] ∧ slash ∉ name ∧ name ≠ [0x2E] ∧ name ≠ [0x2E, 0x2E]

instance (name : Name) : Decidable (IsFileName name) := inferInstanceAs (Decidable (_ ∧ _))

theorem isFileName_a : IsFileName [0x61] := by decide

abbrev FileName := { name : Name // IsFileName name }

/-- The names on the way down from a directory. -/
abbrev Subpath := List FileName

theorem isFileName_toStringLossy (name : FileName) : IsFileName (toStringLossy name.1) := by
  cases hv : validUtf8 name.1 with
  | true => rw [toStringLossy_of_valid hv]; exact name.2
  | false =>
    have hmark : 0xEF ∈ toStringLossy name.1 := mem_toStringLossyLoop_of_invalid le_rfl hv
    refine ⟨ne_nil_of_mem hmark, fun hslash => ?_, fun hdot => ?_, fun hdots => ?_⟩
    · rcases mem_toStringLossyLoop hslash with hmem | hmem
      · exact name.2.2.1 hmem
      · exact absurd hmem (by decide)
    · rw [hdot] at hmark
      exact absurd hmark (by decide)
    · rw [hdots] at hmark
      exact absurd hmark (by decide)

def FileName.lossy (name : FileName) : FileName :=
  ⟨toStringLossy name.1, isFileName_toStringLossy name⟩

inductive Component
  | rootDir
  | curDir
  | parentDir
  | normal (name : FileName)
  deriving DecidableEq

def Component.asOsStr : Component → Name
  | .rootDir => [slash]
  | .curDir => [0x2E]
  | .parentDir => [0x2E, 0x2E]
  | .normal name => name.1

abbrev Path := List Component

namespace Path

/-- `path == Path::new("") || path == Path::new("/")`. -/
def IsRoot (path : Path) : Prop := path = [] ∨ path = [.rootDir]

instance (path : Path) : Decidable path.IsRoot := inferInstanceAs (Decidable (_ ∨ _))

/-- `Path::join`: an absolute path replaces the one it is joined to. -/
def join (path other : Path) : Path :=
  if [.rootDir] <+: other then other else path ++ other

def parent (path : Path) : Option Path :=
  match path.getLast? with
  | none | some .rootDir => none
  | some _ => some path.dropLast

theorem parent_normal {names : Subpath} (h : names ≠ []) :
    parent (names.map .normal) = some (names.dropLast.map .normal) := by
  rw [parent, getLast?_map, getLast?_eq_some_getLast h, map_dropLast]
  rfl

/-- The component a part between two slashes stands for; empty parts and `.` stand for none. -/
def componentOf (part : Name) : Option Component :=
  if h : IsFileName part then some (.normal ⟨part, h⟩)
  else if part = [0x2E, 0x2E] then some .parentDir
  else none

/-- The parts of a path between its slashes; `part` is the part being read. -/
def parts : Name → Name → List Name
  | part, [] => [part]
  | part, b :: rest => if b = slash then part :: parts [] rest else parts (part ++ [b]) rest

/-- `Path::components` of a text.  A leading `.` is dropped as well, since every path is made
relative to the server's directory before it is used. -/
def components (text : Name) : Path :=
  (if [slash] <+: text then [.rootDir] else []) ++ (parts [] text).filterMap componentOf

theorem parts_of_no_slash {part text : Name} (h : slash ∉ text) : parts part text = [part ++ text] := by
  induction text generalizing part with
  | nil => simp [parts]
  | cons b rest ih =>
    have hb : b ≠ slash := fun hb => h (hb ▸ mem_cons_self)
    have hrest : slash ∉ rest := fun hmem => h (mem_cons_of_mem _ hmem)
    rw [parts, if_neg hb, ih hrest]
    simp

theorem parts_append_slash (part text rest : Name) :
    parts part (text ++ slash :: rest) = parts part text ++ parts [] rest := by
  induction text generalizing part with
  | nil => simp [parts]
  | cons b text ih =>
    rw [cons_append, parts, parts]
    split_ifs with hb
    · rw [ih, cons_append]
    · rw [ih]

theorem components_fileName (name : FileName) : components name.1 = [.normal name] := by
  have hroot : ¬ [slash] <+: name.1 := fun h => name.2.2.1 (h.subset (mem_singleton.mpr rfl))
  rw [components, if_neg hroot, parts_of_no_slash name.2.2.1]
  simp [componentOf, name.2]

end Path

end Wings
