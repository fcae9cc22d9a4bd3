import Wings.Lib.Text
import Wings.Path

/-!
# Wings.Utf8 — texts as bytes

`std::str::from_utf8`: bytes that are UTF-8 are a text.
-/

namespace Wings

open Lib List

/-- The scalar value that one to four bytes stand for. -/
def scalarOf : Name → Char
  | [a] => Char.ofNat a
  | [a, b] => Char.ofNat (a % 0x20 * 0x40 + b % 0x40)
  | [a, b, c] => Char.ofNat ((a % 0x10 * 0x40 + b % 0x40) * 0x40 + c % 0x40)
  | [a, b, c, d] => Char.ofNat (((a % 0x08 * 0x40 + b % 0x40) * 0x40 + c % 0x40) * 0x40 + d % 0x40)
  | _ => Char.ofNat 0xFFFD

def decodeUtf8Loop : ℕ → Name → Option Text
  | _, [] => some []
  | 0, _ :: _ => none
  | fuel + 1, a :: rest =>
    match charWidth (a :: rest) with
    | some width =>
      (decodeUtf8Loop fuel ((a :: rest).drop width)).map (scalarOf ((a :: rest).take width) :: ·)
    | none => none

def decodeUtf8 (bytes : Name) : Option Text := decodeUtf8Loop bytes.length bytes

theorem isSome_decodeUtf8Loop (fuel : ℕ) (bytes : Name) :
    (decodeUtf8Loop fuel bytes).isSome = validUtf8Loop fuel bytes := by
  induction fuel generalizing bytes with
  | zero => cases bytes <;> rfl
  | succ fuel ih =>
    cases bytes with
    | nil => rfl
    | cons a rest =>
      rw [decodeUtf8Loop, validUtf8Loop]
      cases charWidth (a :: rest) with
      | none => rfl
      | some width =>
        dsimp only
        rw [Option.isSome_map, ih]

example : decodeUtf8 [0x61, 0xE2, 0x82, 0xAC] = some ['a', '€'] := by decide

/-! ## Splitting -/

theorem validUtf8Loop_of_le {fuel : ℕ} {bytes : Name} (h : bytes.length ≤ fuel) :
    validUtf8Loop fuel bytes = validUtf8 bytes := by
  suffices hsame : ∀ fuel fuel' : ℕ, bytes.length ≤ fuel → bytes.length ≤ fuel' →
      validUtf8Loop fuel bytes = validUtf8Loop fuel' bytes from hsame _ _ h le_rfl
  clear h
  intro fuel
  induction fuel generalizing bytes with
  | zero =>
    intro fuel' h _
    rw [length_eq_zero_iff.mp (Nat.le_zero.mp h)]
    cases fuel' <;> rfl
  | succ fuel ih =>
    intro fuel' h h'
    cases bytes with
    | nil => cases fuel' <;> rfl
    | cons a rest =>
      cases fuel' with
      | zero => cases h'
      | succ fuel' =>
        rw [validUtf8Loop, validUtf8Loop]
        cases hwidth : charWidth (a :: rest) with
        | none => rfl
        | some width =>
          have hpos := charWidth_pos hwidth
          rw [length_cons] at h h'
          refine ih fuel' ?_ ?_ <;> rw [length_drop, length_cons] <;> omega

theorem validUtf8_of_charWidth {a : Byte} {rest : Name} {width : ℕ} (h : charWidth (a :: rest) = some width) :
    validUtf8 (a :: rest) = validUtf8 ((a :: rest).drop width) := by
  have hpos := charWidth_pos h
  rw [validUtf8, length_cons, validUtf8Loop, h]
  refine validUtf8Loop_of_le ?_
  rw [length_drop, length_cons]
  omega

theorem validUtf8_of_charWidth_eq_none {a : Byte} {rest : Name} (h : charWidth (a :: rest) = none) :
    validUtf8 (a :: rest) = false := by
  rw [validUtf8, length_cons, validUtf8Loop, h]

theorem not_isContinuation {c : Byte} (hc : c < 0x80) : isContinuation c = false := by
  rw [isContinuation, Bool.and_eq_false_iff, decide_eq_false_iff_not, not_le]
  exact .inl hc

theorem charWidth_append_ascii {a c : Byte} (hc : c < 0x80) (rest bytes : Name) :
    charWidth ((a :: rest) ++ c :: bytes) = charWidth (a :: rest) := by
  have hlow : ∀ p : Prop, [Decidable p] → ∀ low : Byte, 0x80 ≤ low → ¬ (if p then low else 0x80) ≤ c := by
    intro p _ low hle
    split_ifs
    · exact not_le.mpr (hc.trans_le hle)
    · exact not_le.mpr hc
  have hcont := not_isContinuation hc
  rcases rest with _ | ⟨b, _ | ⟨b', _ | ⟨b'', rest⟩⟩⟩
  · rcases bytes with _ | ⟨d, _ | ⟨d', bytes⟩⟩ <;>
      simp only [charWidth, cons_append, nil_append, hcont, hlow _ 0xA0 (by decide), hlow _ 0x90 (by decide),
        decide_false, Bool.false_and, Bool.false_eq_true, if_false]
  · rcases bytes with _ | ⟨d, bytes⟩ <;>
      simp only [charWidth, cons_append, nil_append, hcont, Bool.and_false, Bool.false_and, Bool.false_eq_true, if_false]
  · simp only [charWidth, cons_append, nil_append, hcont, Bool.and_false, Bool.false_eq_true, if_false]
  · rfl

theorem charWidth_le {bytes : Name} {width : ℕ} (h : charWidth bytes = some width) : width ≤ bytes.length := by
  unfold charWidth at h
  grind

/-- **Bytes may be split at an ASCII character.** -/
theorem validUtf8_append_ascii {c : Byte} (hc : c < 0x80) (before after : Name) :
    validUtf8 (before ++ c :: after) = (validUtf8 before && validUtf8 after) := by
  -- one scalar value of the bytes before after the other
  generalize hn : before.length = n
  induction n using Nat.strong_induction_on generalizing before with
  | _ n ih =>
    cases before with
    | nil =>
      have hwidth : charWidth (c :: after) = some 1 := if_pos hc
      exact (validUtf8_of_charWidth hwidth).trans (Bool.true_and _).symm
    | cons a rest =>
      have happend := charWidth_append_ascii hc rest after (a := a)
      cases hwidth : charWidth (a :: rest) with
      | none =>
        rw [validUtf8_of_charWidth_eq_none hwidth, Bool.false_and]
        exact validUtf8_of_charWidth_eq_none (happend.trans hwidth)
      | some width =>
        have hpos := charWidth_pos hwidth
        have hle := charWidth_le hwidth
        have hdrop : validUtf8 (a :: rest ++ c :: after) = validUtf8 ((a :: rest ++ c :: after).drop width) :=
          validUtf8_of_charWidth (happend.trans hwidth)
        rw [hdrop, validUtf8_of_charWidth hwidth, drop_append_of_le_length hle]
        refine ih _ ?_ _ rfl
        rw [length_drop, ← hn]
        rw [length_cons] at hle ⊢
        omega

end Wings
