import Mathlib.Algebra.Order.Group.Int
import Mathlib.Data.Int.ModEq

/-!
# Wings.Lib.MachineInt — 64-bit integers as integers in a range

Machine words are modelled by `ℤ` and `ℕ`; the operations that can leave the range name what they
do there.
-/

namespace Wings.Lib

def i64Min : ℤ := -2 ^ 63

def i64Max : ℤ := 2 ^ 63 - 1

def u64Max : ℕ := 2 ^ 64 - 1

/-- The representative of `x` modulo `2 ^ 64` in the range of `i64`. -/
def wrapI64 (x : ℤ) : ℤ := x.bmod (2 ^ 64)

/-- The value of `i64` nearest to `x`. -/
def clampI64 (x : ℤ) : ℤ := max i64Min (min i64Max x)

def saturatingMul (a b : ℤ) : ℤ := clampI64 (a * b)

def saturatingAdd (a b : ℤ) : ℤ := clampI64 (a + b)

/-- The representative of `n` modulo `2 ^ 64` in the range of `u64`. -/
def wrapU64 (n : ℕ) : ℕ := n % 2 ^ 64

/-- The value of `u64` nearest to `n`. -/
def clampU64 (n : ℕ) : ℕ := min u64Max n

theorem wrapI64_of_mem {x : ℤ} (hl : i64Min ≤ x) (hu : x ≤ i64Max) : wrapI64 x = x := by
  unfold i64Min at hl
  unfold i64Max at hu
  exact Int.bmod_eq_of_le (by omega) (by omega)

theorem wrapI64_neg_natCast {n : ℕ} (h : n ≤ 2 ^ 63 - 1) : wrapI64 (-wrapI64 n) = -n := by
  rw [wrapI64_of_mem (x := n) (by simp only [i64Min]; omega) (by simp only [i64Max]; omega)]
  exact wrapI64_of_mem (by simp only [i64Min]; omega) (by simp only [i64Max]; omega)

theorem wrapU64_of_lt {n : ℕ} (h : n < 2 ^ 64) : wrapU64 n = n := Nat.mod_eq_of_lt h

theorem clampU64_of_le {n : ℕ} (h : n ≤ u64Max) : clampU64 n = n := min_eq_right h

theorem exists_wrapI64_eq (x : ℤ) : ∃ k : ℤ, wrapI64 x = x + 2 ^ 64 * k := by
  have h : wrapI64 x ≡ x [ZMOD 2 ^ 64] := Int.bmod_emod
  obtain ⟨k, hk⟩ := h.symm.dvd
  exact ⟨k, by omega⟩

end Wings.Lib
