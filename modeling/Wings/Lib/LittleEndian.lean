import Mathlib.Data.List.Basic

/-!
# Wings.Lib.LittleEndian — numbers as bytes, the lowest byte first

`leBytes` are the lowest bytes of a number.
-/

namespace Wings.Lib

/-- The `w` lowest bytes of a number. -/
def leBytes : ℕ → ℕ → List (Fin 256)
  | 0, _ => []
  | w + 1, v => ⟨v % 256, Nat.mod_lt _ (by decide)⟩ :: leBytes w (v / 256)

@[simp] theorem length_leBytes (w v : ℕ) : (leBytes w v).length = w := by
  induction w generalizing v with
  | zero => rfl
  | succ w ih => rw [leBytes, List.length_cons, ih]

end Wings.Lib
