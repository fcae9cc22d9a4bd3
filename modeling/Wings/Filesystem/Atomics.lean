import Wings.Lib.MachineInt

/-!
# Wings.Filesystem.Atomics — the cached totals of a server's disk usage

`server/filesystem/mod.rs`, `try_update_atomics`: the first half of every allocation.  It adds a
signed delta to the cached totals, and is the only place where the disk limit is enforced.  The
publication of the new total to the resource channel is not modelled.
-/

namespace Wings.Filesystem

open Lib

structure SpaceDelta where
  logical : ℤ
  physical : ℤ
  deriving DecidableEq, Repr

def SpaceDelta.ofI64 (value : ℤ) : SpaceDelta := ⟨value, value⟩

/-- The atomics of one filesystem: `disk_limit`, the two cached totals and
`disk_usage_delta_cached`. -/
structure Cached where
  diskLimit : ℤ
  logical : ℕ
  physical : ℕ
  deltaCached : ℤ
  deriving DecidableEq, Repr

/-- `fetch_add` of a positive delta, saturating subtraction of a negative one. -/
def addDelta (current : ℕ) (delta : ℤ) : ℕ :=
  if 0 < delta then wrapU64 (current + delta.toNat) else current - delta.natAbs

/-- The update of the physical total; `none` when the limit refuses it. -/
def updatePhysical (c : Cached) (delta : ℤ) (ignorant : Bool) : Option ℕ :=
  if 0 < delta ∧ ignorant = false ∧ c.diskLimit ≠ 0 then
    let limit := (c.diskLimit % 2 ^ 64).toNat
    let next := wrapU64 (c.physical + delta.toNat)
    if limit < next then none else some next
  else
    some (addDelta c.physical delta)

/-- `Filesystem::try_update_atomics`; `none` is its answer `false`, which changes nothing. -/
def tryUpdateAtomics (c : Cached) (delta : SpaceDelta) (ignorant : Bool) : Option Cached :=
  if delta.logical = 0 ∧ delta.physical = 0 then
    some c
  else
    (updatePhysical c delta.physical ignorant).map fun physical =>
      { c with
        physical := physical
        logical := addDelta c.logical delta.logical
        deltaCached := wrapI64 (c.deltaCached + delta.physical) }

theorem addDelta_exact {current : ℕ} {delta : ℤ} (hl : 0 ≤ current + delta)
    (hu : current + delta < 2 ^ 64) : (addDelta current delta) = current + delta := by
  unfold addDelta
  split_ifs with h
  · rw [wrapU64_of_lt (by omega)]
    omega
  · omega

/-- An ignorant caller skips the limit, so its update always goes through. -/
theorem tryUpdateAtomics_ignorant (c : Cached) (delta : SpaceDelta) :
    (tryUpdateAtomics c delta true).isSome = true := by
  unfold tryUpdateAtomics
  split_ifs
  · rfl
  · simp [updatePhysical]

variable {delta : SpaceDelta}

/-- What a granted update stores is the sum, checked against the limit or not. -/
theorem eq_addDelta_of_updatePhysical {c : Cached} {delta : ℤ} {ignorant : Bool} {next : ℕ}
    (h : updatePhysical c delta ignorant = some next) : next = addDelta c.physical delta := by
  simp only [updatePhysical] at h
  split_ifs at h with hlim
  · rw [addDelta, if_pos hlim.1]
    exact (Option.some.inj h).symm
  · exact (Option.some.inj h).symm

/-- **The quota.**  A caller that is not ignorant never takes the physical total above the limit,
unless it was there before. -/
theorem physical_le_of_tryUpdateAtomics {c c' : Cached} (h : tryUpdateAtomics c delta false = some c')
    (hlimit : 0 < c.diskLimit) (hi64 : c.diskLimit ≤ i64Max) : (c'.physical) ≤ max c.diskLimit c.physical := by
  unfold tryUpdateAtomics at h
  split_ifs at h with hzero
  · obtain rfl := Option.some.inj h
    exact le_max_right _ _
  · obtain ⟨next, hnext, rfl⟩ := Option.map_eq_some_iff.mp h
    show (next : ℤ) ≤ _
    by_cases hpos : 0 < delta.physical
    · apply le_max_of_le_left
      rw [updatePhysical, if_pos ⟨hpos, rfl, hlimit.ne'⟩] at hnext
      dsimp only at hnext
      split_ifs at hnext with hle
      obtain rfl := Option.some.inj hnext
      unfold i64Max at hi64
      omega
    · apply le_max_of_le_right
      rw [eq_addDelta_of_updatePhysical hnext, addDelta, if_neg hpos]
      omega

/-- **Exactness.**  A granted update whose results stay in the range of `u64` moves both totals by exactly the
delta. -/
theorem exact_of_tryUpdateAtomics {c c' : Cached} {ignorant : Bool} (h : tryUpdateAtomics c delta ignorant = some c')
    (hl : 0 ≤ c.logical + delta.logical) (hl' : c.logical + delta.logical < 2 ^ 64)
    (hp : 0 ≤ c.physical + delta.physical) (hp' : c.physical + delta.physical < 2 ^ 64) :
    (c'.logical) = c.logical + delta.logical ∧ (c'.physical) = c.physical + delta.physical := by
  unfold tryUpdateAtomics at h
  split_ifs at h with hzero
  · obtain rfl := Option.some.inj h
    constructor <;> omega
  · obtain ⟨next, hnext, rfl⟩ := Option.map_eq_some_iff.mp h
    obtain rfl := eq_addDelta_of_updatePhysical hnext
    exact ⟨addDelta_exact hl hl', addDelta_exact hp hp'⟩

end Wings.Filesystem
