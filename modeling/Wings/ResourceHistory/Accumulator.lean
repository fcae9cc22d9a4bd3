import Mathlib.Algebra.BigOperators.Group.List.Basic
import Wings.Server.State

/-!
# Wings.ResourceHistory.Accumulator — what a server used, gathered into buckets

`accumulator.rs`: a bucket has the figures of one step of a tier.

* `Bucket`, `Limits`, `Span`.
-/

namespace Wings.ResourceHistory

open Server.State (ServerState)

/-! ## Buckets -/

/-- The figures that are aggregated: numbers of samples, sums and maxima. -/
@[ext] structure PointRow where
  n : ℕ
  cpuSum : ℕ
  cpuMax : ℕ
  memSum : ℕ
  memMax : ℕ
  rx : ℕ
  tx : ℕ
  deriving DecidableEq

namespace PointRow

instance : Zero PointRow := ⟨⟨0, 0, 0, 0, 0, 0, 0⟩⟩

/-- `SUM` and `MAX` of two rows. -/
instance : Add PointRow where
  add r r' := ⟨r.n + r'.n, r.cpuSum + r'.cpuSum, max r.cpuMax r'.cpuMax, r.memSum + r'.memSum,
    max r.memMax r'.memMax, r.rx + r'.rx, r.tx + r'.tx⟩

end PointRow

structure Bucket extends PointRow where
  disk : ℕ
  deriving DecidableEq

/-! ## Limits and states -/

structure Limits where
  memory : ℕ
  cpu : ℕ
  deriving DecidableEq

/-- Seconds `[since, untilTs)` in one state. -/
structure Span where
  since : ℤ
  untilTs : ℤ
  state : ServerState
  deriving DecidableEq

end Wings.ResourceHistory
