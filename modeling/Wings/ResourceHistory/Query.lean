import Mathlib.Data.Prod.Lex
import Mathlib.Tactic.Linarith
import Mathlib.Tactic.Positivity
import Wings.ResourceHistory.Accumulator

/-!
# Wings.ResourceHistory.Query — the history of a server in points

`Storage::query` reads the rows of one tier and adds them up by point, with an index that is computed in SQL;
`History` shows each point with its bounds.

* `pointBounds`, `pointStates`, `assemble` — from `mod.rs`.
* **`buckets_shown_iff`**
-/

namespace Wings.ResourceHistory

open Server.State (ServerState)
open List

/-! ## Storage -/

structure StoredTier where
  step : ℕ
  retention : ℕ
  retired : Bool
  pos : 0 < step

/-- What is stored of one server: for each step the rows of its table, the limits and the spans of its states. -/
structure ServerHistory where
  tiers : List StoredTier
  rows : ℕ → List (ℤ × Bucket)
  limits : List (ℤ × Limits)
  spans : List Span

structure RawHistory where
  step : ℕ
  coveredFrom : Option ℤ
  rows : ℕ → Option PointRow
  disks : ℕ → Option ℕ
  diskBefore : Option ℕ
  limits : List (ℤ × Limits)
  spans : List Span

/-- `choose_tier`: the coarsest tier that fits into a slice and reaches back to the start, or else the one that
reaches back the furthest, or else the finest. -/
def chooseTier (candidates : List (ℕ × Option ℤ)) (start width : ℤ) : Option (ℕ × Option ℤ) :=
  let fitting := candidates.filter fun c => (c.1 : ℤ) ≤ max width 1
  ((fitting.filter fun c => c.2.any (· ≤ start)).maxOn? (·.1)).or <|
    ((fitting.filter fun c => c.2.isSome).minOn? fun c => toLex (c.2.getD 0, OrderDual.toDual c.1)).or <|
      candidates.minOn? (·.1)

namespace ServerHistory

/-- First and last second that a tier has data for. -/
def coverage (h : ServerHistory) (step : ℕ) : Option (ℤ × ℤ) :=
  match ((h.rows step).map (·.1)).min?, ((h.rows step).map (·.1)).max? with
  | some first, some last => some (first * step, (last + 1) * step)
  | _, _ => none

/-- The tiers to choose from; a retired one only serves ranges that end before it stopped. -/
def candidates (h : ServerHistory) (stop : ℤ) : List (ℕ × Option ℤ) :=
  (h.tiers.filter fun tier => !tier.retired || (h.coverage tier.step).any (stop ≤ ·.2)).map fun tier =>
    (tier.step, (h.coverage tier.step).map (·.1))

def chosenTier (h : ServerHistory) (start stop : ℤ) (points : ℕ) : Option (ℕ × Option ℤ) :=
  chooseTier (h.candidates stop) start ((stop - start).tdiv points)

/-- The point of a bucket, as SQL computes it. -/
def index (step : ℕ) (start stop : ℤ) (points : ℕ) (b : ℤ) : ℤ :=
  min (points - 1) (max 0 (((b * step - start) * points).tdiv (stop - start)))

/-- The `WHERE` of the query: `b >= b0 AND b < b1`. -/
def isSelected (step : ℕ) (start stop : ℤ) (b : ℤ) : Bool :=
  start / step ≤ b && b < (stop + step - 1) / step

def group (h : ServerHistory) (step : ℕ) (start stop : ℤ) (points i : ℕ) : List (ℤ × Bucket) :=
  (h.rows step).filter fun r => isSelected step start stop r.1 && index step start stop points r.1 = i

def joinSpan (spans : List Span) (span : Span) : List Span :=
  let span := { span with since := (spans.getLast?.map fun last => max span.since last.untilTs).getD span.since }
  if span.since < span.untilTs then spans ++ [span] else spans

def readTier (h : ServerHistory) (start stop : ℤ) (points : ℕ) (tier : ℕ × Option ℤ) : RawHistory where
  step := tier.1
  coveredFrom := tier.2
  rows i :=
    match h.group tier.1 start stop points i with
    | [] => none
    | rows => some (rows.map (·.2.toPointRow)).sum
  disks i := ((h.group tier.1 start stop points i).maxOn? (·.1)).map (·.2.disk)
  diskBefore := (((h.rows tier.1).filter (·.1 < start / tier.1)).maxOn? (·.1)).map (·.2.disk)
  limits := ((h.limits.filter (·.1 ≤ start)).maxOn? (·.1)).toList ++
    h.limits.filter fun l => start < l.1 && l.1 < stop
  spans := ((h.spans.filter fun span => start < span.untilTs && span.since < stop).mergeSort (·.since ≤ ·.since)).foldl
    joinSpan []

def query (h : ServerHistory) (start stop : ℤ) (points : ℕ) : Option RawHistory :=
  (h.chosenTier start stop points).map (h.readTier start stop points)

end ServerHistory

/-! ## Points -/

structure HistoryStates where
  offline : ℕ
  starting : ℕ
  stopping : ℕ
  running : ℕ

def HistoryStates.add (states : HistoryStates) (state : ServerState) (seconds : ℕ) : HistoryStates :=
  match state with
  | .offline => { states with offline := states.offline + seconds }
  | .starting => { states with starting := states.starting + seconds }
  | .stopping => { states with stopping := states.stopping + seconds }
  | .running => { states with running := states.running + seconds }

structure HistoryPoint where
  start : ℤ
  states : Option HistoryStates
  sampledSeconds : Option ℕ
  cpuAverage : Option ℚ
  cpuMax : Option ℚ
  memoryAverageBytes : Option ℕ
  memoryMaxBytes : Option ℕ
  diskBytes : Option ℕ
  networkRxBytes : Option ℕ
  networkTxBytes : Option ℕ

structure HistoryLimits where
  since : ℤ
  memoryLimitBytes : ℕ
  cpuLimit : ℕ

structure History where
  resolution : ℕ
  points : List HistoryPoint
  limits : List HistoryLimits

namespace History

def pointBounds (start stop : ℤ) (points i : ℕ) : ℤ × ℤ :=
  let width := stop - start
  (start + (width * i).tdiv points, start + (width * (i + 1)).tdiv points)

/-- The point of a second in `point_states`. -/
def stateIndex (start stop : ℤ) (points : ℕ) (t : ℤ) : ℕ :=
  min (((t - start) * points).tdiv (stop - start)).toNat (points - 1)

def addSpan (start stop : ℤ) (points i : ℕ) (states : Option HistoryStates) (span : Span) : Option HistoryStates :=
  let since := max span.since start
  let untilTs := min span.untilTs stop
  if untilTs ≤ since then states
  else
    let first := stateIndex start stop points since - 1
    let last := min (stateIndex start stop points (untilTs - 1) + 1) (points - 1)
    let bounds := pointBounds start stop points i
    let overlap := min untilTs bounds.2 - max since bounds.1
    if first ≤ i ∧ i ≤ last ∧ 0 < overlap then
      some ((states.getD ⟨0, 0, 0, 0⟩).add span.state overlap.toNat)
    else states

def pointStates (spans : List Span) (start stop : ℤ) (points i : ℕ) : Option HistoryStates :=
  spans.foldl (addSpan start stop points i) none

/-- One point, and the disk usage at its end. -/
def assemblePoint (raw : RawHistory) (start stop : ℤ) (points i : ℕ) (disk : Option ℕ) : HistoryPoint × Option ℕ :=
  let bounds := pointBounds start stop points i
  let states := pointStates raw.spans start stop points i
  if raw.coveredFrom.all (bounds.2 ≤ ·) then
    (⟨bounds.1, states, none, none, none, none, none, none, none, none⟩, disk)
  else
    let disk := (raw.disks i).or disk
    let row := (raw.rows i).getD 0
    let ifRunning {α : Type} (x : α) : Option α := if 0 < row.n then some x else none
    (⟨bounds.1, states, some row.n, ifRunning ((row.cpuSum : ℚ) / row.n / 100), ifRunning ((row.cpuMax : ℚ) / 100),
      ifRunning (row.memSum / row.n * 1024), ifRunning (row.memMax * 1024), disk.map (· * 1024), some row.rx,
      some row.tx⟩, disk)

/-- The points from the `i`-th on; the disk usage is carried over points without rows. -/
def assemblePoints (raw : RawHistory) (start stop : ℤ) (points : ℕ) : ℕ → ℕ → Option ℕ → List HistoryPoint
  | 0, _, _ => []
  | k + 1, i, disk =>
    let (point, disk) := assemblePoint raw start stop points i disk
    point :: assemblePoints raw start stop points k (i + 1) disk

def assemble (raw : RawHistory) (start stop : ℤ) (points : ℕ) : History where
  resolution := raw.step
  points := assemblePoints raw start stop points points 0 raw.diskBefore
  limits := raw.limits.map fun (at', limits) => ⟨at', limits.memory * 1024, limits.cpu⟩

end History

open History (pointBounds pointStates)

/-! ## The point of a bucket -/

section Index

variable {start stop : ℤ} {points i j : ℕ} {step : ℕ} {b t : ℤ}

/-- The bucket has seconds in the range. -/
def Overlaps (step : ℕ) (start stop b : ℤ) : Prop := start < (b + 1) * step ∧ b * step < stop

def Contains (start stop : ℤ) (points i : ℕ) (t : ℤ) : Prop :=
  (pointBounds start stop points i).1 ≤ t ∧ t < (pointBounds start stop points i).2

/-- No point ends inside the second. -/
def Unsplit (start stop : ℤ) (points : ℕ) (t : ℤ) : Prop :=
  (t - start) * points % (stop - start) + points ≤ stop - start

theorem isSelected_iff (hstep : 0 < step) : ServerHistory.isSelected step start stop b = true ↔
    Overlaps step start stop b := by
  have hpos : (0 : ℤ) < step := by exact_mod_cast hstep
  simp only [ServerHistory.isSelected, Bool.and_eq_true, decide_eq_true_eq, Overlaps]
  refine and_congr ?_ ?_
  · rw [← Int.lt_add_one_iff, Int.ediv_lt_iff_lt_mul hpos]
  · rw [Int.lt_iff_add_one_le, Int.le_ediv_iff_mul_le hpos, add_mul]
    omega

variable (hrange : start < stop)
include hrange

theorem pointBounds_eq (points i : ℕ) : pointBounds start stop points i =
    (start + (stop - start) * i / points, start + (stop - start) * (i + 1) / points) := by
  unfold pointBounds
  dsimp only
  rw [Int.tdiv_eq_ediv_of_nonneg (by positivity), Int.tdiv_eq_ediv_of_nonneg (by positivity)]

variable (hpoints : 0 < points)
include hpoints

theorem index_eq (h : Overlaps step start stop b) :
    ServerHistory.index step start stop points b = (max start (b * step) - start) * points / (stop - start) := by
  have hwidth : 0 < stop - start := by omega
  unfold ServerHistory.index
  rcases le_total start (b * step) with hle | hle
  · have hnonneg : 0 ≤ (b * step - start) * points := mul_nonneg (by omega) (by positivity)
    have hlt : (b * step - start) * points / (stop - start) < points := by
      rw [Int.ediv_lt_iff_lt_mul hwidth, mul_comm (points : ℤ)]
      have := h.2
      exact mul_lt_mul_of_pos_right (by omega) (by exact_mod_cast hpoints)
    have hge : 0 ≤ (b * step - start) * points / (stop - start) := Int.ediv_nonneg hnonneg hwidth.le
    rw [Int.tdiv_eq_ediv_of_nonneg hnonneg, max_eq_right hle, max_eq_right hge, min_eq_right (by omega)]
  · have hnonpos : ((b * step - start) * points).tdiv (stop - start) ≤ 0 := by
      rw [← neg_sub start, neg_mul, Int.neg_tdiv]
      have := Int.tdiv_nonneg (mul_nonneg (by omega : 0 ≤ start - b * step) (by positivity : (0 : ℤ) ≤ points)) hwidth.le
      omega
    rw [max_eq_left hle, max_eq_left hnonpos, sub_self, zero_mul, Int.zero_ediv, min_eq_right (by omega)]

theorem contains_iff (i : ℕ) (hi : i = (t - start) * points / (stop - start)) :
    Contains start stop points i t ↔ Unsplit start stop points t := by
  have hwidth : 0 < stop - start := by omega
  have hpos : (0 : ℤ) < points := by exact_mod_cast hpoints
  have hsplit := Int.emod_add_mul_ediv ((t - start) * points) (stop - start)
  have hmod := Int.emod_nonneg ((t - start) * points) hwidth.ne'
  rw [← hi] at hsplit
  rw [Contains, pointBounds_eq hrange, Unsplit]
  have hlower : start + (stop - start) * i / points ≤ t := by
    have : (stop - start) * i / points ≤ t - start := by
      rw [← Int.lt_add_one_iff, Int.ediv_lt_iff_lt_mul hpos]
      linarith
    omega
  have hupper : t < start + (stop - start) * (i + 1) / points ↔
      (t - start + 1) * points ≤ (stop - start) * (i + 1) := by
    rw [← Int.le_ediv_iff_mul_le hpos]
    omega
  rw [hupper]
  refine ⟨fun h => ?_, fun h => ⟨hlower, ?_⟩⟩
  · linarith [h.2]
  · linarith

theorem pointBounds_mono (hij : i < j) :
    (pointBounds start stop points i).2 ≤ (pointBounds start stop points j).1 := by
  rw [pointBounds_eq hrange, pointBounds_eq hrange]
  have hle : (stop - start) * (i + 1) ≤ (stop - start) * j :=
    mul_le_mul_of_nonneg_left (by exact_mod_cast hij) (by omega)
  have := Int.ediv_le_ediv (by exact_mod_cast hpoints : (0 : ℤ) < points) hle
  omega

theorem Contains.unique (hi : Contains start stop points i t) (hj : Contains start stop points j t) : i = j := by
  rcases lt_trichotomy i j with hlt | heq | hlt
  · have := pointBounds_mono hrange hpoints hlt
    exact absurd (hi.2.trans_le this) (not_lt.mpr hj.1)
  · exact heq
  · have := pointBounds_mono hrange hpoints hlt
    exact absurd (hj.2.trans_le this) (not_lt.mpr hi.1)

end Index

/-! ## What is shown -/

instance (step : ℕ) (start stop b : ℤ) : Decidable (Overlaps step start stop b) :=
  inferInstanceAs (Decidable (_ ∧ _))

instance (start stop : ℤ) (points i : ℕ) (t : ℤ) : Decidable (Contains start stop points i t) :=
  inferInstanceAs (Decidable (_ ∧ _))

/-- The rows that begin inside the interval of a point. -/
def beginning (h : ServerHistory) (step : ℕ) (start stop : ℤ) (points i : ℕ) : List (ℤ × Bucket) :=
  (h.rows step).filter fun r =>
    Overlaps step start stop r.1 ∧ Contains start stop points i (max start (r.1 * step))

/-- Every row in the range is counted in the one point that shows its first second, and the figures of each point
are the sums over the rows that begin in its interval. -/
structure BucketsShown (h : ServerHistory) (step : ℕ) (start stop : ℤ) (points : ℕ) (history : History) : Prop where
  counted : ∀ r ∈ h.rows step, Overlaps step start stop r.1 → ∃ i < points,
    (∀ j, r ∈ h.group step start stop points j ↔ j = i) ∧ Contains start stop points i (max start (r.1 * step))
  sums : ∀ i < points, ∃ point, history.points[i]? = some point ∧
    point.start = (pointBounds start stop points i).1 ∧
    point.sampledSeconds.getD 0 = ((beginning h step start stop points i).map (·.2.n)).sum ∧
    point.networkRxBytes.getD 0 = ((beginning h step start stop points i).map (·.2.rx)).sum ∧
    point.networkTxBytes.getD 0 = ((beginning h step start stop points i).map (·.2.tx)).sum

section Shown

variable {h : ServerHistory} {start stop : ℤ} {points step : ℕ} {tier : ℕ × Option ℤ} {r : ℤ × Bucket}

theorem chooseTier_mem {candidates : List (ℕ × Option ℤ)} {width : ℤ}
    (hchosen : chooseTier candidates start width = some tier) : tier ∈ candidates := by
  rcases Option.or_eq_some_iff.mp hchosen with hmax | ⟨_, hrest⟩
  · exact (mem_filter.mp (mem_filter.mp (List.maxOn?_mem hmax)).1).1
  rcases Option.or_eq_some_iff.mp hrest with hmin | ⟨_, hfinest⟩
  · exact (mem_filter.mp (mem_filter.mp (List.minOn?_mem hmin)).1).1
  · exact List.minOn?_mem hfinest

theorem chosenTier_spec (hchosen : h.chosenTier start stop points = some tier) :
    0 < tier.1 ∧ tier.2 = (h.coverage tier.1).map (·.1) := by
  obtain ⟨stored, _, rfl⟩ := mem_map.mp (chooseTier_mem hchosen)
  exact ⟨stored.pos, rfl⟩

theorem coverage_le {first last : ℤ} (hcoverage : h.coverage step = some (first, last))
    (hr : r ∈ h.rows step) : first ≤ r.1 * step := by
  unfold ServerHistory.coverage at hcoverage
  split at hcoverage
  next b _ hmin _ =>
    cases hcoverage
    have hle := (min?_eq_some_iff.mp hmin).2 r.1 (mem_map_of_mem hr)
    exact mul_le_mul_of_nonneg_right hle (by positivity)
  · cases hcoverage

theorem rows_eq_nil_of_coverage (hcoverage : h.coverage step = none) : h.rows step = [] := by
  unfold ServerHistory.coverage at hcoverage
  split at hcoverage
  · cases hcoverage
  next hnone =>
    by_contra hne
    obtain ⟨first, hfirst⟩ := Option.isSome_iff_exists.mp (isSome_min?_of_ne_nil (l := (h.rows step).map (·.1)) (by simpa))
    obtain ⟨last, hlast⟩ := Option.isSome_iff_exists.mp (isSome_max?_of_ne_nil (l := (h.rows step).map (·.1)) (by simpa))
    exact hnone _ _ hfirst hlast

theorem mem_group (hstep : 0 < step) {i : ℕ} : r ∈ h.group step start stop points i ↔
    r ∈ h.rows step ∧ Overlaps step start stop r.1 ∧ ServerHistory.index step start stop points r.1 = i := by
  rw [ServerHistory.group, mem_filter, Bool.and_eq_true, isSelected_iff hstep, decide_eq_true_eq]

/-- A row in the range is in one group, and that group is the point of its first second exactly if no point ends
inside that second. -/
theorem contains_index_iff (hrange : start < stop) (hpoints : 0 < points) (hstep : 0 < step)
    (hr : r ∈ h.rows step) (hoverlaps : Overlaps step start stop r.1) :
    ∃ i < points, (∀ j, r ∈ h.group step start stop points j ↔ j = i) ∧
      (Contains start stop points i (max start (r.1 * step)) ↔ Unsplit start stop points (max start (r.1 * step))) := by
  have hindex := index_eq hrange hpoints hoverlaps
  have hwidth : 0 < stop - start := by omega
  have hlt : (max start (r.1 * step) - start) * points / (stop - start) < points := by
    rw [Int.ediv_lt_iff_lt_mul hwidth, mul_comm (points : ℤ)]
    refine mul_lt_mul_of_pos_right ?_ (by exact_mod_cast hpoints)
    have := max_lt hrange hoverlaps.2
    omega
  have hge : 0 ≤ (max start (r.1 * step) - start) * points / (stop - start) := by
    refine Int.ediv_nonneg (mul_nonneg ?_ (by positivity)) hwidth.le
    omega
  obtain ⟨i, hi⟩ := Int.eq_ofNat_of_zero_le hge
  refine ⟨i, by omega, fun j => ?_, contains_iff hrange hpoints i hi.symm⟩
  rw [mem_group hstep, hindex, hi]
  exact ⟨fun h => by exact_mod_cast h.2.2.symm, fun h => ⟨hr, hoverlaps, by rw [h]⟩⟩

theorem group_eq_beginning (hrange : start < stop) (hpoints : 0 < points) (hstep : 0 < step)
    (hunsplit : ∀ r ∈ h.rows step, Overlaps step start stop r.1 → Unsplit start stop points (max start (r.1 * step)))
    (i : ℕ) :
    h.group step start stop points i = beginning h step start stop points i := by
  refine filter_congr fun r hr => ?_
  rw [Bool.eq_iff_iff, Bool.and_eq_true, isSelected_iff hstep, decide_eq_true_eq, decide_eq_true_eq]
  refine and_congr_right fun hoverlaps => ?_
  obtain ⟨k, _, hgroup, hcontains⟩ := contains_index_iff hrange hpoints hstep hr hoverlaps
  have hk := hcontains.mpr (hunsplit r hr hoverlaps)
  have hindex : ServerHistory.index step start stop points r.1 = i ↔ i = k := by
    rw [← hgroup i, mem_group hstep]
    exact ⟨fun h => ⟨hr, hoverlaps, h⟩, fun h => h.2.2⟩
  rw [hindex]
  exact ⟨fun h => h ▸ hk, fun h => h.unique hrange hpoints hk⟩

/-! ### Sums of points -/

theorem sum_field (f : PointRow → ℕ) (hzero : f 0 = 0) (hadd : ∀ r r', f (r + r') = f r + f r')
    (rows : List (ℤ × Bucket)) :
    f (rows.map (·.2.toPointRow)).sum = (rows.map fun r => f r.2.toPointRow).sum := by
  induction rows with
  | nil => exact hzero
  | cons r rows ih => rw [map_cons, sum_cons, hadd, ih, map_cons, sum_cons]

theorem readTier_rows (h : ServerHistory) (start stop : ℤ) (points : ℕ) (tier : ℕ × Option ℤ) (i : ℕ) :
    ((h.readTier start stop points tier).rows i).getD 0 =
      ((h.group tier.1 start stop points i).map (·.2.toPointRow)).sum := by
  simp only [ServerHistory.readTier]
  cases h.group tier.1 start stop points i <;> rfl

theorem getElem?_assemblePoints (raw : RawHistory) (start stop : ℤ) (points : ℕ) {k j : ℕ} (hj : j < k) (i : ℕ)
    (disk : Option ℕ) : ∃ disk', (History.assemblePoints raw start stop points k i disk)[j]? =
      some (History.assemblePoint raw start stop points (i + j) disk').1 := by
  induction k generalizing i j disk with
  | zero => omega
  | succ k ih =>
    cases j with
    | zero => exact ⟨disk, rfl⟩
    | succ j =>
      obtain ⟨disk', hdisk'⟩ := ih (by omega : j < k) (i + 1) (History.assemblePoint raw start stop points i disk).2
      exact ⟨disk', by rw [show i + (j + 1) = i + 1 + j by omega]; exact hdisk'⟩

theorem start_assemblePoint (raw : RawHistory) (start stop : ℤ) (points i : ℕ) (disk : Option ℕ) :
    (History.assemblePoint raw start stop points i disk).1.start = (pointBounds start stop points i).1 := by
  unfold History.assemblePoint
  dsimp only
  split_ifs <;> rfl

theorem figures_assemblePoint (hchosen : h.chosenTier start stop points = some tier) {i : ℕ}
    (hgroup : h.group tier.1 start stop points i = beginning h tier.1 start stop points i) (disk : Option ℕ) :
    let point := (History.assemblePoint (h.readTier start stop points tier) start stop points i disk).1
    point.sampledSeconds.getD 0 = ((beginning h tier.1 start stop points i).map (·.2.n)).sum ∧
      point.networkRxBytes.getD 0 = ((beginning h tier.1 start stop points i).map (·.2.rx)).sum ∧
      point.networkTxBytes.getD 0 = ((beginning h tier.1 start stop points i).map (·.2.tx)).sum := by
  obtain ⟨hstep, hfrom⟩ := chosenTier_spec hchosen
  intro point
  by_cases huncovered : tier.2.all ((pointBounds start stop points i).2 ≤ ·)
  · -- no row begins before the data of the tier do
    have hnil : beginning h tier.1 start stop points i = [] := by
      rw [eq_nil_iff_forall_not_mem]
      intro r hr
      obtain ⟨hr, hbegins⟩ := mem_filter.mp hr
      obtain ⟨_, _, hlt⟩ := of_decide_eq_true hbegins
      cases hcoverage : h.coverage tier.1 with
      | none => rw [rows_eq_nil_of_coverage hcoverage] at hr; cases hr
      | some c =>
        have hle := coverage_le (show h.coverage tier.1 = some (c.1, c.2) from hcoverage) hr
        rw [hfrom, hcoverage, Option.map_some, Option.all_some, decide_eq_true_eq] at huncovered
        omega
    have hpoint : point.sampledSeconds = none ∧ point.networkRxBytes = none ∧ point.networkTxBytes = none := by
      simp only [point, History.assemblePoint, ServerHistory.readTier, huncovered, if_true, and_self]
    rw [hpoint.1, hpoint.2.1, hpoint.2.2, hnil]
    exact ⟨rfl, rfl, rfl⟩
  · have hrow := readTier_rows h start stop points tier i
    rw [hgroup] at hrow
    have hpoint : point.sampledSeconds = some (((h.readTier start stop points tier).rows i).getD 0).n ∧
        point.networkRxBytes = some (((h.readTier start stop points tier).rows i).getD 0).rx ∧
        point.networkTxBytes = some (((h.readTier start stop points tier).rows i).getD 0).tx := by
      have hcovered : ¬((h.readTier start stop points tier).coveredFrom.all
          ((pointBounds start stop points i).2 ≤ ·)) := huncovered
      simp only [point, History.assemblePoint, hcovered, if_false, Bool.false_eq_true, and_self]
    rw [hpoint.1, hpoint.2.1, hpoint.2.2, hrow]
    exact ⟨sum_field (·.n) rfl (fun _ _ => rfl) _, sum_field (·.rx) rfl (fun _ _ => rfl) _,
      sum_field (·.tx) rfl (fun _ _ => rfl) _⟩

end Shown

/-- **Every recorded second is shown in the right point** exactly if no point ends inside the second with which a
row of the chosen tier begins. -/
theorem buckets_shown_iff (h : ServerHistory) {start stop : ℤ} {points : ℕ} {tier : ℕ × Option ℤ}
    (hrange : start < stop) (hpoints : 0 < points) (hchosen : h.chosenTier start stop points = some tier) :
    (∃ raw, h.query start stop points = some raw ∧
      BucketsShown h tier.1 start stop points (History.assemble raw start stop points)) ↔
      ∀ r ∈ h.rows tier.1, Overlaps tier.1 start stop r.1 →
        Unsplit start stop points (max start (r.1 * tier.1)) := by
  obtain ⟨hstep, _⟩ := chosenTier_spec hchosen
  constructor
  · rintro ⟨_, _, hshown⟩ r hr hoverlaps
    obtain ⟨i, _, hgroup, hcontains⟩ := hshown.counted r hr hoverlaps
    obtain ⟨k, _, hgroup', hiff⟩ := contains_index_iff hrange hpoints hstep hr hoverlaps
    obtain rfl : i = k := (hgroup' i).mp ((hgroup i).mpr rfl)
    exact hiff.mp hcontains
  · intro hunsplit
    have hquery : h.query start stop points = some (h.readTier start stop points tier) := by
      rw [ServerHistory.query, hchosen, Option.map_some]
    refine ⟨_, hquery, fun r hr hoverlaps => ?_, fun i hi => ?_⟩
    · obtain ⟨i, hi, hgroup, hiff⟩ := contains_index_iff hrange hpoints hstep hr hoverlaps
      exact ⟨i, hi, hgroup, hiff.mpr (hunsplit r hr hoverlaps)⟩
    · obtain ⟨disk, hpoint⟩ := getElem?_assemblePoints (h.readTier start stop points tier) start stop points hi 0
        (h.readTier start stop points tier).diskBefore
      rw [zero_add] at hpoint
      have hgroup := group_eq_beginning hrange hpoints hstep hunsplit i
      exact ⟨_, hpoint, start_assemblePoint _ _ _ _ _ _, figures_assemblePoint hchosen hgroup disk⟩

/-- A running second and its traffic. -/
def secondOf (rx : ℕ) : Bucket := ⟨⟨1, 100, 100, 8, 8, rx, 0⟩, 4⟩

/-- A server that ran for one second, recorded second by second. -/
def oneSecond (b : ℤ) : ServerHistory where
  tiers := [⟨1, 3600, false, by decide⟩]
  rows := fun step => if step = 1 then [(b, secondOf 7)] else []
  limits := []
  spans := []

/-- The third of ten seconds, in five points. -/
theorem buckets_shown_dividing :
    ∃ raw, (oneSecond 3).query 0 10 5 = some raw ∧
      BucketsShown (oneSecond 3) 1 0 10 5 (History.assemble raw 0 10 5) := by
  have hchosen : (oneSecond 3).chosenTier 0 10 5 = some (1, some 3) := by decide +kernel
  refine (buckets_shown_iff (oneSecond 3) (by decide) (by decide) hchosen).mpr fun r hr _ => ?_
  obtain rfl := mem_singleton.mp (show r ∈ [(3, secondOf 7)] from hr)
  show (max 0 (3 * 1) - 0) * 5 % (10 - 0) + 5 ≤ 10 - 0
  decide

/-- The fourth of ten seconds, in three points with the bounds 0, 3, 6 and 10: it is counted in the first. -/
theorem bucket_shown_early :
    (oneSecond 3).chosenTier 0 10 3 = some (1, some 3) ∧
      ¬∃ raw, (oneSecond 3).query 0 10 3 = some raw ∧
        BucketsShown (oneSecond 3) 1 0 10 3 (History.assemble raw 0 10 3) := by
  refine ⟨by decide +kernel, fun ⟨raw, _, hshown⟩ => ?_⟩
  have hrow : (3, secondOf 7) ∈ (oneSecond 3).rows 1 := mem_singleton.mpr rfl
  have hoverlaps : Overlaps 1 0 10 3 := by decide
  obtain ⟨i, _, hgroup, hcontains⟩ := hshown.counted _ hrow hoverlaps
  obtain ⟨k, _, hgroup', hiff⟩ := contains_index_iff (by decide) (by decide : 0 < 3) (by decide) hrow hoverlaps
  obtain rfl : i = k := (hgroup' i).mp ((hgroup i).mpr rfl)
  have hunsplit : (max 0 (3 * (1 : ℤ)) - 0) * 3 % (10 - 0) + 3 ≤ 10 - 0 :=
    hiff.mp hcontains
  revert hunsplit
  decide

end Wings.ResourceHistory
