import Mathlib.Algebra.BigOperators.Intervals
import Mathlib.Data.Int.ConditionallyCompleteOrder
import Wings.ResourceHistory.Query

/-!
# Wings.ResourceHistory.Spans — the states of a server in a history

`Storage::query` cuts the stored spans until none overlaps another, and `History::point_states` adds up their
seconds by point, looking at a window of points for each span.

* **`spans_normalised`**, **`states_counted`**, **`state_lost`**
-/

namespace Wings.ResourceHistory

open Server.State (ServerState)
open History (pointBounds pointStates)

/-! ## Spans without overlaps -/

open List

def Span.Holds (span : Span) (t : ℤ) : Prop := span.since ≤ t ∧ t < span.untilTs

def Covered (spans : List Span) (t : ℤ) : Prop := ∃ span ∈ spans, span.Holds t

/-- The first span that contains the second has the state. -/
def StateAt (spans : List Span) (t : ℤ) (state : ServerState) : Prop :=
  ∃ span ∈ spans, span.Holds t ∧ span.state = state ∧ ∀ other ∈ spans, other.Holds t → span.since ≤ other.since

/-- The spans in `kept` are those of `seen`, cut where an earlier one goes on. -/
structure Joined (seen kept : List Span) : Prop where
  chain : kept.Pairwise fun a b => a.untilTs ≤ b.since
  proper : ∀ span ∈ kept, span.since < span.untilTs
  covered : ∀ t, Covered kept t ↔ Covered seen t
  state : ∀ span ∈ kept, ∀ t, span.Holds t → StateAt seen t span.state
  -- from the last beginning on, there is no gap before the last end
  gapless : ∀ last ∈ kept.getLast?, ∀ t, (∀ span ∈ seen, span.since ≤ t) → t < last.untilTs → Covered seen t

section Join

variable {seen kept : List Span} {x : Span} {t : ℤ}

theorem covered_concat : Covered (seen ++ [x]) t ↔ Covered seen t ∨ x.Holds t := by
  simp only [Covered, mem_append, mem_singleton, or_and_right, exists_or, exists_eq_left]

theorem StateAt.concat {state : ServerState} (h : StateAt seen t state) (hsorted : ∀ span ∈ seen, span.since ≤ x.since) :
    StateAt (seen ++ [x]) t state := by
  obtain ⟨span, hspan, hholds, hstate, hfirst⟩ := h
  refine ⟨span, mem_append_left _ hspan, hholds, hstate, forall_mem_append.mpr ⟨hfirst, ?_⟩⟩
  exact forall_mem_singleton.mpr fun _ => hsorted span hspan

section

variable (h : Joined seen kept)
include h

theorem Joined.untilTs_le {last span : Span} (hlast : kept.getLast? = some last)
    (hspan : span ∈ kept) : span.untilTs ≤ last.untilTs := by
  obtain ⟨front, rfl⟩ := getLast?_eq_some_iff.mp hlast
  rcases mem_append.mp hspan with hfront | hself
  · have hle := (pairwise_append.mp h.chain).2.2 span hfront last mem_cons_self
    exact hle.trans (h.proper last (by simp)).le
  · rw [mem_singleton.mp hself]

theorem Joined.concat {since : ℤ} (hsorted : ∀ span ∈ seen, span.since ≤ x.since)
    (hsince : x.since ≤ since) (hproper : since < x.untilTs) (hafter : ∀ span ∈ kept, span.untilTs ≤ since)
    (hcut : ∀ t, x.since ≤ t → t < since → Covered seen t) :
    Joined (seen ++ [x]) (kept ++ [{ x with since }]) where
  chain := by
    refine pairwise_append.mpr ⟨h.chain, pairwise_singleton _ _, fun a ha b hb => ?_⟩
    rw [mem_singleton.mp hb]
    exact hafter a ha
  proper := forall_mem_append.mpr ⟨h.proper, forall_mem_singleton.mpr hproper⟩
  covered t := by
    rw [covered_concat, covered_concat, h.covered t]
    refine ⟨.imp_right fun hnew => ⟨hsince.trans hnew.1, hnew.2⟩, ?_⟩
    rintro (hseen | hx)
    · exact .inl hseen
    · by_cases ht : since ≤ t
      · exact .inr ⟨ht, hx.2⟩
      · exact .inl (hcut t hx.1 (not_le.mp ht))
  state := by
    refine forall_mem_append.mpr ⟨fun span hspan t ht => (h.state span hspan t ht).concat hsorted, ?_⟩
    refine forall_mem_singleton.mpr fun t ht => ⟨x, by simp, ⟨hsince.trans ht.1, ht.2⟩, rfl, ?_⟩
    refine forall_mem_append.mpr ⟨fun other hother hholds => ?_, forall_mem_singleton.mpr fun _ => le_rfl⟩
    -- what is kept of the others ends before the new span begins
    obtain ⟨span, hspan, hspan'⟩ := (h.covered t).mpr ⟨other, hother, hholds⟩
    exact absurd (hspan'.2.trans_le ((hafter span hspan).trans ht.1)) (lt_irrefl t)
  gapless last hlast t hbegun ht := by
    obtain rfl := Option.mem_some_iff.mp (getLast?_concat ▸ hlast)
    exact ⟨x, by simp, hbegun x (by simp), ht⟩

variable (hsorted : ∀ span ∈ seen, span.since ≤ x.since)
include hsorted

theorem Joined.skip (hcovered : ∀ t, x.Holds t → Covered seen t) : Joined (seen ++ [x]) kept where
  chain := h.chain
  proper := h.proper
  covered t := by
    rw [covered_concat, h.covered t]
    exact ⟨.inl, fun hor => hor.elim id (hcovered t)⟩
  state span hspan t ht := (h.state span hspan t ht).concat hsorted
  gapless last hlast t hbegun ht :=
    covered_concat.mpr (.inl (h.gapless last hlast t (fun span hspan => hbegun span (mem_append_left _ hspan)) ht))

theorem joined_joinSpan :
    Joined (seen ++ [x]) (ServerHistory.joinSpan kept x) := by
  unfold ServerHistory.joinSpan
  cases hlast : kept.getLast? with
  | none =>
    obtain rfl := getLast?_eq_none_iff.mp hlast
    simp only [Option.map_none, Option.getD_none]
    split_ifs with hproper
    · exact h.concat hsorted le_rfl hproper nofun fun t hle hlt => absurd hlt (not_lt.mpr hle)
    · exact h.skip hsorted fun t ht => absurd (ht.1.trans_lt ht.2) hproper
  | some last =>
    have hgap : ∀ t, x.since ≤ t → t < last.untilTs → Covered seen t := fun t hle =>
      h.gapless last hlast t fun span hspan => (hsorted span hspan).trans hle
    simp only [Option.map_some, Option.getD_some]
    split_ifs with hproper
    · refine h.concat hsorted (le_max_left _ _) hproper (fun span hspan => ?_) fun t hle hlt => ?_
      · exact (h.untilTs_le hlast hspan).trans (le_max_right _ _)
      · exact hgap t hle (by omega)
    · exact h.skip hsorted fun t ht => hgap t ht.1 (by obtain ⟨hle, hlt⟩ := ht; omega)

end

theorem joined_foldl {spans : List Span} (hsorted : spans.Pairwise fun a b => a.since ≤ b.since) :
    Joined spans (spans.foldl ServerHistory.joinSpan []) := by
  induction spans using reverseRecOn with
  | nil => exact ⟨.nil, nofun, fun _ => .rfl, nofun, nofun⟩
  | append_singleton spans x ih =>
    obtain ⟨hspans, _, hx⟩ := pairwise_append.mp hsorted
    rw [foldl_append]
    exact joined_joinSpan (ih hspans) fun span hspan => hx span hspan x mem_cons_self

end Join

/-- **The states of a history have no overlaps.**  What a query returns is sorted and pairwise disjoint, covers the
seconds of the range that the stored spans cover, and gives each of them the state of the stored span that begins
first. -/
theorem spans_normalised (h : ServerHistory) {start stop : ℤ} {points : ℕ} {raw : RawHistory}
    (hquery : h.query start stop points = some raw) :
    (raw.spans.Pairwise fun a b => a.untilTs ≤ b.since) ∧ (∀ span ∈ raw.spans, span.since < span.untilTs) ∧
      ∀ t, start ≤ t → t < stop → (Covered raw.spans t ↔ Covered h.spans t) ∧
        ∀ span ∈ raw.spans, span.Holds t → StateAt h.spans t span.state := by
  obtain ⟨tier, _, rfl⟩ := Option.map_eq_some_iff.mp hquery
  set read := (h.spans.filter fun span => start < span.untilTs && span.since < stop).mergeSort (·.since ≤ ·.since)
    with hread
  have hjoined : Joined read (read.foldl ServerHistory.joinSpan []) := by
    refine joined_foldl ((pairwise_mergeSort ?_ ?_ _).imp of_decide_eq_true)
    · exact fun a b c hab hbc => decide_eq_true ((of_decide_eq_true hab).trans (of_decide_eq_true hbc))
    · exact fun a b => by simpa using le_total a.since b.since
  refine ⟨hjoined.chain, hjoined.proper, fun t hstart hstop => ?_⟩
  have hmem : ∀ span : Span, span.Holds t → (span ∈ read ↔ span ∈ h.spans) := fun span ht => by
    rw [mem_mergeSort, mem_filter]
    refine and_iff_left_of_imp fun _ => ?_
    rw [Bool.and_eq_true, decide_eq_true_eq, decide_eq_true_eq]
    exact ⟨hstart.trans_lt ht.2, ht.1.trans_lt hstop⟩
  refine ⟨(hjoined.covered t).trans (exists_congr fun span => and_congr_left (hmem span)), fun span hspan ht => ?_⟩
  obtain ⟨stored, hstored, hholds, hstate, hfirst⟩ := hjoined.state span hspan t ht
  exact ⟨stored, (hmem stored hholds).mp hstored, hholds, hstate, fun other hother hother' =>
    hfirst other ((hmem other hother').mpr hother) hother'⟩

/-- A span inside another one, and one that begins inside and ends later. -/
def twoNodes : ServerHistory := { oneSecond 3 with spans := [⟨0, 10, .running⟩, ⟨4, 6, .offline⟩, ⟨8, 12, .offline⟩] }

theorem spans_normalised_two_nodes :
    ∃ raw, twoNodes.query 0 20 5 = some raw ∧ ∀ span ∈ raw.spans, span.since < span.untilTs := by
  have hchosen : twoNodes.chosenTier 0 20 5 = some (1, some 3) := by decide +kernel
  have hquery : twoNodes.query 0 20 5 = some (twoNodes.readTier 0 20 5 (1, some 3)) := by
    rw [ServerHistory.query, hchosen, Option.map_some]
  exact ⟨_, hquery, (spans_normalised twoNodes hquery).2.1⟩

/-! ## Seconds by point -/

/-- The seconds in a state; a point that no span overlaps has none. -/
def secondsIn (states : Option HistoryStates) (state : ServerState) : ℕ :=
  let states := states.getD ⟨0, 0, 0, 0⟩
  match state with
  | .offline => states.offline
  | .starting => states.starting
  | .stopping => states.stopping
  | .running => states.running

def totalSeconds (states : Option HistoryStates) : ℕ :=
  secondsIn states .offline + secondsIn states .starting + secondsIn states .stopping + secondsIn states .running

/-- The seconds of a span in an interval. -/
def Span.overlap (span : Span) (bounds : ℤ × ℤ) : ℕ := (min span.untilTs bounds.2 - max span.since bounds.1).toNat

section Points

variable {start stop : ℤ} {points i : ℕ}

theorem pointBounds_zero (start stop : ℤ) (points : ℕ) : (pointBounds start stop points 0).1 = start := by
  simp [pointBounds]

theorem pointBounds_last (start stop : ℤ) (hpoints : 0 < points) :
    (pointBounds start stop points points).1 = stop := by
  have hne : (points : ℤ) ≠ 0 := by exact_mod_cast hpoints.ne'
  simp [pointBounds, Int.mul_tdiv_cancel _ hne]

theorem pointBounds_succ (start stop : ℤ) (points i : ℕ) :
    (pointBounds start stop points i).2 = (pointBounds start stop points (i + 1)).1 := by
  simp [pointBounds]

theorem pointBounds_monotone (hrange : start < stop) (hpoints : 0 < points) :
    Monotone fun i => (pointBounds start stop points i).1 := by
  refine monotone_nat_of_le_succ fun i => ?_
  rw [pointBounds_eq hrange, pointBounds_eq hrange]
  refine Int.add_le_add_left (Int.ediv_le_ediv (by exact_mod_cast hpoints) ?_) _
  exact mul_le_mul_of_nonneg_left (by omega) (by omega)

/-- A span that ends `u` seconds into the range is counted up to its end: the point of the end is at most one
behind that of the second before it. -/
def EndSeen (width : ℤ) (points : ℕ) (u : ℤ) : Prop := u * points ≤ ((u - 1) * points / width + 2) * width

/-- The seconds of a span that are added to a point: those in its bounds, if it is in the window of the span. -/
def Span.counted (span : Span) (start stop : ℤ) (points i : ℕ) : ℕ :=
  if History.stateIndex start stop points (max span.since start) - 1 ≤ i ∧
      i ≤ min (History.stateIndex start stop points (min span.untilTs stop - 1) + 1) (points - 1) then
    span.overlap (pointBounds start stop points i)
  else 0

theorem Span.counted_le (span : Span) (start stop : ℤ) (points i : ℕ) :
    span.counted start stop points i ≤ span.overlap (pointBounds start stop points i) := by
  unfold Span.counted
  split_ifs
  · exact le_rfl
  · exact Nat.zero_le _

theorem stateIndex_eq {t : ℤ} (ht : start ≤ t) :
    History.stateIndex start stop points t = min ((t - start) * points / (stop - start)).toNat (points - 1) := by
  have hpos : (0 : ℤ) ≤ points := points.cast_nonneg
  rw [History.stateIndex, Int.tdiv_eq_ediv_of_nonneg (mul_nonneg (by omega) hpos)]

section Counted

variable (hrange : start < stop) (hpoints : 0 < points)
include hrange hpoints

theorem pointBounds_inside (hi : i < points) :
    start ≤ (pointBounds start stop points i).1 ∧ (pointBounds start stop points i).2 ≤ stop := by
  have hmono := pointBounds_monotone hrange hpoints
  exact ⟨(pointBounds_zero start stop points).symm.trans_le (hmono i.zero_le),
    (hmono hi).trans_eq (pointBounds_last start stop hpoints)⟩

/-- The points that a span overlaps are in its window, if it is counted up to its end. -/
theorem Span.counted_eq (span : Span) (hi : i < points)
    (hend : max span.since start < min span.untilTs stop → EndSeen (stop - start) points (min span.untilTs stop - start)) :
    span.counted start stop points i = span.overlap (pointBounds start stop points i) := by
  unfold Span.counted
  by_cases hzero : span.overlap (pointBounds start stop points i) = 0
  · rw [hzero, ite_self]
  obtain ⟨hlower, hupper⟩ := pointBounds_inside hrange hpoints hi
  rw [if_pos]
  unfold Span.overlap at hzero
  specialize hend (by omega)
  rw [stateIndex_eq (by omega), stateIndex_eq (by omega)]
  have hsince : max span.since start < (pointBounds start stop points i).2 := by omega
  have huntil : (pointBounds start stop points i).1 < min span.untilTs stop := by omega
  rw [pointBounds_eq hrange] at hsince huntil
  have hpos : (0 : ℤ) < points := by exact_mod_cast hpoints
  have hwidth : 0 < stop - start := by omega
  have hfirst : (max span.since start - start) * points / (stop - start) ≤ i := by
    rw [← Int.lt_add_one_iff, Int.ediv_lt_iff_lt_mul hwidth]
    have hle : max span.since start - start + 1 ≤ (stop - start) * (i + 1) / points := by omega
    rw [Int.le_ediv_iff_mul_le hpos] at hle
    linarith
  have hlast : (i : ℤ) < (min span.untilTs stop - 1 - start) * points / (stop - start) + 2 := by
    have hlt : (stop - start) * i / points < min span.untilTs stop - start := by omega
    rw [Int.ediv_lt_iff_lt_mul hpos, mul_comm] at hlt
    rw [EndSeen, sub_right_comm] at hend
    exact lt_of_mul_lt_mul_right (hlt.trans_le hend) hwidth.le
  omega

/-- The point with the last second of a span is outside its window, if the end is not seen. -/
theorem Span.exists_lost (span : Span) (hproper : max span.since start < min span.untilTs stop)
    (hend : ¬EndSeen (stop - start) points (min span.untilTs stop - start)) :
    ∃ i < points, span.counted start stop points i < span.overlap (pointBounds start stop points i) := by
  have hpos : (0 : ℤ) < points := by exact_mod_cast hpoints
  have hwidth : 0 < stop - start := by omega
  obtain ⟨u, hu⟩ : ∃ u, u = min span.untilTs stop - start := ⟨_, rfl⟩
  rw [← hu, EndSeen, not_le] at hend
  -- the last point that begins before the end
  obtain ⟨j, hj⟩ : ∃ j : ℕ, (j : ℤ) = (u * points - 1) / (stop - start) := by
    have hle : 0 ≤ u * points - 1 := Int.sub_nonneg_of_le (one_le_mul_of_one_le_of_one_le (by omega) hpos)
    exact ⟨_, Int.toNat_of_nonneg (Int.ediv_nonneg hle hwidth.le)⟩
  have hbelow : j * (stop - start) < u * points := by
    have hmul := Int.ediv_mul_le (u * points - 1) hwidth.ne'
    rw [← hj] at hmul
    omega
  have habove : u * points ≤ (j + 1) * (stop - start) := by
    have hlt := Int.lt_ediv_add_one_mul_self (u * points - 1) hwidth
    rw [← hj] at hlt
    omega
  have hlast : j < points := by
    have hle : u * points ≤ (stop - start) * points := mul_le_mul_of_nonneg_right (by omega) hpos.le
    have hlt := hbelow.trans_le hle
    rw [mul_comm] at hlt
    exact_mod_cast lt_of_mul_lt_mul_left hlt hwidth.le
  have hfar : (u - 1) * points / (stop - start) + 2 ≤ j := by
    rw [hj, Int.le_ediv_iff_mul_le hwidth]
    omega
  have hnonneg : 0 ≤ (u - 1) * points / (stop - start) := Int.ediv_nonneg (mul_nonneg (by omega) hpos.le) hwidth.le
  refine ⟨j, hlast, ?_⟩
  have hzero : span.counted start stop points j = 0 := by
    refine if_neg fun hin => ?_
    rw [stateIndex_eq (by omega), stateIndex_eq (by omega), show min span.untilTs stop - 1 - start = u - 1 by omega] at hin
    omega
  rw [hzero, pointBounds_eq hrange]
  have hbegin : (stop - start) * j / points < u := by
    rwa [Int.ediv_lt_iff_lt_mul hpos, mul_comm]
  have hstop : u ≤ (stop - start) * (j + 1) / points := by
    rwa [Int.le_ediv_iff_mul_le hpos, mul_comm (stop - start)]
  unfold Span.overlap
  dsimp only
  omega

theorem addSpan_eq (hi : i < points) (states : Option HistoryStates) (span : Span) :
    History.addSpan start stop points i states span =
      if span.counted start stop points i = 0 then states
      else some ((states.getD ⟨0, 0, 0, 0⟩).add span.state (span.counted start stop points i)) := by
  obtain ⟨hlower, hupper⟩ := pointBounds_inside hrange hpoints hi
  have hoverlap : (min (min span.untilTs stop) (pointBounds start stop points i).2 -
      max (max span.since start) (pointBounds start stop points i).1).toNat =
        span.overlap (pointBounds start stop points i) := by
    unfold Span.overlap
    omega
  unfold History.addSpan Span.counted
  dsimp only
  by_cases hproper : max span.since start < min span.untilTs stop
  · rw [if_neg (not_le.mpr hproper), ← hoverlap]
    split_ifs <;> first | rfl | omega
  · have hzero : span.overlap (pointBounds start stop points i) = 0 := by
      rw [← hoverlap]
      omega
    rw [if_pos (not_lt.mp hproper), hzero, ite_self, if_pos rfl]

theorem secondsIn_pointStates (hi : i < points) (spans : List Span) (state : ServerState) :
    secondsIn (pointStates spans start stop points i) state =
      (spans.map fun span => if span.state = state then span.counted start stop points i else 0).sum := by
  induction spans using reverseRecOn with
  | nil => cases state <;> rfl
  | append_singleton spans span ih =>
    rw [pointStates, foldl_append, foldl_cons, foldl_nil, ← pointStates,
      addSpan_eq hrange hpoints hi, map_append, sum_append, ← ih, map_singleton, sum_singleton]
    split
    next hzero => rw [hzero, ite_self, add_zero]
    next => cases span.state <;> cases state <;> rfl

end Counted

theorem sum_overlap {b : ℕ → ℤ} (hb : Monotone b) (span : Span) (n : ℕ) :
    ∑ i ∈ Finset.range n, span.overlap (b i, b (i + 1)) = span.overlap (b 0, b n) := by
  induction n with
  | zero =>
    unfold Span.overlap
    rw [Finset.range_zero, Finset.sum_empty]
    omega
  | succ n ih =>
    rw [Finset.sum_range_succ, ih]
    have hfirst : b 0 ≤ b n := hb n.zero_le
    have hnext : b n ≤ b (n + 1) := hb (Nat.le_add_right n 1)
    unfold Span.overlap
    omega

/-- Every end is seen with at most one point for a second. -/
theorem endSeen_of_le {width u : ℤ} (hpoints : 0 < points) (hfine : points ≤ width) : EndSeen width points u := by
  have hpos : (0 : ℤ) < points := by exact_mod_cast hpoints
  have hlt := Int.lt_ediv_add_one_mul_self ((u - 1) * points) (hpos.trans_le hfine)
  unfold EndSeen
  linarith

/-- **No second in a state is lost or counted twice** exactly if the end of every span is seen: each point has the
seconds of the spans in its bounds, and together they have those of the range. -/
theorem states_counted (spans : List Span) (hrange : start < stop) (hpoints : 0 < points) :
    ((∀ i < points, ∀ state, secondsIn (pointStates spans start stop points i) state = (spans.map fun span =>
        if span.state = state then span.overlap (pointBounds start stop points i) else 0).sum) ∧
      ∑ i ∈ Finset.range points, totalSeconds (pointStates spans start stop points i) =
        (spans.map (·.overlap (start, stop))).sum) ↔
    ∀ span ∈ spans, max span.since start < min span.untilTs stop →
      EndSeen (stop - start) points (min span.untilTs stop - start) := by
  constructor
  · rintro ⟨hcounted, -⟩ span hspan hproper
    by_contra hend
    obtain ⟨i, hi, hlost⟩ := span.exists_lost hrange hpoints hproper hend
    have hsum := hcounted i hi span.state
    rw [secondsIn_pointStates hrange hpoints hi] at hsum
    refine (sum_lt_sum _ _ (fun other _ => ?_) ⟨span, hspan, ?_⟩).ne hsum
    · split_ifs
      · exact other.counted_le start stop points i
      · exact le_rfl
    · rwa [if_pos rfl, if_pos rfl]
  · intro hend
    have hseconds : ∀ i < points, ∀ state, secondsIn (pointStates spans start stop points i) state =
        (spans.map fun span =>
          if span.state = state then span.overlap (pointBounds start stop points i) else 0).sum := by
      intro i hi state
      rw [secondsIn_pointStates hrange hpoints hi]
      exact congrArg sum (map_congr_left fun span hspan => by rw [span.counted_eq hrange hpoints hi (hend span hspan)])
    have htotal : ∀ i ∈ Finset.range points, totalSeconds (pointStates spans start stop points i) =
        (spans.map (·.overlap (pointBounds start stop points i))).sum := by
      intro i hi
      simp only [totalSeconds, hseconds i (Finset.mem_range.mp hi), ← sum_map_add]
      refine congrArg sum (map_congr_left fun span _ => ?_)
      cases span.state <;> simp
    refine ⟨hseconds, ?_⟩
    rw [Finset.sum_congr rfl htotal]
    clear hend hseconds htotal
    induction spans with
    | nil => exact Finset.sum_const_zero
    | cons span spans ih =>
      have hspan := sum_overlap (pointBounds_monotone hrange hpoints) span points
      rw [pointBounds_zero, pointBounds_last start stop hpoints] at hspan
      simp only [map_cons, sum_cons, Finset.sum_add_distrib, ih, ← hspan, ← pointBounds_succ]

/-- A span that begins in the first of three points and ends in the last. -/
theorem states_counted_seven :
    ∑ i ∈ Finset.range 3, totalSeconds (pointStates [⟨2, 9, .running⟩] 0 10 3 i) = 7 :=
  ((states_counted _ (by decide) (by decide)).mpr fun _ _ _ => endSeen_of_le (by decide) (by decide)).2

/-- The only second of the range, in three points of which the last has it: it is nowhere. -/
theorem state_lost :
    pointBounds 0 1 3 2 = (0, 1) ∧ Span.overlap ⟨0, 1, .running⟩ (0, 1) = 1 ∧
      ∀ i < 3, secondsIn (pointStates [⟨0, 1, .running⟩] 0 1 3 i) .running = 0 := by
  decide

end Points

end Wings.ResourceHistory
