import Mathlib.Tactic.Linarith

/-!
# Wings.Schedule.Cron — a cron schedule that is active every n weeks

`next_cron_occurrence` of `server/schedule/mod.rs`.  The weeks are counted from an anchor date; an occurrence in a
week that is not active is skipped by searching again from the start of the next week that is.

* `nextCronOccurrence` and its loop, which ends because every round moves on to a later week.
* **`nextCronOccurrence_least`**
-/

namespace Wings.Schedule

open Option

/-! ## Dates -/

def nanosPerHour : ℤ := 3600000000000
def nanosPerDay : ℤ := 86400000000000

/-- The range of `NaiveDate`, in days since 1970-01-01. -/
structure Calendar where
  minDate : ℤ
  maxDate : ℤ
  epoch : minDate ≤ 0 ∧ 4 ≤ maxDate
  width : maxDate - minDate < 2 ^ 31

variable {calendar : Calendar}

structure NaiveDate (calendar : Calendar) where
  days : ℤ
  le : calendar.minDate ≤ days
  ge : days ≤ calendar.maxDate

structure FixedOffset where
  offset : ℤ
  gt : -nanosPerDay < offset
  lt : offset < nanosPerDay

def FixedOffset.dateNaive (timezone : FixedOffset) (t : ℤ) : ℤ := (t + timezone.offset) / nanosPerDay

/-- The instants that `DateTime` has. -/
def Calendar.Instant (calendar : Calendar) (t : ℤ) : Prop :=
  calendar.minDate * nanosPerDay ≤ t ∧ t < (calendar.maxDate + 1) * nanosPerDay

instance (t : ℤ) : Decidable (calendar.Instant t) := inferInstanceAs (Decidable (_ ∧ _))

/-- `from_local_datetime(..).earliest()` for a time of day on a date. -/
def FixedOffset.fromLocal (timezone : FixedOffset) (calendar : Calendar) (date time : ℤ) : Option ℤ :=
  let t := date * nanosPerDay + time - timezone.offset
  if calendar.Instant t then some t else none

/-- `TimeDelta::try_weeks`, in days: the milliseconds have to fit in 64 bits. -/
def tryWeeks (weeks : ℤ) : Option ℤ :=
  if -(2 ^ 63 - 1) ≤ weeks * 604800000 ∧ weeks * 604800000 ≤ 2 ^ 63 - 1 then some (weeks * 7) else none

def NaiveDate.checkedAddSigned (date : NaiveDate calendar) (days : ℤ) : Option (NaiveDate calendar) :=
  if h : calendar.minDate ≤ date.days + days ∧ date.days + days ≤ calendar.maxDate then
    some ⟨date.days + days, h.1, h.2⟩
  else none

def defaultAnchor : NaiveDate calendar := ⟨4, calendar.epoch.1.trans (by decide), calendar.epoch.2⟩

/-! ## The schedule -/

/-- An instant after another one, or at it if that is asked for. -/
def From (start : ℤ) (inclusive : Bool) (t : ℤ) : Prop := start < t ∨ inclusive = true ∧ start = t

/-- A schedule in a time zone, and what `find_next_occurrence` answers; it gives up at a horizon. -/
structure Cron (calendar : Calendar) where
  occurs : ℤ → Prop
  horizon : ℤ
  findNextOccurrence : ℤ → Bool → Option ℤ
  instant : ∀ {t}, occurs t → calendar.Instant t
  found : ∀ {start inclusive t}, findNextOccurrence start inclusive = some t →
    IsLeast {t | occurs t ∧ From start inclusive t} t
  gaveUp : ∀ {start inclusive}, findNextOccurrence start inclusive = none →
    ∀ t, occurs t → From start inclusive t → horizon ≤ t

section Loop

variable (timezone : FixedOffset) (anchor : NaiveDate calendar)

/-- The week of an instant, counted from the anchor. -/
def week (t : ℤ) : ℤ := (timezone.dateNaive t - anchor.days) / 7

/-- The start of a week: the first full hour of its first day that exists. -/
def windowStart (week : ℤ) : Option ℤ := do
  let days ← tryWeeks week
  let date ← anchor.checkedAddSigned days
  (List.range 24).findSome? fun hour => timezone.fromLocal calendar date.days ((hour : ℕ) * nanosPerHour)

variable {timezone anchor}

theorem le_of_windowStart {w start : ℤ} (hstart : windowStart timezone anchor w = some start) :
    (anchor.days + w * 7) * nanosPerDay - timezone.offset ≤ start := by
  obtain ⟨days, hdays, hstart⟩ := bind_eq_some_iff.mp hstart
  obtain ⟨date, hdate, hstart⟩ := bind_eq_some_iff.mp hstart
  obtain ⟨hour, -, hlocal⟩ := List.exists_of_findSome?_eq_some hstart
  obtain rfl : w * 7 = days := by
    rw [tryWeeks, ite_none_right_eq_some] at hdays
    exact some.inj hdays.2
  obtain ⟨_, hdate⟩ := dite_none_right_eq_some.mp hdate
  have hdays' : anchor.days + w * 7 = date.days := congrArg NaiveDate.days (some.inj hdate)
  rw [FixedOffset.fromLocal, ite_none_right_eq_some] at hlocal
  have hhour : 0 ≤ hour * nanosPerHour := by unfold nanosPerHour; omega
  rw [← some.inj hlocal.2, hdays']
  omega

theorem lt_of_windowStart {w t start : ℤ} (hstart : windowStart timezone anchor w = some start)
    (hw : week timezone anchor t < w) : t < start := by
  have hle := le_of_windowStart hstart
  unfold week FixedOffset.dateNaive nanosPerDay at hw
  unfold nanosPerDay at hle
  omega

/-- After an instant that exists, a window starts at midnight unless it is past the last date. -/
theorem windowStart_eq {w t : ℤ} (ht : calendar.Instant t) (hw : week timezone anchor t < w) :
    windowStart timezone anchor w =
      if anchor.days + w * 7 ≤ calendar.maxDate then some ((anchor.days + w * 7) * nanosPerDay - timezone.offset)
      else none := by
  obtain ⟨hmin, hmax⟩ := ht
  have hwidth := calendar.width
  have hge := anchor.ge
  have hle := anchor.le
  have hgt := timezone.gt
  unfold week FixedOffset.dateNaive at hw
  unfold nanosPerDay at *
  have hdate : calendar.minDate ≤ anchor.days + w * 7 := by omega
  split
  next hlast =>
    have hdays : tryWeeks w = some (w * 7) := if_pos (by omega)
    have hadd : anchor.checkedAddSigned (w * 7) = some ⟨anchor.days + w * 7, hdate, hlast⟩ := dif_pos ⟨hdate, hlast⟩
    have hmidnight : timezone.fromLocal calendar (anchor.days + w * 7) ((0 : ℕ) * nanosPerHour) =
        some ((anchor.days + w * 7) * nanosPerDay - timezone.offset) := by
      rw [FixedOffset.fromLocal, Nat.cast_zero, zero_mul, add_zero]
      refine if_pos ?_
      unfold Calendar.Instant nanosPerDay
      omega
    rw [windowStart, hdays, bind_eq_bind, bind_some, hadd, bind_eq_bind, bind_some,
      List.range_succ_eq_map, List.findSome?_cons, hmidnight]
    rfl
  next hlast =>
    rw [windowStart, tryWeeks]
    split
    · have hadd : anchor.checkedAddSigned (w * 7) = none := dif_neg (by omega)
      rw [bind_eq_bind, bind_some, hadd]
      rfl
    · rfl

def cronLoop (schedule : Cron calendar) (timezone : FixedOffset) (interval : ℕ) (hinterval : 1 < interval)
    (anchor : NaiveDate calendar) (candidate : ℤ) : Option ℤ :=
  let phase := week timezone anchor candidate % interval
  if phase = 0 then some candidate
  else
    match _hstart : windowStart timezone anchor (week timezone anchor candidate + (interval - phase)) with
    | none => none
    | some start =>
      match _hnext : schedule.findNextOccurrence start true with
      | none => none
      | some next => cronLoop schedule timezone interval hinterval anchor next
termination_by ((calendar.maxDate + 1) * nanosPerDay - candidate).toNat
decreasing_by
  -- the next occurrence is in a later week, and before the end of all dates
  have hphase : week timezone anchor candidate % interval < interval := Int.emod_lt_of_pos _ (by omega)
  have hlt := lt_of_windowStart _hstart (by omega : week timezone anchor candidate < _)
  obtain ⟨⟨hoccurs, hfrom⟩, -⟩ := schedule.found _hnext
  have hend := (schedule.instant hoccurs).2
  have hle : start ≤ next := hfrom.elim le_of_lt fun h => h.2.le
  omega

def nextCronOccurrence (schedule : Cron calendar) (timezone : FixedOffset) (weekInterval : ℕ)
    (weekAnchor : Option (NaiveDate calendar)) (after : ℤ) : Option ℤ :=
  match schedule.findNextOccurrence after false with
  | none => none
  | some candidate =>
    if hinterval : 1 < weekInterval then
      cronLoop schedule timezone weekInterval hinterval (weekAnchor.getD defaultAnchor) candidate
    else some candidate

/-! ## The first active occurrence -/

variable {schedule : Cron calendar} {interval : ℕ} {after : ℤ}

/-- The occurrences after an instant, in weeks that are active. -/
def active (schedule : Cron calendar) (timezone : FixedOffset) (interval : ℕ) (anchor : NaiveDate calendar) (after : ℤ) :
    Set ℤ :=
  {t | schedule.occurs t ∧ after < t ∧ (interval : ℤ) ∣ week timezone anchor t}

/-- What is known of an answer: it is the first active occurrence, or there is none before the horizon and the last
date. -/
def Answered (schedule : Cron calendar) (timezone : FixedOffset) (interval : ℕ) (anchor : NaiveDate calendar) (after : ℤ) :
    Option ℤ → Prop
  | some t => IsLeast (active schedule timezone interval anchor after) t
  | none => ∀ t ∈ active schedule timezone interval anchor after,
      schedule.horizon ≤ t ∨ calendar.maxDate < timezone.dateNaive t

/-- An active week is not before the next active one. -/
theorem next_week_le {w w' : ℤ} (hinterval : 0 < interval) (hw : (interval : ℤ) ∣ w) (hlt : w' < w) :
    w' + (interval - w' % interval) ≤ w := by
  obtain ⟨k, rfl⟩ := hw
  have hpos : (0 : ℤ) < interval := by omega
  have hdiv := Int.emod_add_mul_ediv w' interval
  have hk : w' / interval < k := Int.ediv_lt_of_lt_mul hpos (by linarith [mul_comm (interval : ℤ) k])
  have hmul := Int.mul_le_mul_of_nonneg_left (Int.add_one_le_of_lt hk) hpos.le
  rw [mul_add] at hmul
  omega

theorem week_mono {t t' : ℤ} (h : t ≤ t') : week timezone anchor t ≤ week timezone anchor t' := by
  unfold week FixedOffset.dateNaive nanosPerDay
  omega

/-- An active occurrence that is not before a candidate of another week is in the next active week or later. -/
theorem week_of_active {candidate t : ℤ} (hinterval : 0 < interval)
    (hphase : week timezone anchor candidate % interval ≠ 0)
    (ht : t ∈ active schedule timezone interval anchor after) (hle : candidate ≤ t) :
    week timezone anchor candidate + (interval - week timezone anchor candidate % interval) ≤ week timezone anchor t := by
  refine next_week_le hinterval ht.2.2 (lt_of_le_of_ne (week_mono hle) fun heq => hphase ?_)
  rw [heq]
  exact Int.emod_eq_zero_of_dvd ht.2.2

theorem le_of_week {w t : ℤ} (h : w ≤ week timezone anchor t) :
    (anchor.days + w * 7) * nanosPerDay - timezone.offset ≤ t ∧ anchor.days + w * 7 ≤ timezone.dateNaive t := by
  unfold week FixedOffset.dateNaive nanosPerDay at *
  omega

theorem from_of_le {start t : ℤ} (h : start ≤ t) : From start true t := h.lt_or_eq.imp_right fun heq => ⟨rfl, heq⟩

section

variable (hinterval : 1 < interval)
include hinterval

/-- No active occurrence is before the window that follows the candidate. -/
theorem start_le_active {candidate start : ℤ} (hoccurs : schedule.occurs candidate)
    (hphase : week timezone anchor candidate % interval ≠ 0) (hstart : windowStart timezone anchor
      (week timezone anchor candidate + (interval - week timezone anchor candidate % interval)) = some start)
    (hfirst : ∀ t ∈ active schedule timezone interval anchor after, candidate ≤ t) :
    ∀ t ∈ active schedule timezone interval anchor after, start ≤ t := by
  intro t ht
  have hlt : week timezone anchor candidate % interval < interval := Int.emod_lt_of_pos _ (by omega)
  rw [windowStart_eq (schedule.instant hoccurs) (by omega), ite_none_right_eq_some] at hstart
  rw [← some.inj hstart.2]
  exact (le_of_week (week_of_active (by omega) hphase ht (hfirst t ht))).1

theorem cronLoop_eq (candidate : ℤ) :
    cronLoop schedule timezone interval hinterval anchor candidate =
      if week timezone anchor candidate % interval = 0 then some candidate
      else (windowStart timezone anchor
          (week timezone anchor candidate + (interval - week timezone anchor candidate % interval))).bind fun start =>
        (schedule.findNextOccurrence start true).bind (cronLoop schedule timezone interval hinterval anchor) := by
  rw [cronLoop]
  refine if_congr Iff.rfl rfl ?_
  split
  next hstart => rw [hstart, bind_none]
  next start hstart =>
    rw [hstart, bind_some]
    split
    next hnext => rw [hnext, bind_none]
    next next hnext => rw [hnext, bind_some]

/-- **The loop finds the first active occurrence**, from a candidate that none of them is before. -/
theorem answered_cronLoop {candidate : ℤ} (hoccurs : schedule.occurs candidate)
    (hafter : after < candidate) (hfirst : ∀ t ∈ active schedule timezone interval anchor after, candidate ≤ t) :
    Answered schedule timezone interval anchor after (cronLoop schedule timezone interval hinterval anchor candidate) := by
  induction candidate using cronLoop.induct schedule timezone interval hinterval anchor with
  | case1 candidate phase hphase =>
    rw [cronLoop_eq, if_pos hphase]
    exact ⟨⟨hoccurs, hafter, Int.dvd_of_emod_eq_zero hphase⟩, hfirst⟩
  | case2 candidate phase hphase hstart =>
    rw [cronLoop_eq, if_neg hphase, hstart]
    have hlt : phase < interval := Int.emod_lt_of_pos _ (by omega)
    rw [windowStart_eq (schedule.instant hoccurs) (by omega), ite_eq_right_iff] at hstart
    have hmax : ¬ anchor.days + (week timezone anchor candidate + (interval - phase)) * 7 ≤ calendar.maxDate :=
      fun h => nomatch hstart h
    intro t ht
    have hdate := (le_of_week (week_of_active (by omega) hphase ht (hfirst t ht))).2
    exact .inr (by omega)
  | case3 candidate phase hphase start hstart hnext =>
    rw [cronLoop_eq, if_neg hphase, hstart, bind_some, hnext]
    intro t ht
    exact .inl (schedule.gaveUp hnext t ht.1 (from_of_le (start_le_active hinterval hoccurs hphase hstart hfirst t ht)))
  | case4 candidate phase hphase start hstart next hnext ih =>
    rw [cronLoop_eq, if_neg hphase, hstart, bind_some, hnext]
    obtain ⟨⟨hoccurs', hfrom⟩, hleast⟩ := schedule.found hnext
    have hlt : phase < interval := Int.emod_lt_of_pos _ (by omega)
    have hlater := lt_of_windowStart hstart (by omega : week timezone anchor candidate < _)
    refine ih hoccurs' ?_ fun t ht => hleast ⟨ht.1, ?_⟩
    · exact hafter.trans (hlater.trans_le (hfrom.elim le_of_lt fun h => h.2.le))
    · exact from_of_le (start_le_active hinterval hoccurs hphase hstart hfirst t ht)

end

/-- **The next occurrence is the first one in an active week**: an answer is the least of them, and without an
answer there is none before the horizon of the search and the last date. -/
theorem nextCronOccurrence_least (schedule : Cron calendar) (timezone : FixedOffset) {weekInterval : ℕ}
    (hinterval : 1 ≤ weekInterval) (weekAnchor : Option (NaiveDate calendar)) (after : ℤ) :
    Answered schedule timezone weekInterval (weekAnchor.getD defaultAnchor) after
      (nextCronOccurrence schedule timezone weekInterval weekAnchor after) := by
  unfold nextCronOccurrence
  cases hfind : schedule.findNextOccurrence after false with
  | none =>
    intro t ht
    exact .inl (schedule.gaveUp hfind t ht.1 (.inl ht.2.1))
  | some candidate =>
    obtain ⟨⟨hoccurs, hfrom⟩, hleast⟩ := schedule.found hfind
    have hafter : after < candidate := hfrom.resolve_right fun h => nomatch h.1
    have hfirst : ∀ t ∈ active schedule timezone weekInterval (weekAnchor.getD defaultAnchor) after, candidate ≤ t :=
      fun t ht => hleast ⟨ht.1, .inl ht.2.1⟩
    dsimp only
    split
    next hmany => exact answered_cronLoop hmany hoccurs hafter hfirst
    next hone =>
      obtain rfl : weekInterval = 1 := by omega
      exact ⟨⟨hoccurs, hafter, one_dvd _⟩, hfirst⟩

end Loop

def chronoCalendar : Calendar := ⟨-96465292, 95026236, by decide, by decide⟩

def twice (calendar : Calendar) {first second : ℤ} (horder : first < second) (hfirst : calendar.Instant first)
    (hsecond : calendar.Instant second) : Cron calendar where
  occurs t := t = first ∨ t = second
  horizon := second + 1
  findNextOccurrence start inclusive :=
    if start < first ∨ inclusive = true ∧ start = first then some first
    else if start < second ∨ inclusive = true ∧ start = second then some second
    else none
  instant := by
    rintro t (rfl | rfl)
    · exact hfirst
    · exact hsecond
  found := by
    intro start inclusive t ht
    split_ifs at ht with h h'
    · cases ht
      refine ⟨⟨.inl rfl, h⟩, ?_⟩
      rintro t ⟨rfl | rfl, -⟩
      · exact le_rfl
      · exact horder.le
    · cases ht
      refine ⟨⟨.inr rfl, h'⟩, ?_⟩
      rintro t ⟨rfl | rfl, hfrom⟩
      · exact absurd hfrom h
      · exact le_rfl
  gaveUp := by
    intro start inclusive hnone t hoccurs hfrom
    split_ifs at hnone with h h'
    rcases hoccurs with rfl | rfl
    · exact absurd hfrom h
    · exact absurd hfrom h'

def nineOn (date : ℤ) : ℤ := date * nanosPerDay + 9 * nanosPerHour

def twoMondays : Cron chronoCalendar :=
  twice chronoCalendar (show nineOn 20101 < nineOn 20108 by decide) (by decide) (by decide)

def utc : FixedOffset := ⟨0, by decide, by decide⟩

/-- Every second week from 2025-01-06 on, after that day: the first Monday is skipped. -/
theorem nextCronOccurrence_second_week :
    let anchor : NaiveDate chronoCalendar := ⟨20094, by decide, by decide⟩
    nextCronOccurrence twoMondays utc 2 (some anchor) (nineOn 20094) = some (nineOn 20108) ∧
      IsLeast (active twoMondays utc 2 anchor (nineOn 20094)) (nineOn 20108) := by
  intro anchor
  have hnext : nextCronOccurrence twoMondays utc 2 (some anchor) (nineOn 20094) = some (nineOn 20108) := by
    have hstart : windowStart utc anchor 2 = some (20108 * nanosPerDay) := by decide
    have hagain : twoMondays.findNextOccurrence (20108 * nanosPerDay) true = some (nineOn 20108) := by decide
    have hloop : cronLoop twoMondays utc 2 (by decide) anchor (nineOn 20101) = some (nineOn 20108) := by
      rw [cronLoop_eq, if_neg (by decide), show week utc anchor (nineOn 20101) + _ = 2 by decide, hstart, bind_some,
        hagain, bind_some, cronLoop_eq, if_pos (by decide)]
    exact hloop
  have hleast := nextCronOccurrence_least twoMondays utc (by decide : 1 ≤ 2) (some anchor) (nineOn 20094)
  rw [hnext] at hleast
  exact ⟨hnext, hleast⟩

end Wings.Schedule
