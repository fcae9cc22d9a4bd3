import Wings.Filesystem.Accounts

/-!
# Wings.Filesystem.Allocate — concurrent allocations

`server/filesystem/mod.rs`: `allocate_in_path`, `allocate_in_path_iterator` and their async forms.
Each call is two atomic steps, the update of the cached totals and the update of the usage tree
under its lock; any number of callers may be between the two.

* **`totals_agree_at_rest`**
-/

namespace Wings.Filesystem

open Lib PathLedger List

/-- Where a call charges: a path, or the components an iterator yields. -/
inductive Target
  | path (path : Path)
  | components (components : List Str)

namespace Target

def keys : Target → List Name
  | .path p => nodeKeys p
  | .components cs => cs.map Subtype.val

/-- `update_size` or `update_size_iterator`. -/
def update (t : DiskUsage Name) (delta : SpaceDelta) : Target → DiskUsage Name
  | .path p => t.updateSize p delta
  | .components cs => t.updateSizeIterator delta (cs.map Subtype.val)

theorem update_eq (t : DiskUsage Name) (delta : SpaceDelta) (target : Target) :
    target.update t delta = t.updateSizeIterator delta target.keys := by
  cases target with
  | path p => exact updateSize_eq t p delta
  | components cs => rfl

end Target

structure AllocateCall where
  target : Target
  delta : ℤ
  ignorant : Bool
  delta_i64 : i64Min ≤ delta ∧ delta ≤ i64Max

def AllocateCall.entry (a : AllocateCall) : List Name × (ℤ × ℤ) :=
  (a.target.keys, (SpaceDelta.ofI64 a.delta).amount)

/-- The accounts, and the calls that have updated the totals but not yet the tree. -/
structure Allocator where
  accounts : Accounts
  inFlight : List AllocateCall

inductive AllocStep
  /-- A call and its `try_update_atomics`. -/
  | begin (a : AllocateCall)
  /-- A call in flight gets the lock of the tree. -/
  | finish (i : ℕ)

inductive AllocReply
  /-- The call returns `false`. -/
  | refused
  /-- The totals are updated. -/
  | counted
  /-- The call returns `true`. -/
  | done (a : AllocateCall)
  | nothing

def AllocStep.step (s : Allocator) : AllocStep → Allocator × AllocReply
  | .begin a =>
    match tryUpdateAtomics s.accounts.cached (.ofI64 a.delta) a.ignorant with
    | none => (s, .refused)
    | some cached =>
      ({ accounts := { s.accounts with cached }, inFlight := s.inFlight ++ [a] }, .counted)
  | .finish i =>
    match s.inFlight[i]? with
    | none => (s, .nothing)
    | some a =>
      ({ accounts :=
          { s.accounts with
            usage := a.target.update s.accounts.usage (.ofI64 a.delta)
            sorted := by
              rw [Target.update_eq]
              exact s.accounts.sorted.updateSizeIterator _ _ }
         inFlight := s.inFlight.eraseIdx i },
        .done a)

/-! ## What is charged -/

/-- The charges of the calls that have returned `true`. -/
def landed (tr : List (AllocStep × AllocReply)) : Usages :=
  tr.filterMap fun e =>
    match e.2 with
    | .done a => some a.entry
    | _ => none

/-- The charges of the calls that take space away. -/
def freeing (calls : List AllocateCall) : Usages :=
  (calls.filter (·.delta < 0)).map AllocateCall.entry

/-- The charges of the calls that do not. -/
def claiming (calls : List AllocateCall) : Usages :=
  (calls.filter (0 ≤ ·.delta)).map AllocateCall.entry

/-- What is currently charged to a path, `log` being what was charged at the start: what finished
calls charged to it, less what calls in flight are taking from it. -/
def charged (log : Usages) (tr : List (AllocStep × AllocReply)) (s : Allocator) (keys : List Name) : ℤ × ℤ :=
  own (log ++ landed tr ++ freeing s.inFlight) keys

/-- No negative delta exceeds what is currently charged to its path. -/
def Covered (log : Usages) (tr : List (AllocStep × AllocReply)) (s : Allocator) : AllocStep → Prop
  | .begin a => a.delta < 0 → 0 ≤ charged log tr s a.target.keys + a.entry.2
  | .finish _ => True

/-- The root of the tree stays below `u64::MAX` with the delta and everything in flight. -/
def InRange (s : Allocator) : AllocStep → Prop
  | .begin a =>
    0 < a.delta → s.accounts.usage.space.amount + total (claiming s.inFlight) [] + a.entry.2 ≤ maxAmount
  | .finish _ => True

section Sums

variable (tr : List (AllocStep × AllocReply)) (c : AllocStep) (a : AllocateCall)
  (calls : List AllocateCall)

@[simp] theorem landed_done : landed (tr ++ [(c, .done a)]) = landed tr ++ [a.entry] := by
  simp [landed]

theorem landed_of_ne_done {r : AllocReply} (hr : ∀ a, r ≠ .done a) : landed (tr ++ [(c, r)]) = landed tr := by
  cases r with
  | done a => exact absurd rfl (hr a)
  | _ => simp [landed]

/-- What a set of calls moves the root by is what they free and what they claim. -/
theorem total_calls :
    total (calls.map AllocateCall.entry) [] = total (freeing calls) [] + total (claiming calls) [] := by
  induction calls with
  | nil => rfl
  | cons a calls ih =>
    by_cases hneg : a.delta < 0
    · have hpos : ¬ 0 ≤ a.delta := not_le.mpr hneg
      simp only [map_cons, total_cons, ih, freeing, claiming, filter_cons, hneg, hpos,
        decide_true, decide_false, if_true]
      exact (add_assoc _ _ _).symm
    · have hpos : 0 ≤ a.delta := not_lt.mp hneg
      simp only [map_cons, total_cons, ih, freeing, claiming, filter_cons, hneg, hpos,
        decide_true, decide_false, if_true]
      exact add_left_comm _ _ _

variable {e : List Name × (ℤ × ℤ)}

theorem nonneg_of_mem_claiming (he : e ∈ claiming calls) : 0 ≤ e.2 := by
  obtain ⟨a, ha, rfl⟩ := mem_map.mp he
  have hpos : 0 ≤ a.delta := by simpa using (mem_filter.mp ha).2
  exact ⟨hpos, hpos⟩

theorem nonpos_of_mem_freeing (he : e ∈ freeing calls) : e.2 ≤ 0 := by
  obtain ⟨a, ha, rfl⟩ := mem_map.mp he
  have hneg : a.delta < 0 := by simpa using (mem_filter.mp ha).2
  exact ⟨hneg.le, hneg.le⟩

theorem total_entry : total [a.entry] [] = a.entry.2 := by
  rw [total_singleton, if_pos nil_prefix]

variable (calls calls' : List AllocateCall)

theorem freeing_append :
    freeing (calls ++ calls') = freeing calls ++ freeing calls' := by
  simp [freeing]

theorem claiming_append :
    claiming (calls ++ calls') = claiming calls ++ claiming calls' := by
  simp [claiming]

theorem freeing_singleton : freeing [a] = if a.delta < 0 then [a.entry] else [] := by
  split_ifs with h <;> simp [freeing, h]

theorem claiming_singleton : claiming [a] = if a.delta < 0 then [] else [a.entry] := by
  split_ifs with h
  · simp [claiming, h]
  · simp [claiming, not_lt.mp h]

theorem total_claiming_nonneg : 0 ≤ total (claiming calls) [] :=
  sum_charges_nonneg (fun _ he => nonneg_of_mem_claiming calls he) _

end Sums

/-! ## The books balance -/

def Cached.amount (c : Cached) : ℤ × ℤ := (c.logical, c.physical)

/-- The root of the tree is what finished calls charged; the cached totals are ahead of it by the
calls in flight; no path is overdrawn, and no counter can leave its range. -/
structure Balanced (log : Usages) (tr : List (AllocStep × AllocReply)) (s : Allocator) : Prop where
  root : s.accounts.usage.space.amount = total (log ++ landed tr) []
  cached : s.accounts.cached.amount = s.accounts.usage.space.amount + total (s.inFlight.map AllocateCall.entry) []
  covered : ∀ p, 0 ≤ charged log tr s p
  range : s.accounts.usage.space.amount + total (claiming s.inFlight) [] ≤ maxAmount

theorem Cached.amount_of_tryUpdateAtomics {c c' : Cached} {delta : SpaceDelta} {ignorant : Bool}
    (h : tryUpdateAtomics c delta ignorant = some c') (hl : 0 ≤ c.amount + delta.amount)
    (hu : c.amount + delta.amount ≤ maxAmount) : c'.amount = c.amount + delta.amount := by
  have hmax : (u64Max : ℤ) < 2 ^ 64 := by decide
  obtain ⟨h1, h2⟩ := exact_of_tryUpdateAtomics h hl.1 (hu.1.trans_lt hmax) hl.2 (hu.2.trans_lt hmax)
  exact Prod.ext h1 h2

theorem space_update (t : DiskUsage Name) (delta : SpaceDelta) (target : Target) :
    (target.update t delta).space = t.space.update delta := by
  rw [Target.update_eq]
  cases target.keys <;> rfl

section Step

variable {log : Usages} {tr : List (AllocStep × AllocReply)} {s : Allocator} (hb : Balanced log tr s)
include hb

/-- A call that is let into the totals, whatever the others in flight still claim or free. -/
theorem Balanced.begin {a : AllocateCall} {cached : Cached}
    (hcov : Covered log tr s (.begin a)) (hrange : InRange s (.begin a))
    (hc : tryUpdateAtomics s.accounts.cached (.ofI64 a.delta) a.ignorant = some cached) :
    Balanced log (tr ++ [(.begin a, .counted)])
      { accounts := { s.accounts with cached }, inFlight := s.inFlight ++ [a] } := by
  have hown : ∀ p, 0 ≤ own (log ++ landed tr ++ freeing (s.inFlight ++ [a])) p := by
    intro p
    have hp : 0 ≤ own (log ++ landed tr ++ freeing s.inFlight) p := hb.covered p
    rw [freeing_append, ← append_assoc, own_append, freeing_singleton]
    by_cases hneg : a.delta < 0
    · rw [if_pos hneg]
      by_cases hpk : a.target.keys = p
      · subst hpk
        have hown : own [a.entry] a.target.keys = a.entry.2 := by
          rw [AllocateCall.entry, own_singleton, if_pos rfl]
        rw [hown]
        exact hcov hneg
      · rw [AllocateCall.entry, own_singleton, if_neg hpk, add_zero]
        exact hp
    · rw [if_neg hneg, own_nil, add_zero]
      exact hp
  have hclaim : s.accounts.usage.space.amount + total (claiming (s.inFlight ++ [a])) [] ≤ maxAmount := by
    rw [claiming_append, total_append, claiming_singleton, ← add_assoc]
    by_cases hneg : a.delta < 0
    · rw [if_pos hneg, total_nil, add_zero]
      exact hb.range
    · rw [if_neg hneg, total_entry]
      rcases (not_lt.mp hneg).eq_or_lt with hzero | hpos
      · have hz : a.entry.2 = 0 := Prod.ext hzero.symm hzero.symm
        rw [hz, add_zero]
        exact hb.range
      · exact hrange hpos
  -- the new totals are the root, what is freed and what is claimed
  have hsum : s.accounts.cached.amount + a.entry.2 = s.accounts.usage.space.amount +
      (total (freeing (s.inFlight ++ [a])) [] + total (claiming (s.inFlight ++ [a])) []) := by
    rw [← total_calls, hb.cached, map_append, total_append, add_assoc]
    congr 2
    exact (total_entry a).symm
  have hlow : 0 ≤ s.accounts.usage.space.amount + total (freeing (s.inFlight ++ [a])) [] := by
    have h := total_nonneg hown []
    rwa [total_append, ← hb.root] at h
  have hexact : cached.amount = s.accounts.cached.amount + a.entry.2 := by
    refine Cached.amount_of_tryUpdateAtomics hc ?_ ?_
    · show 0 ≤ s.accounts.cached.amount + a.entry.2
      rw [hsum, ← add_assoc]
      exact add_nonneg hlow (total_claiming_nonneg _)
    · show s.accounts.cached.amount + a.entry.2 ≤ maxAmount
      rw [hsum, add_left_comm]
      exact (add_le_of_nonpos_left (total_nonpos_of_charges (fun _ => nonpos_of_mem_freeing _) [])).trans hclaim
  have hlanded : landed (tr ++ [(.begin a, .counted)]) = landed tr := landed_of_ne_done _ _ (by simp)
  refine ⟨?_, ?_, ?_, hclaim⟩
  · rw [hlanded]
    exact hb.root
  · rw [hexact, hsum, ← total_calls]
  · intro p
    rw [charged, hlanded]
    exact hown p

/-- A call that leaves the flight: its charge moves from the sums in flight into the tree. -/
theorem Balanced.finish {i : ℕ} {a : AllocateCall} (ha : s.inFlight[i]? = some a) :
    Balanced log (tr ++ [(.finish i, .done a)]) (AllocStep.step s (.finish i)).1 := by
  have hperm : s.inFlight.Perm ([a] ++ s.inFlight.eraseIdx i) := by
    obtain ⟨hi, rfl⟩ := List.getElem?_eq_some_iff.mp ha
    exact (getElem_cons_eraseIdx_perm hi).symm
  have hfree : ∀ p, own (freeing s.inFlight) p =
      own (freeing [a]) p + own (freeing (s.inFlight.eraseIdx i)) p := by
    intro p
    rw [← own_append, ← freeing_append]
    exact (((hperm.filter _).map _).map _).sum_eq
  have hclaim : total (claiming s.inFlight) [] =
      total (claiming [a]) [] + total (claiming (s.inFlight.eraseIdx i)) [] := by
    rw [← total_append, ← claiming_append]
    exact total_perm ((hperm.filter _).map _) []
  have hall : total (s.inFlight.map AllocateCall.entry) [] =
      a.entry.2 + total ((s.inFlight.eraseIdx i).map AllocateCall.entry) [] := by
    rw [total_perm (hperm.map _) [], map_append, total_append]
    congr 1
    exact total_entry a
  have hown : ∀ p, 0 ≤ own (log ++ (landed tr ++ [a.entry]) ++ freeing (s.inFlight.eraseIdx i)) p := by
    intro p
    have hp : 0 ≤ own (log ++ landed tr ++ freeing s.inFlight) p := hb.covered p
    rw [own_append, hfree, freeing_singleton, ← add_assoc] at hp
    rw [own_append, ← append_assoc, own_append]
    by_cases hneg : a.delta < 0
    · rwa [if_pos hneg] at hp
    · rw [if_neg hneg, own_nil, add_zero] at hp
      have hentry : 0 ≤ own [a.entry] p := by
        rw [own_singleton]
        split_ifs
        · exact ⟨not_lt.mp hneg, not_lt.mp hneg⟩
        · exact le_rfl
      rw [add_right_comm]
      exact add_nonneg hp hentry
  have hrange : s.accounts.usage.space.amount + a.entry.2 +
      total (claiming (s.inFlight.eraseIdx i)) [] ≤ maxAmount := by
    have hr := hb.range
    rw [hclaim, claiming_singleton, ← add_assoc] at hr
    refine le_trans (add_le_add_left ?_ _) hr
    split_ifs with hneg
    · exact add_le_add_right (⟨hneg.le, hneg.le⟩ : a.entry.2 ≤ 0) _
    · rw [total_entry]
  have hexact : (s.accounts.usage.space.update (.ofI64 a.delta)).amount =
      s.accounts.usage.space.amount + a.entry.2 := by
    refine UsedSpace.amount_update ?_ ?_
    · have h : ∀ p, 0 ≤ own (log ++ (landed tr ++ [a.entry])) p := by
        intro p
        have hp := hown p
        rw [own_append] at hp
        exact hp.trans (add_le_of_nonpos_right (own_nonpos_of_charges (fun _ he => nonpos_of_mem_freeing _ he) p))
      have htotal := total_nonneg h []
      rwa [← append_assoc, total_append, ← hb.root, total_entry] at htotal
    · exact (le_add_of_nonneg_right (total_claiming_nonneg _)).trans hrange
  have hspace : (AllocStep.step s (.finish i)).1.accounts.usage.space.amount =
      s.accounts.usage.space.amount + a.entry.2 := by
    simp only [AllocStep.step, ha, space_update, hexact]
  have hflight : (AllocStep.step s (.finish i)).1.inFlight = s.inFlight.eraseIdx i := by
    simp only [AllocStep.step, ha]
  have hcached : (AllocStep.step s (.finish i)).1.accounts.cached = s.accounts.cached := by
    simp only [AllocStep.step, ha]
  refine ⟨?_, ?_, ?_, ?_⟩
  · rw [hspace, landed_done, ← append_assoc, total_append, ← hb.root, total_entry]
  · rw [hspace, hflight, hcached, hb.cached, hall, add_assoc]
  · intro p
    rw [charged, landed_done, hflight]
    exact hown p
  · rw [hspace, hflight]
    exact hrange

theorem Balanced.idle {c : AllocStep} {r : AllocReply} (hr : ∀ a, r ≠ .done a) : Balanced log (tr ++ [(c, r)]) s := by
  refine { hb with root := ?_, covered := fun p => ?_ }
  · rw [landed_of_ne_done _ _ hr]
    exact hb.root
  · rw [charged, landed_of_ne_done _ _ hr]
    exact hb.covered p

theorem Balanced.step {c : AllocStep} (hcov : Covered log tr s c)
    (hrange : InRange s c) : Balanced log (tr ++ [(c, (c.step s).2)]) (c.step s).1 := by
  cases c with
  | begin a =>
    cases hc : tryUpdateAtomics s.accounts.cached (.ofI64 a.delta) a.ignorant with
    | none =>
      have hstep : AllocStep.step s (.begin a) = (s, .refused) := by simp only [AllocStep.step, hc]
      rw [hstep]
      exact hb.idle (by simp)
    | some cached =>
      simp only [AllocStep.step, hc]
      exact hb.begin hcov hrange hc
  | finish i =>
    cases ha : s.inFlight[i]? with
    | none =>
      have hstep : AllocStep.step s (.finish i) = (s, .nothing) := by simp only [AllocStep.step, ha]
      rw [hstep]
      exact hb.idle (by simp)
    | some a =>
      have hreply : (AllocStep.step s (.finish i)).2 = .done a := by simp only [AllocStep.step, ha]
      rw [hreply]
      exact hb.finish ha

end Step

theorem balanced_start {log : Usages} {s : Allocator} (hrest : s.inFlight = [])
    (hcached : s.accounts.cached.amount = s.accounts.usage.space.amount)
    (hlog : total log [] = s.accounts.usage.space.amount) (hown : ∀ p, 0 ≤ own log p)
    (hu64 : s.accounts.usage.space.amount ≤ maxAmount) : Balanced log [] s where
  root := by
    rw [landed, filterMap_nil, append_nil]
    exact hlog.symm
  cached := by
    rw [hrest, hcached]
    exact (add_zero _).symm
  covered := by
    intro p
    rw [charged, hrest, landed, filterMap_nil, append_nil]
    show 0 ≤ own (log ++ []) p
    rw [append_nil]
    exact hown p
  range := by
    rw [hrest]
    exact (add_zero _).le.trans hu64

/-- **Quota and totals under concurrency.**  Start with no call in flight, the cached totals at the
root of the tree and `log` a record of what is charged to each path.  In every state reached by
calls that take no more than is charged to their path and keep the root in range: a refused call
changes nothing; a call that is not ignorant leaves the physical total at most at the limit, unless
it was above; and if no call is in flight the cached totals are the root of the tree. -/
theorem totals_agree_at_rest {log : Usages} {s₀ : Allocator} (hrest : s₀.inFlight = [])
    (hcached : s₀.accounts.cached.amount = s₀.accounts.usage.space.amount)
    (hlog : total log [] = s₀.accounts.usage.space.amount) (hown : ∀ p, 0 ≤ own log p)
    (hu64 : s₀.accounts.usage.space.amount ≤ maxAmount) {cs : List AllocStep}
    (h : Steps AllocStep.step (fun tr s c => Covered log tr s c ∧ InRange s c) s₀ cs) :
    let s := exec AllocStep.step s₀ cs
    (∀ a, (AllocStep.step s (.begin a)).2 = .refused → (AllocStep.step s (.begin a)).1 = s) ∧
    (∀ a, a.ignorant = false → 0 < s.accounts.cached.diskLimit → s.accounts.cached.diskLimit ≤ i64Max →
      ((AllocStep.step s (.begin a)).1.accounts.cached.physical) ≤
        max s.accounts.cached.diskLimit s.accounts.cached.physical) ∧
    (s.inFlight = [] → s.accounts.cached.logical = s.accounts.usage.space.logical ∧
      s.accounts.cached.physical = s.accounts.usage.space.physical) := by
  intro s
  refine ⟨fun a hr => ?_, fun a hi hpos hi64 => ?_, fun hrest' => ?_⟩
  · simp only [AllocStep.step] at hr ⊢
    cases hc : tryUpdateAtomics s.accounts.cached (.ofI64 a.delta) a.ignorant with
    | none => rfl
    | some cached =>
      rw [hc] at hr
      cases hr
  · simp only [AllocStep.step]
    cases hc : tryUpdateAtomics s.accounts.cached (.ofI64 a.delta) a.ignorant with
    | none => exact le_max_right _ _
    | some cached =>
      rw [hi] at hc
      exact physical_le_of_tryUpdateAtomics hc hpos hi64
  · have hb : Balanced log (trace AllocStep.step s₀ cs) s :=
      inv_of_steps (balanced_start hrest hcached hlog hown hu64) (fun tr t c hb hg => hb.step hg.1 hg.2) h
    have heq : s.accounts.cached.amount = s.accounts.usage.space.amount := by
      rw [hb.cached, hrest']
      exact add_zero _
    have hl : (s.accounts.cached.logical : ℤ) = s.accounts.usage.space.logical := congrArg Prod.fst heq
    have hp : (s.accounts.cached.physical : ℤ) = s.accounts.usage.space.physical :=
      congrArg Prod.snd heq
    constructor <;> omega

/-! ## Where the counters end -/

def emptyServer : Allocator :=
  { accounts := ⟨⟨100, 0, 0, 0⟩, .empty, DiskUsage.sortedAll_empty⟩, inFlight := [] }

def rootCall (delta : ℤ) (ignorant : Bool) (h : i64Min ≤ delta ∧ delta ≤ i64Max) : AllocateCall :=
  ⟨.path [], delta, ignorant, h⟩

-- what a call in flight claims is not yet charged: giving it back overtakes the tree, which saturates
example :
    let s := exec AllocStep.step emptyServer
      [.begin (rootCall 10 false (by decide)), .begin (rootCall (-10) false (by decide)), .finish 1, .finish 0]
    s.inFlight = [] ∧ s.accounts.cached.physical = 0 ∧ s.accounts.usage.space.physical = 10 := by
  refine ⟨rfl, ?_, ?_⟩ <;> decide

/-- Two ignorant calls fill the counters up to two bytes below `2 ^ 64`; the cached total wraps
around under the third call, which is let through although 100 bytes are the limit, while the tree
saturates. -/
theorem totals_apart_after_wrap : let cs : List AllocStep :=
      [.begin (rootCall i64Max true (by decide)), .finish 0,
        .begin (rootCall i64Max true (by decide)), .finish 0,
        .begin (rootCall 10 false (by decide)), .finish 0]
    let s := exec AllocStep.step emptyServer cs
    Steps AllocStep.step (Covered []) emptyServer cs ∧ s.inFlight = [] ∧
      s.accounts.cached.physical = 8 ∧ s.accounts.cached.logical = 8 ∧
      s.accounts.usage.space = ⟨u64Max, u64Max⟩ := by
  refine ⟨?_, rfl, by decide, by decide, by decide⟩
  simp only [steps_cons, Covered]
  exact ⟨fun h => absurd h (by decide), trivial, fun h => absurd h (by decide), trivial,
    fun h => absurd h (by decide), trivial, steps_nil⟩

/-- Two calls in flight at once, one of which gives back what a finished call took. -/
theorem totals_agree_at_rest_overlapping : let cs : List AllocStep :=
      [.begin (rootCall 60 false (by decide)), .finish 0, .begin (rootCall 30 false (by decide)),
        .begin (rootCall (-60) false (by decide)), .finish 1, .finish 0]
    let s := exec AllocStep.step emptyServer cs
    s.inFlight = [] ∧ s.accounts.cached.physical = 30 ∧
      s.accounts.cached.physical = s.accounts.usage.space.physical := by
  intro cs s
  have h : Steps AllocStep.step (fun tr s c => Covered [] tr s c ∧ InRange s c) emptyServer cs := by
    simp only [cs, steps_cons, Covered, InRange]
    refine ⟨⟨?_, ?_⟩, ⟨trivial, trivial⟩, ⟨?_, ?_⟩, ⟨?_, ?_⟩, ⟨trivial, trivial⟩, ⟨trivial, trivial⟩, steps_nil⟩
    all_goals decide
  have hrest := (@totals_agree_at_rest [] emptyServer rfl rfl rfl (fun p => le_rfl) (by decide) cs h).2.2 rfl
  exact ⟨rfl, by decide, hrest.2⟩

end Wings.Filesystem
