import Wings.Remote.Jwt

/-!
# Wings.Remote.JwtUses — how often a token is accepted

`limited_jwt_id` of `remote/jwt.rs`, for any number of callers: the lookup under the read lock and the insertion
under the write lock are separate steps, and a round of the background task may come between them.
-/

namespace Wings.Remote

open Lib List AList

/-- `seen_jtoken_ids`, and the callers that have not found their id and wait for the write lock. -/
structure Uses where
  seen : AList fun _ : Text => ℕ × Time
  waiting : ℕ → Option Text

inductive UsesStep where
  | lookup (caller : ℕ) (id : Text)
  | enter (caller : ℕ) (now : Time)
  | cleanup (now : Time)

namespace Uses

def new : Uses := ⟨∅, fun _ => none⟩

/-- `claim_use` for the entry of an id.  The answer has the id of the call and what it returns. -/
def claimUse (m : ℕ) (u : Uses) (id : Text) (entry : ℕ × Time) : Uses × Option (Text × Bool) :=
  if entry.1 < m then ({ u with seen := u.seen.insert id (entry.1 + 1, entry.2) }, some (id, true))
  else (u, some (id, false))

/-- A step, where `max_jwt_uses` is `m`. -/
def step (m : ℕ) (u : Uses) : UsesStep → Uses × Option (Text × Bool)
  | .lookup caller id =>
    if (u.waiting caller).isSome then (u, none)
    else if m = 0 then (u, some (id, true))
    else
      match u.seen.lookup id with
      | some entry => u.claimUse m id entry
      | none => ({ u with waiting := Function.update u.waiting caller (some id) }, none)
  | .enter caller now =>
    match u.waiting caller with
    | none => (u, none)
    | some id =>
      let u := { u with waiting := Function.update u.waiting caller none }
      match u.seen.lookup id with
      | some entry => u.claimUse m id entry
      | none => ({ u with seen := u.seen.insert id (1, now) }, some (id, true))
  | .cleanup now => ({ u with seen := retain u.seen fun _ entry => decide (now - hour < entry.2) }, none)

/-- The uses that are recorded for an id. -/
def held (u : Uses) (id : Text) : ℕ := ((u.seen.lookup id).map (·.1)).getD 0

/-- The calls for an id that have returned true. -/
def granted (id : Text) (tr : List (UsesStep × Option (Text × Bool))) : ℕ := tr.countP (·.2 = some (id, true))

/-- No round drops the entry of the id. -/
def Remembered (id : Text) (_ : List (UsesStep × Option (Text × Bool))) (u : Uses) (s : UsesStep) : Prop :=
  ∀ now entry, s = .cleanup now → u.seen.lookup id = some entry → now - hour < entry.2

/-- What a step with this result does to an id with `n` recorded uses. -/
inductive Counts (m : ℕ) (id : Text) (n : ℕ) (r : Uses × Option (Text × Bool)) : Prop
  | granted : r.2 = some (id, true) → n < m → r.1.held id = n + 1 → Counts m id n r
  | other : r.2 ≠ some (id, true) → (r.2 = some (id, false) → m ≤ n) → r.1.held id = n → Counts m id n r

variable {m : ℕ} {u : Uses} {id : Text}

theorem held_insert (id' : Text) (entry : ℕ × Time) (waiting : ℕ → Option Text) :
    held ⟨u.seen.insert id' entry, waiting⟩ id = if id = id' then entry.1 else u.held id := by
  simp only [held]
  split_ifs with hid
  · rw [hid, lookup_insert]
    rfl
  · rw [lookup_insert_ne hid]

theorem counts_claimUse {id' : Text} {entry : ℕ × Time} (h : u.seen.lookup id' = some entry) :
    Counts m id (u.held id) (u.claimUse m id' entry) := by
  have hheld : u.held id' = entry.1 := by simp [held, h]
  unfold claimUse
  by_cases hid : id = id'
  · subst hid
    split_ifs with hlt
    · exact .granted rfl (hheld ▸ hlt) (by rw [held_insert, if_pos rfl, hheld])
    · exact .other (by simp) (fun _ => hheld ▸ Nat.le_of_not_lt hlt) rfl
  · split_ifs
    · exact .other (by simp [Ne.symm hid]) (by simp) (by rw [held_insert, if_neg hid])
    · exact .other (by simp) (by simp [Ne.symm hid]) rfl

theorem counts_step (hm : 0 < m) (s : UsesStep) : Counts m id (u.held id) (step m u s) ∨
    (step m u s).2 = none ∧ (step m u s).1.held id = 0 ∧ ¬ Remembered id [] u s := by
  cases s with
  | lookup caller id' =>
    refine .inl ?_
    simp only [step, if_neg hm.ne']
    split_ifs
    · exact .other nofun nofun rfl
    · split
      next entry h => exact counts_claimUse h
      · exact .other nofun nofun rfl
  | enter caller now =>
    refine .inl ?_
    simp only [step]
    split
    · exact .other nofun nofun rfl
    next id' _ =>
      split
      next entry h => exact counts_claimUse (u := { u with waiting := Function.update u.waiting caller none }) h
      next hnone =>
        by_cases hid : id = id'
        · subst hid
          have hheld : u.held id = 0 := by simp [held, hnone]
          exact .granted rfl (hheld ▸ hm) (by rw [held_insert, if_pos rfl, hheld])
        · exact .other (by simp [Ne.symm hid]) (by simp) (by rw [held_insert, if_neg hid])
  | cleanup now =>
    have hlookup := lookup_retain u.seen (fun _ entry => decide (now - hour < entry.2)) id
    cases hentry : u.seen.lookup id with
    | none => exact .inl (.other nofun nofun (by simp [step, held, hlookup, hentry]))
    | some entry =>
      by_cases hkept : now - hour < entry.2
      · exact .inl (.other nofun nofun (by simp [step, held, hlookup, hentry, Option.filter, hkept]))
      · refine .inr ⟨rfl, by simp [step, held, hlookup, hentry, Option.filter, hkept], fun h => hkept ?_⟩
        exact h now entry rfl hentry

theorem granted_concat (tr : List (UsesStep × Option (Text × Bool))) (e : UsesStep × Option (Text × Bool)) :
    granted id (tr ++ [e]) = granted id tr + if e.2 = some (id, true) then 1 else 0 := by
  simp [granted, countP_cons]

theorem held_le_granted (hm : 0 < m) (steps : List UsesStep) :
    (exec (step m) new steps).held id ≤ granted id (trace (step m) new steps) := by
  induction steps using List.reverseRecOn with
  | nil => exact Nat.zero_le _
  | append_singleton steps s ih =>
    rw [exec_concat, trace_concat, granted_concat]
    rcases counts_step hm s with (⟨h, -, heq⟩ | ⟨-, -, heq⟩) | ⟨-, heq, -⟩
    · rw [if_pos h, heq]
      omega
    all_goals omega

/-- **A token is not used too often while it is remembered.**  After every run a call is refused only if `m` calls
for its id have been granted; where no round drops the entry of an id, at most `m` calls for it are. -/
theorem uses_limited (hm : 0 < m) (id : Text) (steps : List UsesStep) :
    (∀ s, (step m (exec (step m) new steps) s).2 = some (id, false) → m ≤ granted id (trace (step m) new steps)) ∧
      (Steps (step m) (Remembered id) new steps → granted id (trace (step m) new steps) ≤ m) := by
  constructor
  · intro s hrefused
    rcases @counts_step m _ id hm s with (⟨h, -, -⟩ | ⟨-, hfull, -⟩) | ⟨h, -, -⟩
    · exact absurd (hrefused.symm.trans h) (by simp)
    · exact (hfull hrefused).trans (held_le_granted hm steps)
    · exact absurd (hrefused.symm.trans h) nofun
  · intro hsteps
    have hinv := inv_of_steps (I := fun tr u => granted id tr = u.held id ∧ u.held id ≤ m)
      ⟨rfl, Nat.zero_le _⟩ ?_ hsteps
    · exact hinv.1 ▸ hinv.2
    · rintro tr u s ⟨hheld, hle⟩ hkept
      rw [granted_concat, hheld]
      rcases counts_step hm s with (⟨h, hlt, heq⟩ | ⟨h, -, heq⟩) | ⟨-, -, hdropped⟩
      · rw [if_pos h, heq]
        exact ⟨rfl, hlt⟩
      · rw [if_neg h, heq]
        exact ⟨rfl, hle⟩
      · exact absurd hkept hdropped

/-- Two calls at once for one id, of which the first is granted, and one more after a round that keeps the id. -/
theorem uses_limited_three_calls :
    granted ['a'] (trace (step 1) new [.lookup 0 ['a'], .lookup 1 ['a'], .enter 0 0, .enter 1 0, .cleanup 5,
      .lookup 2 ['a']]) ≤ 1 := by
  refine (uses_limited Nat.one_pos ['a'] _).2 ?_
  simp only [steps_cons]
  refine ⟨nofun, nofun, nofun, nofun, fun now entry hnow hentry => ?_, nofun, steps_nil⟩
  cases hnow
  cases hentry
  decide

/-- After an hour the id is forgotten, and the token is accepted once more. -/
theorem used_again_after_an_hour :
    granted ['a'] (trace (step 1) new
      [.lookup 0 ['a'], .enter 0 0, .cleanup hour, .lookup 0 ['a'], .enter 0 hour]) = 2 := by
  decide

end Uses

end Wings.Remote
