import Mathlib.Data.List.AList
import Wings.Lib.Run
import Wings.Path

/-!
# Wings.Filesystem.Uploads — the uploads in progress

`UploadManager` of `uploads.rs` next to the requests that use it.  A request takes the lock of its path, registers
its upload and gets a guard; the guard is completed or dropped.  Records are shared: a request of the same user
picks up the record of the one before.  The routes drop their lock before their guard.

* **`uploads_active`**, **`upload_inactive`**
-/

namespace Wings.Filesystem.Uploads

open Lib Function AList Option

structure Upload where
  target : Path
  part : Path
  user : ℕ
  userName : Option String
  resumable : Bool
  started : ℤ
  total : ℕ
  uploaded : ℕ
  updated : ℤ
  active : Bool

namespace Upload

def setProgress (u : Upload) (uploaded : ℕ) (now : ℤ) : Upload := { u with uploaded, updated := now }

def setTotal (u : Upload) (total : Option ℕ) : Upload := { u with total := total.getD 0 }

end Upload

/-- `NewUpload`, with the path of the staging file relative to the server. -/
structure NewUpload where
  target : Path
  part : Path
  user : ℕ
  userName : Option String
  total : Option ℕ
  uploaded : ℕ
  resumable : Bool

/-- Where a request is: its guard is there while it is `uploading`; a guard that is dropped stores two fields. -/
inductive Phase where
  | locked
  | uploading (record : ℕ)
  | completing
  | dropping (record : ℕ)
  | ended
  deriving DecidableEq

structure Request where
  key : Path
  /-- Whether the request holds the lock of its path. -/
  held : Bool
  phase : Phase

/-- A record that was inactive when a prune looked at it. -/
structure Candidate where
  key : Path
  record : ℕ
  updated : ℤ

structure State where
  /-- The records by identity. -/
  records : ℕ → Option Upload
  nextRecord : ℕ
  uploads : AList fun _ : Path => ℕ
  broadcasting : Bool
  locks : Path → Option ℕ
  requests : ℕ → Option Request
  prunes : ℕ → List Candidate

def State.init : State := ⟨fun _ => none, 0, ∅, false, fun _ => none, fun _ => none, fun _ => []⟩

namespace State

def setRequest (st : State) (i : ℕ) (r : Request) : State :=
  { st with requests := Function.update st.requests i (some r) }

def setRecord (st : State) (record : ℕ) (u : Upload) : State :=
  { st with records := Function.update st.records record (some u) }

def isActive (st : State) (record : ℕ) : Bool := (st.records record).any (·.active)

end State

/-- The record of a registration: the one under the key if it is the same user's, or else a new one. -/
def register (st : State) (key : Path) (new : NewUpload) (now : ℤ) : ℕ × State :=
  let st := { st with broadcasting := true }
  match (st.uploads.lookup key).bind fun record => (st.records record).map (record, ·) with
  | some (record, existing) =>
    if existing.user = new.user then
      (record, st.setRecord record (({ existing with active := true }.setTotal new.total).setProgress new.uploaded now))
    else registerNew st
  | none => registerNew st
where
  registerNew (st : State) : ℕ × State :=
    (st.nextRecord, { st.setRecord st.nextRecord
      ⟨new.target, new.part, new.user, new.userName, new.resumable, now, new.total.getD 0, new.uploaded, now, true⟩ with
      nextRecord := st.nextRecord + 1
      uploads := st.uploads.insert key st.nextRecord })

/-- The candidates of a prune: all the records that are inactive. -/
def candidates (st : State) : List Candidate :=
  st.uploads.entries.filterMap fun e =>
    (st.records e.2).bind fun u => if u.active then none else some ⟨e.1, e.2, u.updated⟩

/-- A candidate that is gone is removed, unless it was replaced or resumed since. -/
def retire (st : State) (c : Candidate) : State :=
  if st.uploads.lookup c.key = some c.record ∧
      (st.records c.record).any fun u => u.updated = c.updated && !u.active then
    { st with uploads := st.uploads.erase c.key }
  else st

inductive Action where
  | lock (i : ℕ) (key : Path)
  | register (i : ℕ) (new : NewUpload) (now : ℤ)
  | setProgress (i : ℕ) (uploaded : ℕ) (now : ℤ)
  | complete (i : ℕ)
  | forgetCompleted (i : ℕ)
  | cancel (i : ℕ)
  | deactivate (i : ℕ)
  | touch (i : ℕ) (now : ℤ)
  | unlock (i : ℕ)
  | startPrune (j : ℕ)
  | finishPrune (j : ℕ) (isGone : Candidate → Bool)
  | broadcast

def entries (st : State) : List Upload := st.uploads.entries.filterMap fun e => st.records e.2

def step (st : State) : Action → State × List Upload
  | .lock i key =>
    match st.requests i, st.locks key with
    | none, none => ({ st with locks := Function.update st.locks key (some i) }.setRequest i ⟨key, true, .locked⟩, [])
    | _, _ => (st, [])
  | .register i new now =>
    match st.requests i with
    | some ⟨key, true, .locked⟩ =>
      let (record, st) := register st key new now
      (st.setRequest i ⟨key, true, .uploading record⟩, [])
    | _ => (st, [])
  | .setProgress i uploaded now =>
    match st.requests i with
    | some ⟨_, _, .uploading record⟩ =>
      match st.records record with
      | some u => (st.setRecord record (u.setProgress uploaded now), [])
      | none => (st, [])
    | _ => (st, [])
  | .complete i =>
    match st.requests i with
    | some ⟨key, true, .uploading _⟩ => (st.setRequest i ⟨key, true, .completing⟩, [])
    | _ => (st, [])
  | .forgetCompleted i =>
    match st.requests i with
    | some ⟨key, held, .completing⟩ =>
      ({ st with uploads := st.uploads.erase key }.setRequest i ⟨key, held, .ended⟩, [])
    | _ => (st, [])
  | .cancel i =>
    match st.requests i with
    | some ⟨key, held, .completing⟩ => (st.setRequest i ⟨key, held, .ended⟩, [])
    | _ => (st, [])
  | .deactivate i =>
    match st.requests i with
    | some ⟨key, held, .uploading record⟩ =>
      match st.records record with
      | some u => ((st.setRecord record { u with active := false }).setRequest i ⟨key, held, .dropping record⟩, [])
      | none => (st, [])
    | _ => (st, [])
  | .touch i now =>
    match st.requests i with
    | some ⟨key, held, .dropping record⟩ =>
      match st.records record with
      | some u => ((st.setRecord record { u with updated := now }).setRequest i ⟨key, held, .ended⟩, [])
      | none => (st, [])
    | _ => (st, [])
  | .unlock i =>
    match st.requests i with
    | some ⟨key, true, phase⟩ =>
      -- the lock outlives `complete`
      if phase = .completing then (st, [])
      else ({ st with locks := Function.update st.locks key none }.setRequest i ⟨key, false, phase⟩, [])
    | _ => (st, [])
  | .startPrune j => ({ st with prunes := Function.update st.prunes j (candidates st) }, [])
  | .finishPrune j isGone =>
    ({ ((st.prunes j).filter isGone).foldl retire st with prunes := Function.update st.prunes j [] }, [])
  | .broadcast =>
    if st.broadcasting then ({ st with broadcasting := (entries st).any (·.active) }, entries st) else (st, [])

/-- Where the guard of a request that holds its lock is there, its own record is listed, and as active. -/
def UploadsActive (st : State) : Prop :=
  ∀ i key record, st.requests i = some ⟨key, true, .uploading record⟩ →
    st.uploads.lookup key = some record ∧ st.isActive record = true

/-- Nobody registers an upload while the guard of an earlier request has the record that would be picked up. -/
def Alone (_ : List (Action × List Upload)) (st : State) (a : Action) : Prop :=
  ∀ i new now, a = .register i new now → ∀ key held, st.requests i = some ⟨key, held, .locked⟩ →
    ∀ j key' held' record u, st.requests j = some ⟨key', held', .uploading record⟩ →
      st.uploads.lookup key = some record → st.records record = some u → u.user ≠ new.user

/-! ## The invariant -/

variable {st : State} {key : Path} {i : ℕ}

/-- A lock is held by one request; an upload whose request holds its lock is listed as active under its own record,
which is no other guard's. -/
structure Inv (st : State) : Prop where
  locked : ∀ i key phase, st.requests i = some ⟨key, true, phase⟩ → st.locks key = some i
  completing : ∀ i key held, st.requests i = some ⟨key, held, .completing⟩ → held = true
  active : UploadsActive st
  alone : ∀ i key record, st.requests i = some ⟨key, true, .uploading record⟩ →
    ∀ j key' held, st.requests j = some ⟨key', held, .uploading record⟩ → j = i
  guards : ∀ i key held record, st.requests i = some ⟨key, held, .uploading record⟩ → record < st.nextRecord
  listed : ∀ key record, st.uploads.lookup key = some record → record < st.nextRecord

theorem requests_setRequest {j : ℕ} {r r' : Request} (h : (st.setRequest i r).requests j = some r') :
    j = i ∧ r' = r ∨ j ≠ i ∧ st.requests j = some r' := by
  change update st.requests i (some r) j = some r' at h
  by_cases hj : j = i
  · subst hj
    rw [update_self] at h
    exact .inl ⟨rfl, (some.inj h).symm⟩
  · rw [update_of_ne hj] at h
    exact .inr ⟨hj, h⟩

theorem Inv.key_ne (h : Inv st) {j : ℕ} {key' : Path} {phase phase' : Phase} (hne : i ≠ j)
    (hi : st.requests i = some ⟨key, true, phase⟩) (hj : st.requests j = some ⟨key', true, phase'⟩) : key ≠ key' := by
  rintro rfl
  exact hne (some.inj ((h.locked i key phase hi).symm.trans (h.locked j key phase' hj)))

theorem isActive_setRecord_self (record : ℕ) (u : Upload) : (st.setRecord record u).isActive record = u.active := by
  show (update st.records record (some u) record).any (·.active) = u.active
  rw [update_self, any_some]

theorem isActive_setRecord_of_ne {record record' : ℕ} (hne : record' ≠ record) (u : Upload) :
    (st.setRecord record u).isActive record' = st.isActive record' := by
  show (update st.records record (some u) record').any (·.active) = _
  rw [update_of_ne hne]
  rfl

section

variable (h : Inv st)
include h

theorem Inv.setRequest {locks : Path → Option ℕ} {r : Request}
    (hothers : ∀ j key phase, j ≠ i → st.requests j = some ⟨key, true, phase⟩ → locks key = some j)
    (hheld : r.held = true → locks r.key = some i) (hcompleting : r.phase = .completing → r.held = true)
    (hactive : ∀ record, r.held = true → r.phase = .uploading record →
      st.uploads.lookup r.key = some record ∧ st.isActive record = true)
    (hguard : ∀ record, r.phase = .uploading record → record < st.nextRecord ∧ ∀ j key held, j ≠ i →
      st.requests j = some ⟨key, held, .uploading record⟩ → r.held = false ∧ held = false) :
    Inv ({ st with locks := locks }.setRequest i r) := by
  refine ⟨fun j key phase hj => ?_, fun j key held hj => ?_, fun j key record hj => ?_,
    fun j key record hj k key' held hk => ?_, fun j key held record hj => ?_, h.listed⟩
  · rcases requests_setRequest hj with ⟨rfl, rfl⟩ | ⟨hne, hj⟩
    · exact hheld rfl
    · exact hothers j key phase hne hj
  · rcases requests_setRequest hj with ⟨_, rfl⟩ | ⟨_, hj⟩
    · exact hcompleting rfl
    · exact h.completing j key held hj
  · rcases requests_setRequest hj with ⟨_, rfl⟩ | ⟨_, hj⟩
    · exact hactive record rfl rfl
    · exact h.active j key record hj
  · rcases requests_setRequest hj with ⟨hji, hr⟩ | ⟨hji, hj'⟩ <;>
      rcases requests_setRequest hk with ⟨hki, hr'⟩ | ⟨hki, hk'⟩
    · exact hki.trans hji.symm
    · subst hr
      exact nomatch ((hguard record rfl).2 k key' held hki hk').1
    · subst hr'
      exact nomatch ((hguard record rfl).2 j key true hji hj').2
    · exact h.alone j key record hj' k key' held hk'
  · rcases requests_setRequest hj with ⟨_, rfl⟩ | ⟨_, hj⟩
    · exact (hguard record rfl).1
    · exact h.guards j key held record hj

theorem Inv.leave {held : Bool} {old phase : Phase}
    (hi : st.requests i = some ⟨key, held, old⟩) (hphase : ∀ record, phase ≠ .uploading record)
    (hcompleting : phase = .completing → held = true) : Inv (st.setRequest i ⟨key, held, phase⟩) := by
  refine h.setRequest (fun j key' phase' _ hj => h.locked j key' phase' hj) (fun hheld => ?_) hcompleting
    (fun record _ heq => absurd heq (hphase record)) (fun record heq => absurd heq (hphase record))
  obtain rfl : held = true := hheld
  exact h.locked i key old hi

theorem Inv.lock (hfree : st.locks key = none) :
    Inv ({ st with locks := update st.locks key (some i) }.setRequest i ⟨key, true, .locked⟩) := by
  refine h.setRequest (fun j key' phase _ hj => ?_) (fun _ => update_self _ _ _) nofun nofun nofun
  have hne : key' ≠ key := by
    rintro rfl
    exact nomatch (h.locked j key' phase hj).symm.trans hfree
  rw [update_of_ne hne]
  exact h.locked j key' phase hj

theorem Inv.unlock {phase : Phase} (hi : st.requests i = some ⟨key, true, phase⟩) (hphase : phase ≠ .completing) :
    Inv ({ st with locks := update st.locks key none }.setRequest i ⟨key, false, phase⟩) := by
  refine h.setRequest (fun j key' phase' hne hj => ?_) nofun (fun heq => absurd heq hphase) nofun
    fun record heq => ?_
  · rw [update_of_ne (h.key_ne hne hj hi)]
    exact h.locked j key' phase' hj
  · obtain rfl : phase = .uploading record := heq
    refine ⟨h.guards i key true record hi, fun j key' held hne hj => ⟨rfl, ?_⟩⟩
    exact absurd (h.alone i key record hi j key' held hj) hne

variable {record : ℕ}

/-- A guard is given out for a record that is active, listed under the key and no other guard's. -/
theorem Inv.guard (hi : st.requests i = some ⟨key, true, .locked⟩)
    (hlookup : st.uploads.lookup key = some record) (hactive : st.isActive record = true)
    (halone : ∀ j key' held, st.requests j ≠ some ⟨key', held, .uploading record⟩) :
    Inv (st.setRequest i ⟨key, true, .uploading record⟩) := by
  refine h.setRequest (fun j key' phase _ hj => h.locked j key' phase hj) (fun _ => h.locked i key _ hi) nofun
    (fun record' _ heq => ?_) fun record' heq => ?_
  · cases heq
    exact ⟨hlookup, hactive⟩
  · cases heq
    exact ⟨h.listed key record hlookup, fun j key' held _ hj => absurd hj (halone j key' held)⟩

/-- A record is changed; if it is that of an upload whose request holds its lock it stays active. -/
theorem Inv.setRecord {u : Upload}
    (hactive : ∀ i key, st.requests i = some ⟨key, true, .uploading record⟩ → u.active = true) :
    Inv (st.setRecord record u) := by
  refine { h with active := fun i key record' hi => ?_ }
  refine ⟨(h.active i key record' hi).1, ?_⟩
  by_cases heq : record' = record
  · subst heq
    rw [isActive_setRecord_self]
    exact hactive i key hi
  · rw [isActive_setRecord_of_ne heq]
    exact (h.active i key record' hi).2

theorem Inv.active_of_record {u : Upload}
    (hi : st.requests i = some ⟨key, true, .uploading record⟩) (hu : st.records record = some u) :
    u.active = true := by
  have hactive := (h.active i key record hi).2
  unfold State.isActive at hactive
  rwa [hu] at hactive

/-- An entry is removed that is not that of an upload whose request holds its lock. -/
theorem Inv.erase (hkey : ∀ i record, st.requests i ≠ some ⟨key, true, .uploading record⟩) :
    Inv { st with uploads := st.uploads.erase key } := by
  refine { h with active := fun i key' record hi => ?_, listed := fun key' record hlookup => ?_ }
  · have hne : key' ≠ key := by
      rintro rfl
      exact hkey i record hi
    obtain ⟨hlookup, hactive⟩ := h.active i key' record hi
    exact ⟨(lookup_erase_ne hne).trans hlookup, hactive⟩
  · by_cases heq : key' = key
    · subst heq
      rw [lookup_erase] at hlookup
      cases hlookup
    · exact h.listed key' record ((lookup_erase_ne heq).symm.trans hlookup)

theorem Inv.retire (c : Candidate) : Inv (retire st c) := by
  unfold Uploads.retire
  split_ifs with hgone
  · refine h.erase fun i record hi => ?_
    obtain ⟨hlookup, hactive⟩ := h.active i c.key record hi
    obtain ⟨hcurrent, hinactive⟩ := hgone
    rw [hlookup] at hcurrent
    cases hcurrent
    unfold State.isActive at hactive
    cases hrecord : st.records c.record with
    | none => rw [hrecord] at hactive; cases hactive
    | some u =>
      rw [hrecord, any_some] at hactive hinactive
      rw [hactive] at hinactive
      simp at hinactive
  · exact h

theorem Inv.foldl_retire (dead : List Candidate) : Inv (dead.foldl Uploads.retire st) := by
  induction dead generalizing st with
  | nil => exact h
  | cons c dead ih => exact ih (h.retire c)

section

variable (hi : st.requests i = some ⟨key, true, .locked⟩)
include hi

theorem Inv.registerNew (new : NewUpload) (now : ℤ) :
    Inv ((register.registerNew key new now st).2.setRequest i
      ⟨key, true, .uploading (register.registerNew key new now st).1⟩) := by
  have hold : ∀ {j key' held record}, st.requests j = some ⟨key', held, .uploading record⟩ → record ≠ st.nextRecord :=
    fun hj => (h.guards _ _ _ _ hj).ne
  have hinv : Inv (register.registerNew key new now st).2 := by
    refine { h with active := fun j key' record hj => ?_, guards := fun j key' held record hj =>
      Nat.lt_succ_of_lt (h.guards j key' held record hj), listed := fun key' record hlookup => ?_ }
    · have hne : key' ≠ key := by
        rintro rfl
        obtain rfl : j = i := some.inj ((h.locked j key' _ hj).symm.trans (h.locked i key' _ hi))
        exact nomatch hi.symm.trans hj
      obtain ⟨hlookup, hactive⟩ := h.active j key' record hj
      exact ⟨(lookup_insert_ne hne).trans hlookup, (isActive_setRecord_of_ne (hold hj) _).trans hactive⟩
    · change lookup key' (st.uploads.insert key st.nextRecord) = some record at hlookup
      by_cases heq : key' = key
      · subst heq
        rw [lookup_insert] at hlookup
        cases hlookup
        exact Nat.lt_succ_self _
      · rw [lookup_insert_ne heq] at hlookup
        exact Nat.lt_succ_of_lt (h.listed key' record hlookup)
  refine hinv.guard hi (lookup_insert _) (isActive_setRecord_self _ _) fun j key' held hj => ?_
  exact hold hj rfl

theorem Inv.register (new : NewUpload) (now : ℤ)
    (halone : ∀ j key' held record u, st.requests j = some ⟨key', held, .uploading record⟩ →
      st.uploads.lookup key = some record → st.records record = some u → u.user ≠ new.user) :
    Inv ((register st key new now).2.setRequest i ⟨key, true, .uploading (register st key new now).1⟩) := by
  have hst : Inv { st with broadcasting := true } :=
    { h with }
  unfold Uploads.register
  dsimp only
  split
  next record existing hfound =>
    obtain ⟨record', hlookup, hrecord⟩ := bind_eq_some_iff.mp hfound
    obtain ⟨u, hu, heq⟩ := map_eq_some_iff.mp hrecord
    cases heq
    split_ifs with huser
    · refine (hst.setRecord fun _ _ _ => rfl).guard hi hlookup (isActive_setRecord_self _ _) ?_
      intro j key' held hj
      exact halone j key' held record existing hj hlookup hu huser
    · exact hst.registerNew hi new now
  · exact hst.registerNew hi new now

end

theorem Inv.step {tr : List (Action × List Upload)} {a : Action} (hg : Alone tr st a) :
    Inv (step st a).1 := by
  cases a <;> simp only [Uploads.step]
  case lock i key =>
    split
    next hfree => exact h.lock hfree
    · exact h
  case register i new now =>
    split
    next key hi => exact h.register hi new now (hg i new now rfl key true hi)
    · exact h
  case setProgress i uploaded now =>
    split
    next record hi =>
      split
      next u hu => exact h.setRecord fun j key hj => show u.active = true from h.active_of_record hj hu
      · exact h
    · exact h
  case complete i =>
    split
    next hi => exact h.leave hi nofun fun _ => rfl
    · exact h
  case forgetCompleted i =>
    split
    next key held hi =>
      obtain rfl := h.completing i key held hi
      refine (h.erase fun j record hj => ?_).leave hi nofun nofun
      obtain rfl : j = i := some.inj ((h.locked j key _ hj).symm.trans (h.locked i key _ hi))
      exact nomatch hi.symm.trans hj
    · exact h
  case cancel i =>
    split
    next hi => exact h.leave hi nofun nofun
    · exact h
  case deactivate i =>
    split
    next key held record hi =>
      split
      next u hu =>
        have hinv : Inv (st.setRequest i ⟨key, held, .dropping record⟩) := h.leave hi nofun nofun
        refine hinv.setRecord fun j key' hj => ?_
        rcases requests_setRequest hj with ⟨_, heq⟩ | ⟨hne, hj⟩
        · cases heq
        · exact absurd (h.alone j key' record hj i key held hi).symm hne
      · exact h
    · exact h
  case touch i now =>
    split
    next record hi =>
      split
      next u hu =>
        have hinv : Inv (st.setRecord record { u with updated := now }) :=
          h.setRecord fun j key hj => show u.active = true from h.active_of_record hj hu
        exact hinv.leave hi nofun nofun
      · exact h
    · exact h
  case unlock i =>
    split
    next hi =>
      split_ifs with hphase
      · exact h
      · exact h.unlock hi hphase
    · exact h
  case startPrune j => exact { h with }
  case finishPrune j isGone =>
    have hinv := h.foldl_retire ((st.prunes j).filter isGone)
    exact { hinv with }
  case broadcast =>
    split_ifs
    · exact { h with }
    · exact h

end

/-- **An upload in progress is listed as active** in every run where no request registers while the guard of an
earlier one has the record that it picks up. -/
theorem uploads_active {as : List Action} (hg : Steps step Alone State.init as) :
    UploadsActive (exec step State.init as) := by
  have hinit : Inv State.init := by
    refine ⟨fun _ _ _ h => ?_, fun _ _ _ h => ?_, fun _ _ _ h => ?_, fun _ _ _ h => ?_, fun _ _ _ _ h => ?_,
      fun _ _ h => ?_⟩ <;> cases h
  exact (inv_of_steps (I := fun _ st => Inv st) hinit (fun _ _ _ hst halone => hst.step halone) hg).active

def part : Path := [.rootDir, .normal ⟨[0x61], isFileName_a⟩]

def newUpload (user : ℕ) : NewUpload := ⟨part, part, user, none, some 10, 0, true⟩

/-- Another user takes over when the lock is released, and the guard of the first is dropped after that. -/
def handOver : List Action :=
  [.lock 0 part, .register 0 (newUpload 7) 1, .unlock 0, .lock 1 part, .register 1 (newUpload 8) 2, .deactivate 0]

theorem uploads_active_hand_over : UploadsActive (exec step State.init handOver) := by
  refine uploads_active ?_
  simp only [handOver, steps_cons]
  refine ⟨nofun, ?_, nofun, nofun, ?_, nofun, steps_nil⟩
  · rintro i new now ⟨⟩ key held _ j key' held' record u _ hlookup
    cases hlookup
  · rintro i new now ⟨⟩ key held hi j key' held' record u _ hlookup hu
    cases hi
    cases hlookup
    cases hu
    decide

/-- The next request of the user begins when the lock is released and the guard is not dropped yet. -/
def overlappingRun : List Action :=
  [.lock 0 part, .register 0 (newUpload 7) 1, .unlock 0, .lock 1 part, .register 1 (newUpload 7) 2, .deactivate 0]

theorem upload_inactive : ¬UploadsActive (exec step State.init overlappingRun) := by
  intro h
  have := (h 1 part 0 rfl).2
  cases this

end Wings.Filesystem.Uploads
