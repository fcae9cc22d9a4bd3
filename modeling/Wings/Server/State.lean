import Wings.Lib.Run

/-!
# Wings.Server.State — the state of a server and its power actions

`ServerStateLock` of `state.rs`: the state, the flag of a pending restart and the lock of power actions.  Any
number of calls of `execute_action` are interleaved; reading the state, acquiring the lock, `set_state` and the end
of the action are steps of their own.

* `setState`, `setPendingRestart`, with what they tell the schedules and the websocket.
* `Machine`, `step` — the calls.
* **`failures_restore`**, **`failure_undoes_action`**
-/

namespace Wings.Server.State

open Lib Function List

inductive ServerState where
  | offline
  | starting
  | stopping
  | running
  deriving DecidableEq

/-- What a change tells: the schedules, and the listeners of the websocket. -/
inductive Notice where
  | trigger (state : ServerState)
  | serverStatus (state : ServerState)
  | serverPendingRestart (pending : Bool)
  deriving DecidableEq

structure ServerStateLock where
  state : ServerState
  /-- The call that holds `locked`. -/
  locked : Option ℕ
  pendingRestart : Bool

namespace ServerStateLock

def new : ServerStateLock := ⟨.offline, none, false⟩

def setPendingRestart (l : ServerStateLock) (pending : Bool) : ServerStateLock × List Notice :=
  if pending && (l.pendingRestart || l.state = .offline) then (l, [])
  else ({ l with pendingRestart := pending }, [.serverPendingRestart pending])

def setState (l : ServerStateLock) (state : ServerState) : ServerStateLock × List Notice :=
  if l.state = state then (l, [])
  else
    let l := { l with state }
    let (l, notices) :=
      if (state = .offline || state = .starting) && l.pendingRestart then l.setPendingRestart false else (l, [])
    (l, .trigger state :: .serverStatus state :: notices)

variable (l : ServerStateLock)

@[simp] theorem state_setPendingRestart (pending : Bool) : (l.setPendingRestart pending).1.state = l.state := by
  unfold setPendingRestart
  split_ifs <;> rfl

@[simp] theorem locked_setPendingRestart (pending : Bool) : (l.setPendingRestart pending).1.locked = l.locked := by
  unfold setPendingRestart
  split_ifs <;> rfl

variable (state : ServerState)

@[simp] theorem state_setState : (l.setState state).1.state = state := by
  unfold setState
  dsimp only
  split_ifs with hsame hclear
  · exact hsame
  · exact state_setPendingRestart _ _
  · rfl

@[simp] theorem locked_setState : (l.setState state).1.locked = l.locked := by
  unfold setState
  dsimp only
  split_ifs
  · rfl
  · exact locked_setPendingRestart _ _
  · rfl

end ServerStateLock

/-! ## Calls of `execute_action` -/

/-- Where a call is: it has read the state, it holds the lock, or its action runs; `old` is `old_state`. -/
inductive Phase where
  | waiting (old : ServerState)
  | holding (old : ServerState)
  | acting (old : ServerState)
  | returned
  deriving DecidableEq

/-- The arguments of a call: the state of the action, and whether there is a timeout for the lock. -/
structure Call where
  state : ServerState
  timeout : Bool

structure Machine where
  lock : ServerStateLock
  calls : ℕ → Option (Call × Phase)

def Machine.new : Machine := ⟨.new, fun _ => none⟩

def Machine.setPhase (m : Machine) (i : ℕ) (call : Call) (phase : Phase) : Machine :=
  { m with calls := Function.update m.calls i (some (call, phase)) }

inductive Action where
  | read (i : ℕ) (call : Call)
  | acquire (i : ℕ)
  | expire (i : ℕ)
  | set (i : ℕ)
  | finish (i : ℕ) (ok : Bool)
  | setPendingRestart (pending : Bool)

/-- What a step tells: the state that `set_state` replaced, what the call returned, and for an error the state that
it left. -/
inductive Reply where
  | silent
  | replaced (before : ServerState)
  | returned (executed : Bool)
  | failed (after : ServerState)

def step (m : Machine) : Action → Machine × Reply
  | .read i call =>
    match m.calls i with
    | none => (m.setPhase i call (.waiting m.lock.state), .silent)
    | some _ => (m, .silent)
  | .acquire i =>
    match m.calls i, m.lock.locked with
    | some (call, .waiting old), none =>
      ({ m with lock := { m.lock with locked := some i } }.setPhase i call (.holding old), .silent)
    | some (call, .waiting _), some _ =>
      -- `try_lock` fails at once, `lock` waits
      if call.timeout then (m, .silent) else (m.setPhase i call .returned, .returned false)
    | _, _ => (m, .silent)
  | .expire i =>
    match m.calls i with
    | some (call, .waiting _) =>
      if call.timeout then (m.setPhase i call .returned, .returned false) else (m, .silent)
    | _ => (m, .silent)
  | .set i =>
    match m.calls i with
    | some (call, .holding old) =>
      ({ m with lock := (m.lock.setState call.state).1 }.setPhase i call (.acting old), .replaced m.lock.state)
    | _ => (m, .silent)
  | .finish i ok =>
    match m.calls i with
    | some (call, .acting old) =>
      if ok then
        ({ m with lock := { m.lock with locked := none } }.setPhase i call .returned, .returned true)
      else
        let lock := (m.lock.setState old).1
        ({ m with lock := { lock with locked := none } }.setPhase i call .returned, .failed lock.state)
    | _ => (m, .silent)
  | .setPendingRestart pending => ({ m with lock := (m.lock.setPendingRestart pending).1 }, .silent)

/-- A failed action leaves the state that it replaced. -/
def FailuresRestore (tr : List (Action × Reply)) : Prop :=
  ∀ i before after, (.set i, .replaced before) ∈ tr → (.finish i false, .failed after) ∈ tr → after = before

/-- A call that acquires the lock does so in the state that it read. -/
def Undisturbed (_ : List (Action × Reply)) (m : Machine) (a : Action) : Prop :=
  ∀ i call old, a = .acquire i → m.calls i = some (call, .waiting old) → m.lock.locked = none → m.lock.state = old

/-! ## What a step does -/

variable {m : Machine} {tr : List (Action × Reply)} {call : Call} {lock : ServerStateLock} {i : ℕ} {phase : Phase}

/-- A step that is about a call takes it to its next phase. -/
inductive Stepped (m : Machine) : Action → Machine × Reply → Prop
  | idle (a : Action) : Stepped m a (m, .silent)
  | pendingRestart (pending : Bool) :
    Stepped m (.setPendingRestart pending) ({ m with lock := (m.lock.setPendingRestart pending).1 }, .silent)
  | read {i : ℕ} {call : Call} (h : m.calls i = none) :
    Stepped m (.read i call) (m.setPhase i call (.waiting m.lock.state), .silent)
  | acquire {i : ℕ} {call : Call} {old : ServerState} (h : m.calls i = some (call, .waiting old))
    (hfree : m.lock.locked = none) : Stepped m (.acquire i)
      ({ m with lock := { m.lock with locked := some i } }.setPhase i call (.holding old), .silent)
  | giveUp {i : ℕ} {call : Call} {old : ServerState} (a : Action) (h : m.calls i = some (call, .waiting old)) :
    Stepped m a (m.setPhase i call .returned, .returned false)
  | set {i : ℕ} {call : Call} {old : ServerState} (h : m.calls i = some (call, .holding old)) :
    Stepped m (.set i)
      ({ m with lock := (m.lock.setState call.state).1 }.setPhase i call (.acting old), .replaced m.lock.state)
  | succeed {i : ℕ} {call : Call} {old : ServerState} (h : m.calls i = some (call, .acting old)) :
    Stepped m (.finish i true)
      ({ m with lock := { m.lock with locked := none } }.setPhase i call .returned, .returned true)
  | fail {i : ℕ} {call : Call} {old : ServerState} (h : m.calls i = some (call, .acting old)) :
    Stepped m (.finish i false)
      ({ m with lock := { (m.lock.setState old).1 with locked := none } }.setPhase i call .returned,
        .failed (m.lock.setState old).1.state)

theorem stepped_step (m : Machine) (a : Action) : Stepped m a (step m a) := by
  cases a <;> simp only [step]
  case read i call =>
    split
    next h => exact .read h
    · exact .idle _
  case acquire i =>
    split
    next h hfree => exact .acquire h hfree
    next h _ =>
      split_ifs
      · exact .idle _
      · exact .giveUp _ h
    · exact .idle _
  case expire i =>
    split
    next h =>
      split_ifs
      · exact .giveUp _ h
      · exact .idle _
    · exact .idle _
  case set i =>
    split
    next h => exact .set h
    · exact .idle _
  case finish i ok =>
    split
    next old h =>
      cases ok with
      | true => exact .succeed h
      | false => exact .fail h
    · exact .idle _
  case setPendingRestart pending => exact .pendingRestart pending

theorem calls_setPhase_self (m : Machine) (i : ℕ) (call : Call) (phase : Phase) :
    (m.setPhase i call phase).calls i = some (call, phase) :=
  update_self _ _ _

theorem calls_setPhase_of_ne (m : Machine) {j : ℕ} (h : j ≠ i) (call : Call) (phase : Phase) :
    (m.setPhase i call phase).calls j = m.calls j :=
  update_of_ne h _ _

/-! ## The lock -/

def Phase.isLocked : Phase → Bool
  | .holding _ | .acting _ => true
  | _ => false

/-- One call has the lock, and while it is about to set the state this is the state that it read. -/
structure Locks (m : Machine) : Prop where
  owner : ∀ i call phase, m.calls i = some (call, phase) → phase.isLocked = true → m.lock.locked = some i
  holding : ∀ i call old, m.calls i = some (call, .holding old) → m.lock.state = old

/-- A call goes to its next phase; the lock is as before, or no other call has it. -/
theorem Locks.setPhase (h : Locks m)
    (hothers : ∀ j call phase, j ≠ i → m.calls j = some (call, phase) → phase.isLocked = true →
      lock.locked = m.lock.locked ∧ lock.state = m.lock.state)
    (hself : phase.isLocked = true → lock.locked = some i) (hstate : ∀ old, phase = .holding old → lock.state = old) :
    Locks ({ m with lock := lock }.setPhase i call phase) := by
  refine ⟨fun j call' phase' hcall hlocked => ?_, fun j call' old hcall => ?_⟩ <;> by_cases hj : j = i
  · subst hj
    rw [calls_setPhase_self] at hcall
    cases hcall
    exact hself hlocked
  · rw [calls_setPhase_of_ne _ hj] at hcall
    exact (hothers j call' phase' hj hcall hlocked).1.trans (h.owner j call' phase' hcall hlocked)
  · subst hj
    rw [calls_setPhase_self] at hcall
    cases hcall
    exact hstate old rfl
  · rw [calls_setPhase_of_ne _ hj] at hcall
    exact (hothers j call' _ hj hcall rfl).2.trans (h.holding j call' old hcall)

theorem Locks.alone (h : Locks m) (hcall : m.calls i = some (call, phase))
    (hlocked : phase.isLocked = true) {P : Prop} (j : ℕ) (call' : Call) (phase' : Phase) (hj : j ≠ i)
    (hcall' : m.calls j = some (call', phase')) (hlocked' : phase'.isLocked = true) : P := by
  have hi := h.owner i call phase hcall hlocked
  rw [h.owner j call' phase' hcall' hlocked'] at hi
  exact absurd (Option.some.inj hi) hj

theorem locks_step (h : Locks m) {a : Action} (hg : Undisturbed tr m a) : Locks (step m a).1 := by
  generalize hr : step m a = r
  have hstep := hr ▸ stepped_step m a
  cases hstep with
  | idle => exact h
  | pendingRestart pending =>
    refine ⟨fun i call phase hcall hlocked => ?_, fun i call old hcall => ?_⟩
    · exact (ServerStateLock.locked_setPendingRestart _ _).trans (h.owner i call phase hcall hlocked)
    · exact (ServerStateLock.state_setPendingRestart _ _).trans (h.holding i call old hcall)
  | read => exact h.setPhase (fun _ _ _ _ _ _ => ⟨rfl, rfl⟩) nofun nofun
  | giveUp => exact h.setPhase (fun _ _ _ _ _ _ => ⟨rfl, rfl⟩) nofun nofun
  | @acquire i call old hcall hfree =>
    refine h.setPhase (fun j call' phase' _ hcall' hlocked => ?_) (fun _ => rfl) fun old' heq => ?_
    · rw [h.owner j call' phase' hcall' hlocked] at hfree
      cases hfree
    · cases heq
      exact hg i call old rfl hcall hfree
  | @set i call old hcall =>
    refine h.setPhase (h.alone hcall rfl) (fun _ => ?_) nofun
    exact (ServerStateLock.locked_setState _ _).trans (h.owner i call _ hcall rfl)
  | succeed hcall => exact h.setPhase (h.alone hcall rfl) nofun nofun
  | fail hcall => exact h.setPhase (h.alone hcall rfl) nofun nofun

/-! ## The steps so far -/

/-- A call that has set the state keeps what it replaced until it returns. -/
structure Logged (tr : List (Action × Reply)) (m : Machine) : Prop where
  replaced : ∀ i before, (.set i, .replaced before) ∈ tr →
    ∃ call, m.calls i = some (call, .acting before) ∨ m.calls i = some (call, .returned)
  failed : ∀ i after, (.finish i false, .failed after) ∈ tr → ∃ call, m.calls i = some (call, .returned)
  restore : FailuresRestore tr

/-- The call has set the state. -/
def Phase.isLate : Phase → Bool
  | .acting _ | .returned => true
  | _ => false

/-- The calls that have set the state stay as they are or return. -/
def Later (m m' : Machine) : Prop :=
  ∀ i call, (∀ old, m.calls i = some (call, .acting old) →
    m'.calls i = some (call, .acting old) ∨ m'.calls i = some (call, .returned)) ∧
    (m.calls i = some (call, .returned) → m'.calls i = some (call, .returned))

theorem Later.of_lock (m : Machine) (lock : ServerStateLock) : Later m { m with lock := lock } :=
  fun _ _ => ⟨fun _ h => .inl h, id⟩

theorem later_setPhase
    (hself : ∀ call' phase', m.calls i = some (call', phase') → phase'.isLate = true → call' = call ∧ phase = .returned) :
    Later m ({ m with lock := lock }.setPhase i call phase) := by
  intro j call'
  by_cases hj : j = i
  · subst hj
    rw [calls_setPhase_self]
    refine ⟨fun old hold => .inr ?_, fun hret => ?_⟩
    · obtain ⟨rfl, rfl⟩ := hself _ _ hold rfl
      rfl
    · obtain ⟨rfl, rfl⟩ := hself _ _ hret rfl
      rfl
  · rw [calls_setPhase_of_ne _ hj]
    exact ⟨fun _ h => .inl h, id⟩

theorem later_of_early {call' : Call} {phase' : Phase}
    (hcall : m.calls i = some (call', phase')) (hearly : phase'.isLate = false) :
    Later m ({ m with lock := lock }.setPhase i call phase) := by
  refine later_setPhase fun call₁ phase₁ hcall₁ hlate => ?_
  rw [hcall] at hcall₁
  cases hcall₁
  rw [hearly] at hlate
  cases hlate

theorem later_of_return
    (hcall : m.calls i = some (call, phase)) : Later m ({ m with lock := lock }.setPhase i call .returned) := by
  refine later_setPhase fun call₁ phase₁ hcall₁ _ => ?_
  rw [hcall] at hcall₁
  cases hcall₁
  exact ⟨rfl, rfl⟩

theorem Logged.later (h : Logged tr m) {m' : Machine} (hlater : Later m m') : Logged tr m' := by
  refine ⟨fun i before hset => ?_, fun i after hfail => ?_, h.restore⟩
  · obtain ⟨call, hcall | hcall⟩ := h.replaced i before hset
    · exact ⟨call, (hlater i call).1 before hcall⟩
    · exact ⟨call, .inr ((hlater i call).2 hcall)⟩
  · obtain ⟨call, hcall⟩ := h.failed i after hfail
    exact ⟨call, (hlater i call).2 hcall⟩

theorem Logged.quiet (h : Logged tr m) (a : Action) {r : Reply} (hset : ∀ before, r ≠ .replaced before)
    (hfail : ∀ after, r ≠ .failed after) : Logged (tr ++ [(a, r)]) m := by
  have hold : ∀ a' r', (a', r') ∈ tr ++ [(a, r)] → r' ≠ r → (a', r') ∈ tr := by
    intro a' r' hmem hne
    rcases mem_append.mp hmem with hmem | hmem
    · exact hmem
    · exact absurd (congrArg Prod.snd (mem_singleton.mp hmem)) hne
  exact ⟨fun i before hmem => h.replaced i before (hold _ _ hmem (hset before).symm),
    fun i after hmem => h.failed i after (hold _ _ hmem (hfail after).symm),
    fun i before after hmem hmem' => h.restore i before after (hold _ _ hmem (hset before).symm)
      (hold _ _ hmem' (hfail after).symm)⟩

theorem Logged.set (h : Logged tr m) {before : ServerState}
    (hcall : m.calls i = some (call, .acting before)) : Logged (tr ++ [(.set i, .replaced before)]) m := by
  refine ⟨?_, ?_, ?_⟩ <;> simp only [FailuresRestore, mem_append, mem_singleton, Prod.mk.injEq, Action.set.injEq,
    Reply.replaced.injEq, reduceCtorEq, false_and, or_false]
  · rintro j b (hold | ⟨rfl, rfl⟩)
    · exact h.replaced j b hold
    · exact ⟨call, .inl hcall⟩
  · exact h.failed
  · rintro j b after (hold | ⟨rfl, rfl⟩) hmem
    · exact h.restore j b after hold hmem
    · obtain ⟨call', hcall'⟩ := h.failed j after hmem
      rw [hcall] at hcall'
      cases hcall'

theorem Logged.fail (h : Logged tr m) {after : ServerState} {m' : Machine}
    (hcall : m.calls i = some (call, .acting after)) (hlater : Later m m')
    (hreturned : m'.calls i = some (call, .returned)) :
    Logged (tr ++ [(.finish i false, .failed after)]) m' := by
  have h' := h.later hlater
  refine ⟨?_, ?_, ?_⟩ <;> simp only [FailuresRestore, mem_append, mem_singleton, Prod.mk.injEq, Action.finish.injEq,
    Reply.failed.injEq, reduceCtorEq, false_and, or_false, and_true]
  · exact h'.replaced
  · rintro j b (hold | ⟨rfl, rfl⟩)
    · exact h'.failed j b hold
    · exact ⟨call, hreturned⟩
  · rintro j before b hmem (hold | ⟨rfl, rfl⟩)
    · exact h.restore j before b hmem hold
    · obtain ⟨call', hcall' | hcall'⟩ := h.replaced j before hmem
      · rw [hcall] at hcall'
        cases hcall'
        rfl
      · rw [hcall] at hcall'
        cases hcall'

theorem logged_step (hlocks : Locks m) (h : Logged tr m) (a : Action) :
    Logged (tr ++ [(a, (step m a).2)]) (step m a).1 := by
  generalize hr : step m a = r
  have hstep := hr ▸ stepped_step m a
  cases hstep with
  | idle => exact h.quiet a nofun nofun
  | pendingRestart => exact (h.later (Later.of_lock m _)).quiet _ nofun nofun
  | read hnone =>
    refine (h.later (later_setPhase fun call' phase' hcall' => ?_)).quiet _ nofun nofun
    rw [hnone] at hcall'
    cases hcall'
  | giveUp _ hcall => exact (h.later (later_of_early hcall rfl)).quiet _ nofun nofun
  | acquire hcall _ => exact (h.later (later_of_early hcall rfl)).quiet _ nofun nofun
  | @set i call old hcall =>
    rw [hlocks.holding i call old hcall]
    exact (h.later (later_of_early hcall rfl)).set (calls_setPhase_self _ _ _ _)
  | succeed hcall => exact (h.later (later_of_return hcall)).quiet _ nofun nofun
  | fail hcall =>
    rw [ServerStateLock.state_setState]
    exact h.fail hcall (later_of_return hcall) (calls_setPhase_self _ _ _ _)

/-- **A failed action restores the state that it replaced** in every run where each call acquires the lock in the
state that it read. -/
theorem failures_restore {as : List Action} (hg : Steps step Undisturbed Machine.new as) :
    FailuresRestore (trace step Machine.new as) := by
  have hnew : Locks Machine.new := ⟨fun _ _ _ h => (nomatch h), fun _ _ _ h => (nomatch h)⟩
  refine (inv_of_steps (I := fun tr m => Locks m ∧ Logged tr m) ⟨hnew, nofun, nofun, nofun⟩ ?_ hg).2.restore
  rintro tr m a ⟨hlocks, hlogged⟩ hguard
  exact ⟨locks_step hlocks hguard, logged_step hlocks hlogged a⟩

/-- A stop that fails after a start. -/
def undisturbedRun : List Action :=
  [.read 0 ⟨.starting, false⟩, .acquire 0, .set 0, .finish 0 true,
    .read 1 ⟨.stopping, true⟩, .acquire 1, .set 1, .finish 1 false]

theorem failures_restore_start : FailuresRestore (trace step Machine.new undisturbedRun) := by
  refine failures_restore ?_
  have hother : ∀ (tr : List (Action × Reply)) (m : Machine) (a : Action), (∀ i, a ≠ .acquire i) → Undisturbed tr m a :=
    fun tr m a ha i call old heq => absurd heq (ha i)
  have hacquire : ∀ (tr : List (Action × Reply)) (m : Machine) (i : ℕ) (call : Call),
      m.calls i = some (call, .waiting m.lock.state) → Undisturbed tr m (.acquire i) := by
    rintro tr m i call hcall _ call' old ⟨⟩ hcall' _
    rw [hcall] at hcall'
    cases hcall'
    rfl
  simp only [undisturbedRun, steps_cons]
  exact ⟨hother _ _ _ nofun, hacquire _ _ 0 _ rfl, hother _ _ _ nofun, hother _ _ _ nofun, hother _ _ _ nofun,
    hacquire _ _ 1 _ rfl, hother _ _ _ nofun, hother _ _ _ nofun, steps_nil⟩

/-- A stop waits for the lock of a start that succeeds, and fails. -/
def overtakenRun : List Action :=
  [.read 0 ⟨.starting, false⟩, .acquire 0, .read 1 ⟨.stopping, true⟩, .set 0, .finish 0 true,
    .acquire 1, .set 1, .finish 1 false]

/-- The failed stop leaves the server offline, as it was before the start. -/
theorem failure_undoes_action : ¬FailuresRestore (trace step Machine.new overtakenRun) := by
  have htrace : trace step Machine.new overtakenRun =
      [(.read 0 ⟨.starting, false⟩, .silent), (.acquire 0, .silent), (.read 1 ⟨.stopping, true⟩, .silent),
        (.set 0, .replaced .offline), (.finish 0 true, .returned true), (.acquire 1, .silent),
        (.set 1, .replaced .starting), (.finish 1 false, .failed .offline)] := rfl
  rw [htrace]
  intro h
  exact nomatch h 1 .starting .offline (by simp) (by simp)

end Wings.Server.State
