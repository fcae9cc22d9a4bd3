import Wings.Lib.IndexMap
import Wings.Lib.Run
import Wings.Lib.Text

/-!
# Wings.Schedule.ConsoleLine — how a console line reaches the run it triggers

`server/schedule/mod.rs`: a console trigger puts an execution context with the line in a slot and then notifies the
executor; the executor wakes up by a permit and then takes what is in the slot.  Storing, notifying, waking up and
taking are steps of their own, and other triggers and manual calls come in between.

* `ExecutionContext`, `storeVariable`.
* **`runs_see_their_line`**
-/

namespace Wings.Schedule.ConsoleLine

open Lib List

/-! ## Variables -/

def maxVariables : ℕ := 64

def maxVariableSize : ℕ := 16 * 1024

def byteLength (text : Text) : ℕ := (text.map Char.utf8Size).sum

structure ExecutionContext where
  scheduleUuid : ℕ
  /-- `variables`. -/
  stored : IndexMap Text Text

def ExecutionContext.new (scheduleUuid : ℕ) : ExecutionContext := ⟨scheduleUuid, []⟩

def ExecutionContext.storeVariable (variable_ value : Text) (context : ExecutionContext) : Except Text ExecutionContext :=
  if maxVariableSize < byteLength value then
    throw ("variable `".toList ++ variable_ ++ "` exceeds the maximum size of 16384 bytes.".toList)
  else if (IndexMap.find variable_ context.stored).isNone && maxVariables ≤ context.stored.length then
    throw "a schedule may not store more than 64 variables.".toList
  else pure { context with stored := IndexMap.insert variable_ value context.stored }

/-! ## The machine -/

inductive Executor where
  | waiting
  /-- Woken up by a permit with these matches, before the slot is taken. -/
  | woken (contributors : List ℕ)
  | running

structure State where
  nextExecutionContext : Option ExecutionContext
  /-- The permit of `executor_notifier`. -/
  permit : Option (List ℕ)
  /-- The permit of `executor_skip_notifier`. -/
  skipPermit : Bool
  /-- The match that the console task has stored and not yet notified. -/
  storing : Option ℕ
  executor : Executor
  /-- The lines that have matched. -/
  matched : List Text

inductive Event where
  /-- A line matches, and its context is stored. -/
  | store (line : Text)
  /-- The console task notifies the executor. -/
  | notify
  /-- Another trigger, or a manual call; with `skip_condition` it has a notifier of its own. -/
  | trigger (skipCondition : Bool)
  | wake (skipCondition : Bool)
  /-- The executor takes the slot and starts with what it finds. -/
  | take
  | finish

def State.initial : State := ⟨none, none, false, none, .waiting, []⟩

/-- The context that a line is stored in; a line that is too long leaves it without the variable. -/
def lineContext (scheduleUuid : ℕ) (outputInto line : Text) : ExecutionContext :=
  match (ExecutionContext.new scheduleUuid).storeVariable outputInto line with
  | .ok context => context
  | .error _ => .new scheduleUuid

variable (scheduleUuid : ℕ) (outputInto : Text)

/-- One step; a start of the executor answers with the matches that woke it and its context. -/
def step (state : State) : Event → State × Option (List ℕ × ExecutionContext)
  | .store line =>
    match state.storing with
    | none =>
      ({ state with
          nextExecutionContext := some (lineContext scheduleUuid outputInto line)
          storing := some state.matched.length
          matched := state.matched ++ [line] }, none)
    | some _ => (state, none)
  | .notify =>
    match state.storing with
    | none => (state, none)
    | some index => ({ state with storing := none, permit := some (index :: state.permit.getD []) }, none)
  | .trigger skipCondition =>
    if skipCondition then ({ state with skipPermit := true }, none)
    else ({ state with permit := some (state.permit.getD []) }, none)
  | .wake skipCondition =>
    match state.executor with
    | .waiting =>
      if skipCondition then
        if state.skipPermit then ({ state with skipPermit := false, executor := .woken [] }, none) else (state, none)
      else
        match state.permit with
        | none => (state, none)
        | some contributors => ({ state with permit := none, executor := .woken contributors }, none)
    | _ => (state, none)
  | .take =>
    match state.executor with
    | .woken contributors =>
      ({ state with nextExecutionContext := none, executor := .running },
        some (contributors, state.nextExecutionContext.getD (.new scheduleUuid)))
    | _ => (state, none)
  | .finish =>
    match state.executor with
    | .running => ({ state with executor := .waiting }, none)
    | _ => (state, none)

/-! ## Lines and runs -/

/-- The context holds a line that matched no earlier than a match. -/
def Sees (matched : List Text) (index : ℕ) (context : ExecutionContext) : Prop :=
  ∃ later line, index ≤ later ∧ matched[later]? = some line ∧ IndexMap.find outputInto context.stored = some line

/-- The matches that are on their way to the executor, after one that is already awake. -/
def State.underway (state : State) : List ℕ := state.storing.toList ++ state.permit.getD []

def State.contributors (state : State) : List ℕ :=
  match state.executor with
  | .woken contributors => contributors
  | _ => []

/-- The executor takes the slot while no match is on its way, and lines are not too long. -/
def Calm (state : State) : Event → Prop
  | .store line => byteLength line ≤ maxVariableSize
  | .take => state.underway = []
  | _ => True

variable {scheduleUuid outputInto} {matched : List Text} {index : ℕ} {context : ExecutionContext} {state : State}

open State

theorem Sees.append (h : Sees outputInto matched index context) (lines : List Text) :
    Sees outputInto (matched ++ lines) index context := by
  obtain ⟨later, line, hle, hmatched, hfind⟩ := h
  refine ⟨later, line, hle, ?_, hfind⟩
  rw [getElem?_append_left (List.getElem?_eq_some_iff.mp hmatched).1, hmatched]

theorem Sees.lt (h : Sees outputInto matched index context) : index < matched.length := by
  obtain ⟨later, line, hle, hmatched, -⟩ := h
  exact hle.trans_lt (List.getElem?_eq_some_iff.mp hmatched).1

theorem sees_lineContext {line : Text} (hline : byteLength line ≤ maxVariableSize) (hindex : index ≤ matched.length) :
    Sees outputInto (matched ++ [line]) index (lineContext scheduleUuid outputInto line) := by
  refine ⟨matched.length, line, hindex, getElem?_concat_length, ?_⟩
  have hstore : (ExecutionContext.new scheduleUuid).storeVariable outputInto line =
      .ok ⟨scheduleUuid, IndexMap.insert outputInto line []⟩ := by
    rw [ExecutionContext.storeVariable, if_neg (not_lt.mpr hline)]
    rfl
  rw [lineContext, hstore]
  exact IndexMap.find_insert_self outputInto line []

variable (outputInto) in
/-- What a run keeps: starts have seen their lines, and a match that is on its way finds its line in the slot. -/
structure Inv (trace : List (Event × Option (List ℕ × ExecutionContext))) (state : State) : Prop where
  seen : ∀ event contributors context, (event, some (contributors, context)) ∈ trace →
    ∀ index ∈ contributors, Sees outputInto state.matched index context
  owed : ∀ index ∈ state.underway ++ state.contributors,
    ∃ context, state.nextExecutionContext = some context ∧ Sees outputInto state.matched index context

variable {trace : List (Event × Option (List ℕ × ExecutionContext))}

variable (scheduleUuid outputInto state trace) in
/-- The invariant holds after the event. -/
def Keeps (event : Event) : Prop :=
  let (state', start) := step scheduleUuid outputInto state event
  Inv outputInto (trace ++ [(event, start)]) state'

section

variable (h : Inv outputInto trace state)
include h

theorem Inv.of_quiet {state' : State} {event : Event} (hmatched : state'.matched = state.matched)
    (hslot : state'.nextExecutionContext = state.nextExecutionContext)
    (hpending : state'.underway ++ state'.contributors ⊆ state.underway ++ state.contributors) :
    Inv outputInto (trace ++ [(event, none)]) state' := by
  refine ⟨fun event contributors context hmem => ?_, fun index hindex => ?_⟩
  · rw [hmatched]
    rcases mem_append.mp hmem with hmem | hmem
    · exact h.seen event contributors context hmem
    · cases mem_singleton.mp hmem
  · rw [hslot, hmatched]
    exact h.owed index (hpending hindex)

theorem Inv.store {line : Text} (hline : byteLength line ≤ maxVariableSize) :
    Keeps scheduleUuid outputInto state trace (.store line) := by
  rw [Keeps, step]
  cases hstoring : state.storing with
  | some index => exact h.of_quiet rfl rfl (Subset.refl _)
  | none =>
    refine ⟨fun event contributors context hmem index hindex => ?_, fun index hindex => ⟨_, rfl, ?_⟩⟩
    · rcases mem_append.mp hmem with hmem | hmem
      · exact (h.seen event contributors context hmem index hindex).append [line]
      · cases mem_singleton.mp hmem
    · refine sees_lineContext hline ?_
      rcases mem_cons.mp hindex with rfl | hindex
      · exact le_refl _
      · have hold : index ∈ state.underway ++ state.contributors := by
          rw [underway, hstoring]
          exact hindex
        obtain ⟨context, -, hsees⟩ := h.owed index hold
        exact hsees.lt.le

theorem Inv.notify : Keeps scheduleUuid outputInto state trace .notify := by
  rw [Keeps, step]
  cases hstoring : state.storing with
  | none => exact h.of_quiet rfl rfl (Subset.refl _)
  | some index =>
    refine h.of_quiet rfl rfl ?_
    rw [underway, underway, hstoring]
    exact Subset.refl _

variable (skipCondition : Bool)

theorem Inv.trigger : Keeps scheduleUuid outputInto state trace (.trigger skipCondition) := by
  cases skipCondition <;> exact h.of_quiet rfl rfl (Subset.refl _)

theorem Inv.wake : Keeps scheduleUuid outputInto state trace (.wake skipCondition) := by
  rw [Keeps, step]
  cases hexecutor : state.executor with
  | waiting =>
    cases skipCondition with
    | true =>
      dsimp only
      rw [if_pos rfl]
      split
      · refine h.of_quiet rfl rfl ?_
        rw [contributors, contributors, hexecutor]
        exact Subset.refl _
      · exact h.of_quiet rfl rfl (Subset.refl _)
    | false =>
      dsimp only
      rw [if_neg Bool.false_ne_true]
      split
      · exact h.of_quiet rfl rfl (Subset.refl _)
      next contributors hpermit =>
        refine h.of_quiet rfl rfl ?_
        rw [underway, underway, State.contributors, hpermit]
        simp
  | _ => exact h.of_quiet rfl rfl (Subset.refl _)

theorem Inv.take (hcalm : state.underway = []) : Keeps scheduleUuid outputInto state trace .take := by
  rw [Keeps, step]
  cases hexecutor : state.executor with
  | woken contributors =>
    refine ⟨fun event contributors' context hmem index hindex => ?_, fun index hindex => ?_⟩
    · rcases mem_append.mp hmem with hmem | hmem
      · exact h.seen event contributors' context hmem index hindex
      · obtain ⟨-, hstart⟩ := Prod.mk.inj (mem_singleton.mp hmem)
        obtain ⟨rfl, rfl⟩ := Prod.mk.inj (Option.some.inj hstart)
        have hpending : index ∈ state.underway ++ state.contributors := by
          rw [hcalm, contributors, hexecutor]
          exact hindex
        obtain ⟨context, hslot, hsees⟩ := h.owed index hpending
        rw [hslot]
        exact hsees
    · have hnone : index ∈ state.underway ++ [] := hindex
      rw [hcalm] at hnone
      cases hnone
  | _ => exact h.of_quiet rfl rfl (Subset.refl _)

theorem Inv.finish : Keeps scheduleUuid outputInto state trace .finish := by
  rw [Keeps, step]
  cases hexecutor : state.executor with
  | running =>
    refine h.of_quiet rfl rfl ?_
    rw [contributors, contributors, hexecutor]
    exact Subset.refl _
  | _ => exact h.of_quiet rfl rfl (Subset.refl _)

end

variable (scheduleUuid outputInto) in
/-- **Every run sees the line that woke it**, if no start of the executor empties the slot while another match is
on its way, and no line is too long for a variable. -/
theorem runs_see_their_line (events : List Event)
    (hcalm : Steps (step scheduleUuid outputInto) (fun _ state event => Calm state event) State.initial events) :
    ∀ event contributors context,
      (event, some (contributors, context)) ∈ Lib.trace (step scheduleUuid outputInto) State.initial events →
        ∀ index ∈ contributors,
          Sees outputInto (exec (step scheduleUuid outputInto) State.initial events).matched index context := by
  have hinitial : Inv outputInto [] State.initial := ⟨nofun, fun index hindex => absurd hindex not_mem_nil⟩
  refine (inv_of_steps hinitial ?_ hcalm).seen
  intro tr state event h hstep
  show Keeps scheduleUuid outputInto state tr event
  cases event with
  | store line => exact h.store hstep
  | notify => exact h.notify
  | trigger skipCondition => exact h.trigger skipCondition
  | wake skipCondition => exact h.wake skipCondition
  | take => exact h.take hstep
  | finish => exact h.finish

/-- A line matches, notifies and is seen. -/
theorem one_line_is_seen :
    Sees ['l'] (exec (step 0 ['l']) initial [.store ['x'], .notify, .wake false, .take]).matched 0
      (lineContext 0 ['l'] ['x']) :=
  runs_see_their_line 0 ['l'] [.store ['x'], .notify, .wake false, .take]
    (steps_cons.mpr ⟨(by decide : byteLength ['x'] ≤ maxVariableSize), steps_cons.mpr ⟨trivial, steps_cons.mpr ⟨trivial,
      steps_cons.mpr ⟨rfl, steps_nil⟩⟩⟩⟩)
    .take [0] _ (.tail _ (.tail _ (.tail _ (.head _)))) 0 (mem_singleton_self 0)

/-- The line is stored, another trigger wakes the executor, which takes it, and then the console task notifies: the
run that the match wakes has no line. -/
theorem line_taken_by_another_run :
    let events := [.store ['x'], .trigger false, .wake false, .take, .finish, .notify, .wake false, .take]
    (.take, some ([0], .new 0)) ∈ Lib.trace (step 0 ['l']) initial events ∧
      ¬ Sees ['l'] (exec (step 0 ['l']) initial events).matched 0 (.new 0) := by
  refine ⟨.tail _ (.tail _ (.tail _ (.tail _ (.tail _ (.tail _ (.tail _ (.head _))))))), ?_⟩
  rintro ⟨later, line, -, -, hfind⟩
  cases hfind

end Wings.Schedule.ConsoleLine
