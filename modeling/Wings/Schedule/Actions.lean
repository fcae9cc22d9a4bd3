import Wings.Lib.IndexMap

/-!
# Wings.Schedule.Actions — the actions of a schedule

`server/schedule/mod.rs`: the executor goes through a flat list of actions with a stack of frames, one for each
`if` that is open.  The list stands for a program of nested blocks.

* `RawAction`, `validateActionStructure` — the list and its check.
* **`executor_runs_program`**
-/

namespace Wings.Schedule

open Lib List

/-! ## Actions -/

/-- `actions::ScheduleAction` over conditions `κ` and the actions `α` that do something. -/
inductive Action (κ α : Type) where
  | if_ (condition : κ)
  | elseIf (condition : κ)
  | else_
  | endIf
  | exit (successful : Bool)
  | other (action : α)

structure RawAction (κ α : Type) where
  uuid : ℕ
  action : Action κ α

variable {κ α σ : Type}

def maxIfDepth : ℕ := 8

/-- The loop of `validate_action_structure`, over the blocks that are open and whether their `else` was seen. -/
def validateFrom : List (RawAction κ α) → List (ℕ × Bool) → Except (ℕ × String) Unit
  | [], stack =>
    match stack with
    | [] => pure ()
    | (uuid, _) :: _ => throw (uuid, "`if` block is never closed with `end_if`")
  | ⟨uuid, action⟩ :: actions, stack =>
    match action with
    | .if_ _ =>
      if maxIfDepth ≤ stack.length then throw (uuid, "maximum `if` nesting depth exceeded")
      else validateFrom actions ((uuid, false) :: stack)
    | .elseIf _ =>
      match stack with
      | [] => throw (uuid, "`else_if` without a matching `if`")
      | (_, true) :: _ => throw (uuid, "`else_if` after `else` in the same block")
      | (_, false) :: _ => validateFrom actions stack
    | .else_ =>
      match stack with
      | [] => throw (uuid, "`else` without a matching `if`")
      | (_, true) :: _ => throw (uuid, "multiple `else` in the same block")
      | (opened, false) :: stack => validateFrom actions ((opened, true) :: stack)
    | .endIf =>
      match stack with
      | [] => throw (uuid, "`end_if` without a matching `if`")
      | _ :: stack => validateFrom actions stack
    | _ => validateFrom actions stack

def validateActionStructure (actions : List (RawAction κ α)) : Except (ℕ × String) Unit := validateFrom actions []

/-! ## The executor -/

/-- What conditions and actions do; both take time, in which the world goes on. -/
structure Env (κ α σ : Type) where
  evaluate : κ → σ → Bool × σ
  execute : α → σ → Except String Unit × σ
  ignoreFailure : α → Bool

inductive Event where
  | evaluated (uuid : ℕ) (result : Bool)
  | executed (uuid : ℕ) (result : Except String Unit)
  | exited (uuid : ℕ)

/-- The world with its execution context, the errors of the run and what has been done. -/
structure Context (σ : Type) where
  world : σ
  errors : IndexMap ℕ String
  trace : List Event

inductive Notice where
  | status (step : ℕ)
  | stepStatus (step : ℕ) (skipped : Bool)
  | stepError (step : ℕ) (error : String)

namespace Context

def evaluate (env : Env κ α σ) (uuid : ℕ) (condition : κ) (context : Context σ) : Bool × Context σ :=
  let (result, world) := env.evaluate condition context.world
  (result, { context with world, trace := context.trace ++ [.evaluated uuid result] })

/-- The result stops the run if it is a failure that is not ignored. -/
def execute (env : Env κ α σ) (uuid : ℕ) (action : α) (context : Context σ) :
    Context σ × Option Bool × List Notice :=
  let (result, world) := env.execute action context.world
  let trace := context.trace ++ [.executed uuid result]
  match result with
  | .ok () => ({ context with world, trace }, none, [])
  | .error err =>
    ({ world, trace, errors := IndexMap.insert uuid err context.errors },
      if env.ignoreFailure action then none else some false, [.stepError uuid err])

def exit (uuid : ℕ) (context : Context σ) : Context σ := { context with trace := context.trace ++ [.exited uuid] }

end Context

structure ConditionFrame where
  parentActive : Bool
  active : Bool
  branchTaken : Bool

/-- One iteration: the frames and the context afterwards, and the success flag of a run that ends here. -/
structure Iteration (σ : Type) where
  stack : List ConditionFrame
  context : Context σ
  stop : Option Bool
  notices : List Notice

variable (env : Env κ α σ)

/-- The body of the loop over the actions.  The last frame is the first of the list. -/
def iteration (raw : RawAction κ α) (stack : List ConditionFrame) (context : Context σ) : Iteration σ :=
  match raw.action with
  | .if_ condition =>
    let parentActive := stack.all (·.active)
    let (active, context) := if parentActive then context.evaluate env raw.uuid condition else (false, context)
    ⟨⟨parentActive, active, active⟩ :: stack, context, none, [.status raw.uuid, .stepStatus raw.uuid false]⟩
  | .elseIf condition =>
    match stack with
    | [] => ⟨[], context, none, [.status raw.uuid, .stepStatus raw.uuid false]⟩
    | frame :: stack =>
      let (active, context) :=
        if frame.parentActive && !frame.branchTaken then context.evaluate env raw.uuid condition else (false, context)
      ⟨{ frame with active, branchTaken := frame.branchTaken || active } :: stack, context, none,
        [.status raw.uuid, .stepStatus raw.uuid false]⟩
  | .else_ =>
    match stack with
    | [] => ⟨[], context, none, [.status raw.uuid, .stepStatus raw.uuid false]⟩
    | frame :: stack =>
      ⟨{ frame with active := frame.parentActive && !frame.branchTaken, branchTaken := true } :: stack, context, none,
        [.status raw.uuid, .stepStatus raw.uuid false]⟩
  | .endIf => ⟨stack.tail, context, none, [.status raw.uuid, .stepStatus raw.uuid false]⟩
  | .exit successful =>
    if !stack.all (·.active) then ⟨stack, context, none, [.status raw.uuid, .stepStatus raw.uuid true]⟩
    else ⟨stack, context.exit raw.uuid, some successful, [.status raw.uuid, .stepStatus raw.uuid false]⟩
  | .other action =>
    if !stack.all (·.active) then ⟨stack, context, none, [.status raw.uuid, .stepStatus raw.uuid true]⟩
    else
      let (context, stop, notices) := context.execute env raw.uuid action
      ⟨stack, context, stop, [.status raw.uuid, .stepStatus raw.uuid false] ++ notices⟩

/-- The loop over the actions; a run that is not stopped has no flag. -/
def runActions : List (RawAction κ α) → List ConditionFrame → Context σ → (Context σ × Option Bool) × List Notice
  | [], _, context => ((context, none), [])
  | raw :: actions, stack, context =>
    let step := iteration env raw stack context
    match step.stop with
    | some successful => ((step.context, some successful), step.notices)
    | none =>
      let (result, notices) := runActions actions step.stack step.context
      (result, step.notices ++ notices)

/-- A run of the executor from the check of the actions on: what is left, whether it was successful, and what was
told. -/
def executeActions (actions : List (RawAction κ α)) (world : σ) : (Context σ × Bool) × List Notice :=
  match validateActionStructure actions with
  | .error (uuid, err) => ((⟨world, [(uuid, err)], []⟩, false), [.stepError uuid err])
  | .ok () =>
    let ((context, stop), notices) := runActions env actions [] ⟨world, [], []⟩
    ((context, stop.getD true), notices)

/-! ## Nested blocks -/

mutual

/-- The actions at one level of nesting. -/
inductive Program (κ α : Type) where
  | done
  | other (uuid : ℕ) (action : α) (rest : Program κ α)
  | exit (uuid : ℕ) (successful : Bool) (rest : Program κ α)
  | block (uuid : ℕ) (condition : κ) (body : Program κ α) (branches : Branches κ α) (rest : Program κ α)

/-- The branches of a block after the first. -/
inductive Branches (κ α : Type) where
  | endIf (uuid : ℕ)
  | else_ (uuid : ℕ) (body : Program κ α) (endUuid : ℕ)
  | elseIf (uuid : ℕ) (condition : κ) (body : Program κ α) (rest : Branches κ α)

end

mutual

def Program.flatten : Program κ α → List (RawAction κ α)
  | .done => []
  | .other uuid action rest => ⟨uuid, .other action⟩ :: rest.flatten
  | .exit uuid successful rest => ⟨uuid, .exit successful⟩ :: rest.flatten
  | .block uuid condition body branches rest =>
    ⟨uuid, .if_ condition⟩ :: (body.flatten ++ (branches.flatten ++ rest.flatten))

def Branches.flatten : Branches κ α → List (RawAction κ α)
  | .endIf uuid => [⟨uuid, .endIf⟩]
  | .else_ uuid body endUuid => ⟨uuid, .else_⟩ :: (body.flatten ++ [⟨endUuid, .endIf⟩])
  | .elseIf uuid condition body rest => ⟨uuid, .elseIf condition⟩ :: (body.flatten ++ rest.flatten)

end

/-- What follows a run that has not been stopped. -/
def andThen (result : Context σ × Option Bool) (next : Context σ → Context σ × Option Bool) : Context σ × Option Bool :=
  match result.2 with
  | some _ => result
  | none => next result.1

mutual

/-- What a program does; a run that is stopped has the success flag. -/
def Program.exec : Program κ α → Context σ → Context σ × Option Bool
  | .done, context => (context, none)
  | .other uuid action rest, context =>
    match env.execute action context.world with
    | (.ok (), world) => rest.exec ⟨world, context.errors, context.trace ++ [.executed uuid (.ok ())]⟩
    | (.error err, world) =>
      let failed := ⟨world, IndexMap.insert uuid err context.errors, context.trace ++ [.executed uuid (.error err)]⟩
      if env.ignoreFailure action then rest.exec failed else (failed, some false)
  | .exit uuid successful _, context => (context.exit uuid, some successful)
  | .block uuid condition body branches rest, context =>
    let (holds, world) := env.evaluate condition context.world
    let context := ⟨world, context.errors, context.trace ++ [.evaluated uuid holds]⟩
    andThen (if holds then body.exec context else branches.exec context) rest.exec

def Branches.exec : Branches κ α → Context σ → Context σ × Option Bool
  | .endIf _, context => (context, none)
  | .else_ _ body _, context => body.exec context
  | .elseIf uuid condition body rest, context =>
    let (holds, world) := env.evaluate condition context.world
    let context := ⟨world, context.errors, context.trace ++ [.evaluated uuid holds]⟩
    if holds then body.exec context else rest.exec context

end

/-! ## The executor does what the program does -/

section Simulation

variable {env} (result : Context σ × Option Bool)

theorem andThen_assoc (next last : Context σ → Context σ × Option Bool) :
    andThen (andThen result next) last = andThen result fun context => andThen (next context) last := by
  obtain ⟨context, _ | successful⟩ := result <;> rfl

variable (env) in
/-- What the loop leaves, without what it tells. -/
def outcome (actions : List (RawAction κ α)) (stack : List ConditionFrame) (context : Context σ) :
    Context σ × Option Bool :=
  (runActions env actions stack context).1

variable {actions : List (RawAction κ α)} {stack : List ConditionFrame} {frame : ConditionFrame} {uuid : ℕ} {condition : κ}

theorem outcome_cons (raw : RawAction κ α) (context : Context σ) :
    outcome env (raw :: actions) stack context =
      andThen ((iteration env raw stack context).context, (iteration env raw stack context).stop)
        (outcome env actions (iteration env raw stack context).stack) := by
  rw [outcome, runActions]
  cases (iteration env raw stack context).stop <;> rfl

theorem andThen_done : andThen result (outcome env [] []) = result := by
  obtain ⟨context, _ | successful⟩ := result <;> rfl

/-! ### One action -/

theorem outcome_if_active (h : stack.all (·.active) = true) (context : Context σ) :
    outcome env (⟨uuid, .if_ condition⟩ :: actions) stack context =
      let (holds, context) := context.evaluate env uuid condition
      outcome env actions (⟨true, holds, holds⟩ :: stack) context := by
  rw [outcome_cons]
  dsimp only [iteration]
  rw [h]
  rfl

theorem outcome_if_inactive (h : stack.all (·.active) = false) (context : Context σ) :
    outcome env (⟨uuid, .if_ condition⟩ :: actions) stack context =
      outcome env actions (⟨false, false, false⟩ :: stack) context := by
  rw [outcome_cons]
  dsimp only [iteration]
  rw [h]
  rfl

theorem outcome_elseIf_next (active : Bool) (context : Context σ) :
    outcome env (⟨uuid, .elseIf condition⟩ :: actions) (⟨true, active, false⟩ :: stack) context =
      let (holds, context) := context.evaluate env uuid condition
      outcome env actions (⟨true, holds, holds⟩ :: stack) context := outcome_cons _ _

theorem outcome_elseIf_passed (h : (frame.parentActive && !frame.branchTaken) = false) (context : Context σ) :
    outcome env (⟨uuid, .elseIf condition⟩ :: actions) (frame :: stack) context =
      outcome env actions ({ frame with active := false } :: stack) context := by
  rw [outcome_cons]
  dsimp only [iteration]
  rw [h, if_neg Bool.false_ne_true, Bool.or_false]
  rfl

theorem outcome_else (context : Context σ) :
    outcome env (⟨uuid, .else_⟩ :: actions) (frame :: stack) context =
      outcome env actions ({ frame with active := frame.parentActive && !frame.branchTaken, branchTaken := true } :: stack)
        context := outcome_cons _ _

theorem outcome_endIf (context : Context σ) :
    outcome env (⟨uuid, .endIf⟩ :: actions) (frame :: stack) context = outcome env actions stack context :=
    outcome_cons _ _

theorem outcome_inactive (h : stack.all (·.active) = false) {action : Action κ α}
    (haction : (∃ successful, action = .exit successful) ∨ ∃ other, action = .other other) (context : Context σ) :
    outcome env (⟨uuid, action⟩ :: actions) stack context = outcome env actions stack context := by
  obtain ⟨successful, rfl⟩ | ⟨other, rfl⟩ := haction <;> rw [outcome_cons] <;> dsimp only [iteration] <;> rw [h] <;> rfl

/-! ### Programs -/

theorem exec_other (action : α) (rest : Program κ α) (context : Context σ) :
    (Program.other uuid action rest).exec env context =
      let (context, stop, _) := context.execute env uuid action
      andThen (context, stop) (rest.exec env) := by
  rw [Program.exec, Context.execute]
  obtain ⟨_ | _, world⟩ := env.execute action context.world
  · dsimp only
    split <;> rfl
  · rfl

mutual

theorem outcome_skip (tail : List (RawAction κ α)) (stack : List ConditionFrame) (hstack : stack.all (·.active) = false)
    (context : Context σ) : ∀ program : Program κ α,
      outcome env (program.flatten ++ tail) stack context = outcome env tail stack context
  | .done => rfl
  | .other uuid action rest => by
    rw [Program.flatten, List.cons_append, outcome_inactive hstack (.inr ⟨action, rfl⟩)]
    exact outcome_skip tail stack hstack context rest
  | .exit uuid successful rest => by
    rw [Program.flatten, List.cons_append, outcome_inactive hstack (.inl ⟨successful, rfl⟩)]
    exact outcome_skip tail stack hstack context rest
  | .block uuid condition body branches rest => by
    rw [Program.flatten, List.cons_append, outcome_if_inactive hstack, List.append_assoc, List.append_assoc,
      outcome_skip _ _ rfl context body, outcome_skip_branches _ _ stack rfl context branches]
    exact outcome_skip tail stack hstack context rest

/-- Branches of a block that is not active, or that has taken a branch, are passed over. -/
theorem outcome_skip_branches (tail : List (RawAction κ α)) (frame : ConditionFrame) (stack : List ConditionFrame)
    (hframe : (frame.parentActive && !frame.branchTaken) = false) (context : Context σ) : ∀ branches : Branches κ α,
      outcome env (branches.flatten ++ tail) (frame :: stack) context = outcome env tail stack context
  | .endIf uuid => outcome_endIf context
  | .else_ uuid body endUuid => by
    rw [Branches.flatten, List.cons_append, outcome_else, List.append_assoc, hframe, outcome_skip _ _ rfl context body]
    exact outcome_endIf context
  | .elseIf uuid condition body rest => by
    rw [Branches.flatten, List.cons_append, outcome_elseIf_passed hframe, List.append_assoc,
      outcome_skip _ _ rfl context body]
    exact outcome_skip_branches tail { frame with active := false } stack hframe context rest

end

mutual

theorem outcome_flatten (tail : List (RawAction κ α)) (stack : List ConditionFrame)
    (hstack : stack.all (·.active) = true) :
    ∀ (program : Program κ α) (context : Context σ),
      outcome env (program.flatten ++ tail) stack context = andThen (program.exec env context) (outcome env tail stack)
  | .done, context => rfl
  | .other uuid action rest, context => by
    rw [Program.flatten, List.cons_append, outcome_cons, exec_other, andThen_assoc]
    dsimp only [iteration]
    rw [hstack]
    exact congrArg (andThen _) (funext (outcome_flatten tail stack hstack rest))
  | .exit uuid successful rest, context => by
    rw [Program.flatten, List.cons_append, outcome_cons]
    dsimp only [iteration]
    rw [hstack]
    rfl
  | .block uuid condition body branches rest, context => by
    rw [Program.flatten, List.cons_append, outcome_if_active hstack, List.append_assoc, List.append_assoc, Program.exec]
    dsimp only [Context.evaluate]
    have hrest := funext (outcome_flatten tail stack hstack rest)
    rw [andThen_assoc, ← hrest]
    cases (env.evaluate condition context.world).1 with
    | true =>
      rw [if_pos rfl, outcome_flatten _ (⟨true, true, true⟩ :: stack) hstack body]
      exact congrArg (andThen _) (funext fun context => outcome_skip_branches _ _ stack rfl context branches)
    | false =>
      rw [if_neg Bool.false_ne_true, outcome_skip _ (_ :: stack) rfl _ body]
      exact outcome_flatten_branches _ false stack hstack branches _

theorem outcome_flatten_branches (tail : List (RawAction κ α)) (active : Bool) (stack : List ConditionFrame)
    (hstack : stack.all (·.active) = true) : ∀ (branches : Branches κ α) (context : Context σ),
      outcome env (branches.flatten ++ tail) (⟨true, active, false⟩ :: stack) context =
        andThen (branches.exec env context) (outcome env tail stack)
  | .endIf uuid, context => outcome_endIf context
  | .else_ uuid body endUuid, context => by
    rw [Branches.flatten, List.cons_append, outcome_else, List.append_assoc, Branches.exec]
    refine (outcome_flatten _ (⟨true, true, true⟩ :: stack) hstack body context).trans ?_
    exact congrArg (andThen _) (funext fun context => outcome_endIf context)
  | .elseIf uuid condition body rest, context => by
    rw [Branches.flatten, List.cons_append, outcome_elseIf_next, List.append_assoc, Branches.exec]
    dsimp only [Context.evaluate]
    cases (env.evaluate condition context.world).1 with
    | true =>
      rw [if_pos rfl, outcome_flatten _ (⟨true, true, true⟩ :: stack) hstack body]
      exact congrArg (andThen _) (funext fun context => outcome_skip_branches _ _ stack rfl context rest)
    | false =>
      rw [if_neg Bool.false_ne_true, outcome_skip _ (_ :: stack) rfl _ body]
      exact outcome_flatten_branches _ false stack hstack rest _

end

end Simulation

/-! ## Lists that pass the check -/

/-- The rest of a list, within the blocks that are open: what is left of the innermost, and then what follows it. -/
def Closes : List (ℕ × Bool) → List (RawAction κ α) → Prop
  | [], actions => ∃ program : Program κ α, actions = program.flatten
  | (_, elseSeen) :: stack, actions =>
    ∃ (program : Program κ α) (branches : Branches κ α) (rest : List (RawAction κ α)),
      actions = program.flatten ++ (branches.flatten ++ rest) ∧
        (elseSeen = true → ∃ uuid, branches = .endIf uuid) ∧ Closes stack rest

variable {stack : List (ℕ × Bool)}

theorem Closes.append {rest : List (RawAction κ α)} (h : Closes stack rest)
    (actions : List (RawAction κ α)) (f : Program κ α → Program κ α)
    (hf : ∀ program, (f program).flatten = actions ++ program.flatten) : Closes stack (actions ++ rest) := by
  cases stack with
  | nil =>
    obtain ⟨program, rfl⟩ := h
    exact ⟨f program, (hf program).symm⟩
  | cons frame stack =>
    obtain ⟨program, branches, rest, rfl, hseen, hrest⟩ := h
    exact ⟨f program, branches, rest, by rw [hf, append_assoc], hseen, hrest⟩

theorem closes_of_validateFrom {actions : List (RawAction κ α)}
    (h : validateFrom actions stack = .ok ()) : Closes stack actions := by
  induction actions generalizing stack with
  | nil =>
    cases stack with
    | nil => exact ⟨.done, rfl⟩
    | cons => cases h
  | cons raw actions ih =>
    obtain ⟨uuid, action⟩ := raw
    cases action with
    | if_ condition =>
      rw [validateFrom] at h
      split at h
      · cases h
      · obtain ⟨body, branches, rest, rfl, -, hrest⟩ := ih h
        have hblock := hrest.append (⟨uuid, .if_ condition⟩ :: (body.flatten ++ branches.flatten))
          (.block uuid condition body branches) fun program => by
            rw [Program.flatten, cons_append, append_assoc]
        rwa [cons_append, append_assoc] at hblock
    | elseIf condition =>
      obtain _ | ⟨⟨opened, _ | _⟩, stack⟩ := stack
      · cases h
      · obtain ⟨body, branches, rest, rfl, -, hrest⟩ := ih h
        refine ⟨.done, .elseIf uuid condition body branches, rest, ?_, nofun, hrest⟩
        rw [Branches.flatten, Program.flatten, nil_append, cons_append, append_assoc]
      · cases h
    | else_ =>
      obtain _ | ⟨⟨opened, _ | _⟩, stack⟩ := stack
      · cases h
      · obtain ⟨body, branches, rest, rfl, hseen, hrest⟩ :=
          ih (show validateFrom actions ((opened, true) :: stack) = .ok () from h)
        obtain ⟨endUuid, rfl⟩ := hseen rfl
        refine ⟨.done, .else_ uuid body endUuid, rest, ?_, nofun, hrest⟩
        simp only [Branches.flatten, Program.flatten, nil_append, cons_append, append_assoc]
      · cases h
    | endIf =>
      obtain _ | ⟨frame, stack⟩ := stack
      · cases h
      · exact ⟨.done, .endIf uuid, actions, rfl, fun _ => ⟨uuid, rfl⟩, ih h⟩
    | exit successful => exact (ih h).append [⟨uuid, .exit successful⟩] (.exit uuid successful) fun _ => rfl
    | other action => exact (ih h).append [⟨uuid, .other action⟩] (.other uuid action) fun _ => rfl

/-- The list ends, or goes on with an action that ends a branch. -/
def EndsBranch : List (RawAction κ α) → Prop
  | [] => True
  | ⟨_, .elseIf _⟩ :: _ | ⟨_, .else_⟩ :: _ | ⟨_, .endIf⟩ :: _ => True
  | _ => False

theorem endsBranch_nil : EndsBranch ([] : List (RawAction κ α)) := trivial

theorem endsBranch_branches (branches : Branches κ α) (tail : List (RawAction κ α)) :
    EndsBranch (branches.flatten ++ tail) := by
  cases branches <;> exact trivial

mutual

theorem flatten_inj : ∀ (p q : Program κ α) {t t' : List (RawAction κ α)}, EndsBranch t → EndsBranch t' →
    p.flatten ++ t = q.flatten ++ t' → p = q ∧ t = t'
  | .done, q, t, t', ht, _, h => by
    cases q with
    | done => exact ⟨rfl, h⟩
    | _ => obtain rfl : t = _ := h; exact ht.elim
  | .other uuid action p, q, t, t', ht, ht', h => by
    cases q with
    | other _ _ q =>
      obtain ⟨hhead, htail⟩ := List.cons.inj h
      cases hhead
      obtain ⟨rfl, rfl⟩ := flatten_inj p q ht ht' htail
      exact ⟨rfl, rfl⟩
    | done => obtain rfl : _ = t' := h; exact ht'.elim
    | _ => cases (List.cons.inj h).1
  | .exit uuid successful p, q, t, t', ht, ht', h => by
    cases q with
    | exit _ _ q =>
      obtain ⟨hhead, htail⟩ := List.cons.inj h
      cases hhead
      obtain ⟨rfl, rfl⟩ := flatten_inj p q ht ht' htail
      exact ⟨rfl, rfl⟩
    | done => obtain rfl : _ = t' := h; exact ht'.elim
    | _ => cases (List.cons.inj h).1
  | .block uuid condition p b r, q, t, t', ht, ht', h => by
    cases q with
    | block _ _ q b' r' =>
      rw [Program.flatten, Program.flatten, cons_append, cons_append] at h
      obtain ⟨hhead, htail⟩ := List.cons.inj h
      cases hhead
      rw [append_assoc, append_assoc, append_assoc, append_assoc] at htail
      obtain ⟨rfl, hbranches⟩ := flatten_inj p q (endsBranch_branches b _) (endsBranch_branches b' _) htail
      obtain ⟨rfl, hrest⟩ := flatten_inj_branches b b' hbranches
      obtain ⟨rfl, rfl⟩ := flatten_inj r r' ht ht' hrest
      exact ⟨rfl, rfl⟩
    | done => obtain rfl : _ = t' := h; exact ht'.elim
    | _ => cases (List.cons.inj h).1

theorem flatten_inj_branches : ∀ (b b' : Branches κ α) {t t' : List (RawAction κ α)},
    b.flatten ++ t = b'.flatten ++ t' → b = b' ∧ t = t'
  | .endIf uuid, b', t, t', h => by
    cases b' with
    | endIf =>
      obtain ⟨hhead, rfl⟩ := List.cons.inj h
      cases hhead
      exact ⟨rfl, rfl⟩
    | _ => cases (List.cons.inj h).1
  | .else_ uuid p endUuid, b', t, t', h => by
    cases b' with
    | else_ _ q endUuid' =>
      rw [Branches.flatten, Branches.flatten, cons_append, cons_append] at h
      obtain ⟨hhead, htail⟩ := List.cons.inj h
      cases hhead
      rw [append_assoc, append_assoc] at htail
      obtain ⟨rfl, hend⟩ := flatten_inj p q (endsBranch_branches (.endIf endUuid) t)
        (endsBranch_branches (.endIf endUuid') t') htail
      obtain ⟨hend, rfl⟩ := List.cons.inj hend
      cases hend
      exact ⟨rfl, rfl⟩
    | _ => cases (List.cons.inj h).1
  | .elseIf uuid condition p b, b', t, t', h => by
    cases b' with
    | elseIf _ _ q b' =>
      rw [Branches.flatten, Branches.flatten, cons_append, cons_append] at h
      obtain ⟨hhead, htail⟩ := List.cons.inj h
      cases hhead
      rw [append_assoc, append_assoc] at htail
      obtain ⟨rfl, hbranches⟩ := flatten_inj p q (endsBranch_branches b t) (endsBranch_branches b' t') htail
      obtain ⟨rfl, rfl⟩ := flatten_inj_branches b b' hbranches
      exact ⟨rfl, rfl⟩
    | _ => cases (List.cons.inj h).1

end

/-- **The executor does what the program does.**  A list that passes the check is written by exactly one program;
its run has the same conditions and actions in the same order, the same errors and the same flag as the program. -/
theorem executor_runs_program (env : Env κ α σ) (actions : List (RawAction κ α)) (world : σ)
    (h : validateActionStructure actions = .ok ()) :
    ∃ program : Program κ α, program.flatten = actions ∧
    (∀ other : Program κ α, other.flatten = actions → other = program) ∧
      (executeActions env actions world).1 =
        let (context, stop) := program.exec env ⟨world, [], []⟩
        (context, stop.getD true) := by
  obtain ⟨program, rfl⟩ := closes_of_validateFrom h
  refine ⟨program, rfl, fun other hother => ?_, ?_⟩
  · exact (flatten_inj other program endsBranch_nil endsBranch_nil (congrArg (· ++ []) hother)).1
  · have hrun : outcome env (program.flatten ++ []) [] ⟨world, [], []⟩ =
        andThen (program.exec env ⟨world, [], []⟩) (outcome env [] []) := outcome_flatten [] [] rfl program _
    rw [append_nil, andThen_done] at hrun
    rw [executeActions, h, ← hrun]
    rfl

/-- `if a; if b; 1; else; 2; end_if; 3; else; 4; end_if`, where `a` holds and `b` does not. -/
theorem executor_runs_nested_block :
    let env : Env Bool ℕ (List ℕ) :=
      ⟨fun condition world => (condition, world), fun action world => (.ok (), world ++ [action]), fun _ => false⟩
    let actions := [⟨0, .if_ true⟩, ⟨1, .if_ false⟩, ⟨2, .other 1⟩, ⟨3, .else_⟩, ⟨4, .other 2⟩, ⟨5, .endIf⟩, ⟨6, .other 3⟩,
      ⟨7, .else_⟩, ⟨8, .other 4⟩, ⟨9, .endIf⟩]
    ∃ program : Program Bool ℕ, program.flatten = actions ∧
      (executeActions env actions []).1.1.world = (program.exec env ⟨[], [], []⟩).1.world ∧
        (executeActions env actions []).1.1.world = [2, 3] := by
  intro env actions
  obtain ⟨program, hflatten, -, hrun⟩ := executor_runs_program env actions [] rfl
  exact ⟨program, hflatten, congrArg (fun result => result.1.world) hrun, rfl⟩

end Wings.Schedule
