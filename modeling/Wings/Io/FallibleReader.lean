import Wings.Lib.Run

/-!
# Wings.Io.FallibleReader — a pipe whose end needs a verdict

`io/fallible_reader.rs` over the bounded pipe of `io/pipe.rs`.  A producer writes into the pipe,
shuts it down and reports its outcome on a oneshot channel; the reader may end cleanly only when the
outcome is success.  The two channels are independent, and one `poll_read` looks at them one after
the other: first the pipe, then the outcome.  Producer steps may fall between the two looks.

* `cleanEnd_withEof`: the reader made by `new_with_eof` needs no such condition.
* **`cleanEnd_iff_quietGap`**
-/

namespace Wings.Io

open Lib List

/-! ## The model -/

/-- `Outcome`: what the reader knows of the producer. -/
inductive Outcome
  | waiting
  | succeeded
  | failed (err : String)
  deriving DecidableEq

/-- What the pipe half of a `poll_read` found when it delivered nothing. -/
inductive EmptyRead
  | pending
  | eof
  deriving DecidableEq

/-- The pipe, the oneshot channel and the reader.  `between` holds the empty read of a `poll_read`
that has polled the pipe and not yet the outcome.  `written` and `returned` are the bytes the pipe
has taken in and the reader has given out. -/
structure State where
  capacity : ℕ
  requireEof : Bool
  buffer : List UInt8
  closed : Bool
  signal : Bool
  channel : Option (Option String)
  outcome : Outcome
  between : Option EmptyRead
  written : List UInt8
  returned : List UInt8

/-- One producer step, or one half of a `poll_read` with room for `remaining` bytes. -/
inductive Action
  | write (bs : List UInt8)
  | shutdown
  | succeed
  | fail (err : String)
  | dropSignal
  | pollPipe (remaining : ℕ)
  | pollOutcome
  deriving DecidableEq

/-- What an action answers.  `half` is the pipe half of a poll that goes on to the outcome,
`notEnabled` an action the code cannot take in this state. -/
inductive Answer
  | wrote (n : ℕ)
  | writePending
  | brokenPipe
  | done
  | half
  | ready (bs : List UInt8)
  | err (message : String)
  | pending
  | notEnabled
  deriving DecidableEq

/-- `FallibleReader::new` and `new_with_eof` over a pipe of the given capacity. -/
def State.init (requireEof : Bool) (capacity : ℕ) : State :=
  ⟨capacity, requireEof, [], false, true, none, .waiting, none, [], []⟩

namespace State

/-- `PipeWriter::poll_write`: an empty write is ready at once, a closed pipe refuses, a full pipe
makes the writer wait, else as much is taken as fits. -/
def write (s : State) (bs : List UInt8) : State × Answer :=
  if bs = [] then (s, .wrote 0)
  else if s.closed then (s, .brokenPipe)
  else if s.capacity ≤ s.buffer.length then (s, .writePending)
  else
    let n := min bs.length (s.capacity - s.buffer.length)
    ({ s with buffer := s.buffer ++ bs.take n, written := s.written ++ bs.take n }, .wrote n)

/-- `FallibleSignal::succeed`, `fail` and `drop`: the sender is used once. -/
def send (s : State) (message : Option String) : State × Answer :=
  if s.signal then ({ s with signal := false, channel := some message }, .done)
  else (s, .notEnabled)

/-- The first half of `poll_read`: nothing is polled without room, bytes in the pipe are returned,
and an empty pipe leads on to the outcome. -/
def pollPipe (s : State) (remaining : ℕ) : State × Answer :=
  match s.between with
  | some _ => (s, .notEnabled)
  | none =>
    if remaining = 0 then (s, .ready [])
    else match s.buffer with
      | [] => ({ s with between := some (if s.closed then .eof else .pending) }, .half)
      | b :: bs =>
        ({ s with
            buffer := (b :: bs).drop remaining
            returned := s.returned ++ (b :: bs).take remaining },
          .ready ((b :: bs).take remaining))

/-- The outcome after polling the oneshot receiver, which gives nothing while the sender lives and
an error when it went away without a message. -/
def pollReceiver (s : State) : Outcome :=
  match s.outcome with
  | .waiting =>
    match s.channel with
    | some none => .succeeded
    | some (some err) => .failed err
    | none =>
      if s.signal then .waiting
      else .failed "producer was dropped without completing the stream"
  | resolved => resolved

def pollOutcome (s : State) : State × Answer :=
  match s.between with
  | none => (s, .notEnabled)
  | some read =>
    let outcome := s.pollReceiver
    let s' := { s with between := none, outcome := outcome }
    match outcome with
    | .waiting => (s', .pending)
    | .failed err => (s', .err err)
    | .succeeded =>
      if !s.requireEof then (s', .ready [])
      else match read with
        | .pending => (s', .pending)
        | .eof => (s', .ready [])

def step (s : State) : Action → State × Answer
  | .write bs => s.write bs
  | .shutdown => ({ s with closed := true }, .done)
  | .succeed => s.send none
  | .fail err => s.send (some err)
  | .dropSignal => s.send (some "producer ended without completing the stream")
  | .pollPipe remaining => s.pollPipe remaining
  | .pollOutcome => s.pollOutcome

end State

/-! ## What a run keeps -/

/-- The bytes taken in since the pipe half of the current `poll_read`. -/
def gapBytes (tr : List (Action × Answer)) : List UInt8 :=
  tr.foldl (fun gap x => match x with
    | (.pollPipe _, .half) => []
    | (.write bs, .wrote n) => gap ++ bs.take n
    | _ => gap) []

/-- The invariant of every run: nothing is lost on the way, and between the two halves of a poll
the pipe holds just what came in since the first half. -/
structure PipeInv (tr : List (Action × Answer)) (s : State) : Prop where
  conserved : s.written = s.returned ++ s.buffer
  gap : ∀ r, s.between = some r → s.buffer = gapBytes tr
  eof : s.between = some .eof → s.closed = true ∧ s.buffer = []
  sent : s.channel ≠ none → s.signal = false
  success : s.outcome = .succeeded → s.channel = some none

open State

theorem pipeInv_init (requireEof : Bool) (capacity : ℕ) : PipeInv [] (init requireEof capacity) := by
  constructor <;> simp [init]

theorem gapBytes_concat (tr : List (Action × Answer)) (x : Action × Answer) :
    gapBytes (tr ++ [x]) = match x with
      | (.pollPipe _, .half) => []
      | (.write bs, .wrote n) => gapBytes tr ++ bs.take n
      | _ => gapBytes tr := by
  simp [gapBytes, foldl_append]

section Step

variable {tr : List (Action × Answer)} {s : State} (h : PipeInv tr s)
include h

theorem PipeInv.pollReceiver_success (hs : s.pollReceiver = .succeeded) :
    s.channel = some none := by
  unfold pollReceiver at hs
  split at hs
  · split at hs
    · assumption
    · cases hs
    · split_ifs at hs
  · exact h.success hs

theorem PipeInv.write (bs : List UInt8) :
    PipeInv (tr ++ [(.write bs, (s.write bs).2)]) (s.write bs).1 := by
  unfold State.write
  split_ifs with h0 hc hfull
  · -- an empty write
    refine { h with gap := fun r hr => ?_ }
    rw [h.gap r hr, gapBytes_concat]
    simp
  · exact { h with gap := fun r hr => by rw [h.gap r hr, gapBytes_concat] }
  · exact { h with gap := fun r hr => by rw [h.gap r hr, gapBytes_concat] }
  · refine ⟨?_, fun r hr => ?_, fun he => ?_, h.sent, h.success⟩
    · simp only [h.conserved, append_assoc]
    · simp only [gapBytes_concat, h.gap r hr]
    · exact absurd (h.eof he).1 hc

theorem PipeInv.send {a : Action} (hp : ∀ n, a ≠ .pollPipe n) (hw : ∀ bs, a ≠ .write bs) (message : Option String) :
    PipeInv (tr ++ [(a, (s.send message).2)]) (s.send message).1 := by
  have hg : ∀ r, gapBytes (tr ++ [(a, r)]) = gapBytes tr := by
    intro r
    rw [gapBytes_concat]
    cases a with
    | pollPipe n => exact absurd rfl (hp n)
    | write bs => exact absurd rfl (hw bs)
    | _ => rfl
  unfold State.send
  split_ifs with hs
  · refine ⟨h.conserved, fun r hr => by rw [hg]; exact h.gap r hr, h.eof, fun _ => rfl, fun ho => ?_⟩
    have hsent := h.sent (by rw [h.success ho]; simp)
    rw [hs] at hsent
    cases hsent
  · exact { h with gap := fun r hr => by rw [hg]; exact h.gap r hr }

theorem PipeInv.pollPipe (n : ℕ) :
    PipeInv (tr ++ [(.pollPipe n, (s.pollPipe n).2)]) (s.pollPipe n).1 := by
  unfold State.pollPipe
  cases hb : s.between with
  | some r =>
    refine { h with gap := fun r' hr => ?_ }
    rw [gapBytes_concat]
    exact h.gap r' hr
  | none =>
    by_cases hn : n = 0
    · rw [if_pos hn]
      exact { h with gap := fun r' hr => absurd hr (by simp [hb]) }
    · rw [if_neg hn]
      cases hbuf : s.buffer with
      | nil =>
        refine ⟨?_, fun r' _ => ?_, fun he => ⟨?_, rfl⟩, h.sent, h.success⟩
        · have hcons := h.conserved
          rwa [hbuf] at hcons
        · simp [gapBytes_concat]
        · by_contra hcl
          simp [hcl] at he
      | cons b bs =>
        refine ⟨?_, fun r' hr => absurd hr (by simp), fun he => absurd he (by simp), h.sent, h.success⟩
        simp only [h.conserved, hbuf, append_assoc, take_append_drop]

theorem PipeInv.pollOutcome :
    PipeInv (tr ++ [(.pollOutcome, s.pollOutcome.2)]) s.pollOutcome.1 := by
  unfold State.pollOutcome
  cases hb : s.between with
  | none => exact { h with gap := fun r hr => absurd hr (by simp [hb]) }
  | some read =>
    have key : ∀ o r, (o = .succeeded → s.channel = some none) →
        PipeInv (tr ++ [(Action.pollOutcome, r)]) { s with between := none, outcome := o } :=
      fun o r ho => ⟨h.conserved, fun r hr => absurd hr (by simp), fun he => absurd he (by simp), h.sent, ho⟩
    cases ho : s.pollReceiver with
    | waiting => exact key _ _ (by simp)
    | failed err => exact key _ _ (by simp)
    | succeeded =>
      split_ifs
      · exact key _ _ fun _ => h.pollReceiver_success ho
      · cases read <;> exact key _ _ fun _ => h.pollReceiver_success ho

theorem pipeInv_step (a : Action) : PipeInv (tr ++ [(a, (s.step a).2)]) (s.step a).1 := by
  cases a with
  | write bs => exact h.write bs
  | shutdown =>
    refine { h with gap := fun r hr => ?_, eof := fun he => ⟨rfl, (h.eof he).2⟩ }
    rw [gapBytes_concat]
    exact h.gap r hr
  | succeed => exact h.send (by simp) (by simp) none
  | fail err => exact h.send (by simp) (by simp) (some err)
  | dropSignal => exact h.send (by simp) (by simp) (some _)
  | pollPipe n => exact h.pollPipe n
  | pollOutcome => exact h.pollOutcome

end Step

/-! ## Clean ends -/

/-- `poll_read` was called with room and answered `Ready(Ok)` without a byte. -/
def CleanEnd (x : Action × Answer) : Prop := x.2 = .ready [] ∧ x.1 ≠ .pollPipe 0

/-- Everything written was given out, and the producer reported success. -/
def Delivered (s : State) : Prop := s.returned = s.written ∧ s.channel = some none

/-- If the last answer of the trace is a clean end, everything was delivered. -/
def EndsDelivered (tr : List (Action × Answer)) (s : State) : Prop :=
  ∀ x, tr.getLast? = some x → CleanEnd x → Delivered s

/-- The guard: the outcome half of a poll does not find success after bytes came in since the pipe
half. -/
def QuietGap (tr : List (Action × Answer)) (s : State) (a : Action) : Prop :=
  ¬ (a = .pollOutcome ∧ s.between ≠ none ∧ s.pollReceiver = .succeeded ∧ gapBytes tr ≠ [])

variable {s : State}

theorem endsDelivered_concat {tr : List (Action × Answer)} {x : Action × Answer} :
    EndsDelivered (tr ++ [x]) s ↔ (CleanEnd x → Delivered s) := by
  simp [EndsDelivered]

theorem cleanEnd_cases {a : Action} (h : CleanEnd (a, (s.step a).2)) :
    a = .pollOutcome ∧ ∃ r, s.between = some r ∧ s.pollReceiver = .succeeded ∧
      (s.requireEof = true → r = .eof) := by
  obtain ⟨hr, ha⟩ := h
  cases a with
  | write bs =>
    simp only [step, write] at hr
    split_ifs at hr
  | shutdown => cases hr
  | succeed => simp only [step, send] at hr; split_ifs at hr
  | fail err => simp only [step, send] at hr; split_ifs at hr
  | dropSignal => simp only [step, send] at hr; split_ifs at hr
  | pollPipe n =>
    simp only [step, pollPipe] at hr
    have hn : n ≠ 0 := fun h0 => ha (by rw [h0])
    cases hb : s.between with
    | some r => simp [hb] at hr
    | none => cases hbuf : s.buffer <;> simp [hb, hn, hbuf] at hr
  | pollOutcome =>
    refine ⟨rfl, ?_⟩
    simp only [step, pollOutcome] at hr
    cases hb : s.between with
    | none => simp [hb] at hr
    | some r =>
      refine ⟨r, rfl, ?_⟩
      cases ho : s.pollReceiver with
      | waiting => simp [hb, ho] at hr
      | failed err => simp [hb, ho] at hr
      | succeeded =>
        refine ⟨rfl, fun he => ?_⟩
        cases r with
        | eof => rfl
        | pending => simp [hb, ho, he] at hr

theorem delivered_pollOutcome : Delivered s.pollOutcome.1 ↔ Delivered s := by
  unfold pollOutcome Delivered
  cases s.between with
  | none => rfl
  | some r =>
    cases ho : s.pollReceiver with
    | waiting => rfl
    | failed err => rfl
    | succeeded =>
      split_ifs
      · rfl
      · cases r <;> rfl

section Runs

variable (capacity : ℕ)

theorem pipeInv_exec (requireEof : Bool) (as : List Action) :
    PipeInv (trace step (init requireEof capacity) as) (exec step (init requireEof capacity) as) :=
  inv_of_steps (G := fun _ _ _ => True) (pipeInv_init requireEof capacity)
    (fun _ _ a h _ => pipeInv_step h a) fun _ _ _ => trivial

theorem requireEof_exec (requireEof : Bool) (as : List Action) :
    (exec step (init requireEof capacity) as).requireEof = requireEof := by
  refine inv_of_steps (G := fun _ _ _ => True) (I := fun _ s => State.requireEof s = requireEof) rfl
    (fun _ s a h _ => ?_) fun _ _ _ => trivial
  rw [← h]
  cases a with
  | write bs => simp only [step, write]; split_ifs <;> rfl
  | shutdown => rfl
  | succeed => simp only [step, send]; split_ifs <;> rfl
  | fail err => simp only [step, send]; split_ifs <;> rfl
  | dropSignal => simp only [step, send]; split_ifs <;> rfl
  | pollPipe n =>
    simp only [step, pollPipe]
    cases s.between with
    | some r => rfl
    | none => split_ifs <;> cases s.buffer <;> rfl
  | pollOutcome =>
    simp only [step, pollOutcome]
    cases s.between with
    | none => rfl
    | some r => cases s.pollReceiver <;> cases r <;> dsimp only <;> split_ifs <;> rfl

/-- **No early end.**  Over every interleaving, every clean end of a reader made by `new` comes
after all written bytes and a success, exactly when no outcome half finds success after bytes came
in since its pipe half. -/
theorem cleanEnd_iff_quietGap (as : List Action) :
    (∀ pre, pre <+: as → EndsDelivered (trace step (init false capacity) pre)
      (exec step (init false capacity) pre)) ↔
    Steps step QuietGap (init false capacity) as := by
  refine forall_prefix_iff_steps (by intro x hx; cases hx) (fun as a _ _ => ?_) as
  have hinv := pipeInv_exec capacity false as
  have heof := requireEof_exec capacity false as
  rw [trace_concat, exec_concat, endsDelivered_concat]
  set s := exec step (init false capacity) as
  set tr := trace step (init false capacity) as
  constructor
  · rintro h ⟨rfl, hb, hs, hgap⟩
    obtain ⟨r, hr⟩ := Option.ne_none_iff_exists'.mp hb
    have hclean : CleanEnd (Action.pollOutcome, (s.step .pollOutcome).2) := by
      refine ⟨?_, by simp⟩
      simp [step, pollOutcome, hr, hs, heof]
    have hd := delivered_pollOutcome.mp (h hclean)
    -- the bytes of the gap are still in the pipe
    have hlen := congrArg length (hinv.conserved.symm.trans hd.1.symm)
    rw [hinv.gap r hr, length_append] at hlen
    have := length_pos_of_ne_nil hgap
    omega
  · intro hq hclean
    obtain ⟨rfl, r, hr, hs, -⟩ := cleanEnd_cases hclean
    refine delivered_pollOutcome.mpr ⟨?_, hinv.pollReceiver_success hs⟩
    have hgap : gapBytes tr = [] := by
      by_contra hne
      exact hq ⟨rfl, by rw [hr]; simp, hs, hne⟩
    rw [hinv.conserved, hinv.gap r hr, hgap, append_nil]

theorem cleanEnd_withEof (as : List Action) :
    EndsDelivered (trace step (init true capacity) as) (exec step (init true capacity) as) := by
  induction as using reverseRecOn with
  | nil => intro x hx; cases hx
  | append_singleton as a _ =>
    have hinv := pipeInv_exec capacity true as
    rw [trace_concat, exec_concat, endsDelivered_concat]
    intro hclean
    obtain ⟨rfl, r, hr, hs, hre⟩ := cleanEnd_cases hclean
    rw [hre (requireEof_exec capacity true as)] at hr
    refine delivered_pollOutcome.mpr ⟨?_, hinv.pollReceiver_success hs⟩
    rw [hinv.conserved, (hinv.eof hr).2, append_nil]

end Runs

/-- The producer writes, shuts down and succeeds between the two halves of one poll: the reader
reports a clean end and the byte stays in the pipe. -/
theorem early_end_in_gap :
    let as : List Action := [.pollPipe 8, .write [7], .shutdown, .succeed, .pollOutcome]
    (trace step (init false 64) as).getLast? = some (.pollOutcome, .ready []) ∧
    (exec step (init false 64) as).written = [7] ∧
    (exec step (init false 64) as).returned = [] ∧
    ¬ EndsDelivered (trace step (init false 64) as) (exec step (init false 64) as) := by
  refine ⟨by decide, by decide, by decide, fun h => ?_⟩
  have hd := h (.pollOutcome, .ready []) (by decide) ⟨rfl, by decide⟩
  exact absurd hd.1 (by decide)

end Wings.Io
