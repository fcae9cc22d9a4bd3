import Mathlib.Algebra.BigOperators.Fin
import Mathlib.Algebra.Order.BigOperators.Group.Finset
import Wings.Archive.Writers
import Wings.Lib.Run

/-!
# Wings.Archive.WritersInv — who holds permits, and where a chunk channel ends

The invariant of `Writers`: every permit that is counted is held by the feeder, by a whole file in a queue or in a
writer's hands, by a chunk in a writer's hands, or by a chunk in a channel.  Only the file that the feeder is at
has a sender; the job with its receiver is the last one of its writer.

* `State.load`, `Located` — what the invariant `Inv` counts and looks for; `State.measure`; `Accounted`, what
  became of the jobs.
* `Inv.step`, `measure_step`, `Accounted.step`.
-/

namespace Wings.Archive.Writers

open Finset Lib Function Nat

variable {n id : ℕ}

/-! ## What is held -/

def Job.channel (job : Job) : Option ℕ :=
  match job.content with
  | .chunks => some job.id
  | _ => none

def Content.permits : Content → ℕ
  | .whole => 1
  | _ => 0

def Job.permits (job : Job) : ℕ := job.content.permits

def Writer.channel : Writer → Option ℕ
  | .checking job | .creating job => job.channel
  | .receiving id | .writingChunk id => some id
  | _ => none

def Writer.permits : Writer → ℕ
  | .checking job | .creating job => job.permits
  | .writing _ | .writingChunk _ => 1
  | _ => 0

def Feeder.permits : Feeder → ℕ
  | .readWhole _ | .readChunk _ _ | .sendChunk _ _ => 1
  | .sendJob _ content _ => content.permits
  | _ => 0

def Feeder.current : Feeder → Option ℕ
  | .acquireChunk id _ | .readChunk id _ | .sendChunk id _ => some id
  | _ => none

/-- The permits of whole files and of chunks in the hands of a writer. -/
def load (queue : List Job) (writer : Writer) : ℕ := (queue.map Job.permits).sum + writer.permits

def State.load (st : State n) (w : Fin n) : ℕ := Writers.load (st.queues w) (st.writers w)

/-- The chunks in the first channels. -/
def inChannels (channels : ℕ → Channel) (bound : ℕ) : ℕ := ∑ id ∈ range bound, (channels id).messages

/-- A writer has the receiver of the channel, in its queue or in its hands. -/
def Has (queue : List Job) (writer : Writer) (id : ℕ) : Prop :=
  (∃ job ∈ queue, job.channel = some id) ∨ writer.channel = some id

def Located (st : State n) (id : ℕ) : Prop := ∃ w, Has (st.queues w) (st.writers w) id

structure Inv (st : State n) : Prop where
  permits : st.count = st.feeder.permits + ∑ w, st.load w + inChannels st.channels st.nextId
  fresh : ∀ id, st.nextId ≤ id → st.channels id = ⟨0, false, false⟩
  room : ∀ id, (st.channels id).messages ≤ chunkCapacity
  sender : ∀ id, (st.channels id).sender = true → st.feeder.current = some id
  ends : ∀ id, (st.channels id).messages ≠ 0 → (st.channels id).sender = true ∨ (st.channels id).receiver = true
  receiver : ∀ id, (st.channels id).receiver = true → Located st id
  hand : ∀ id w, st.feeder.current = some id → (st.writers w).channel = some id → st.queues w = []
  last : ∀ id w before job after, st.feeder.current = some id → st.queues w = before ++ job :: after →
    job.channel = some id → after = []
  exited : ∀ w, st.writers w = .exited → st.queues w = [] ∧ (st.closed w = true ∨ ∃ ok, st.feeder = .returned ok)
  known : ∀ id, Located st id → id < st.nextId
  current : ∀ id, st.feeder.current = some id → id < st.nextId

theorem sum_add_of_eq_off {ι : Type*} [DecidableEq ι] {s : Finset ι} {i : ι} {f g : ι → ℕ} (hi : i ∈ s)
    (h : ∀ x, x ≠ i → g x = f x) : ∑ x ∈ s, g x + f i = ∑ x ∈ s, f x + g i := by
  have hrest : ∑ x ∈ s.erase i, g x = ∑ x ∈ s.erase i, f x := sum_congr rfl fun x hx => h x (ne_of_mem_erase hx)
  rw [← add_sum_erase s g hi, ← add_sum_erase s f hi]
  omega

theorem inChannels_update (channels : ℕ → Channel) {bound : ℕ} (hid : id < bound) (channel : Channel) :
    inChannels (update channels id channel) bound + (channels id).messages =
      inChannels channels bound + channel.messages := by
  have hsum := sum_add_of_eq_off
    (g := fun x => (update channels id channel x).messages) (mem_range.mpr hid)
    fun x hx => by rw [update_of_ne hx]
  rwa [update_self] at hsum

theorem messages_le_inChannels {channels : ℕ → Channel} {bound : ℕ} (hid : id < bound) :
    (channels id).messages ≤ inChannels channels bound :=
  single_le_sum (f := fun id => (channels id).messages) (fun _ _ => zero_le _) (mem_range.mpr hid)

variable {channel : Channel}

theorem forall_channels {channels channels' : ℕ → Channel} {id : ℕ}
    (h : channels' = update channels id channel) (p : ℕ → Channel → Prop) (hself : p id channel)
    (hothers : ∀ x, x ≠ id → p x (channels x)) : ∀ x, p x (channels' x) := by
  subst h
  exact (forall_update_iff channels p).mpr ⟨hself, hothers⟩

theorem sum_writers_update {st st' : State n} {w : Fin n} {queue : List Job} {writer : Writer}
    (hqueues : st'.queues = update st.queues w queue)
    (hwriters : st'.writers = update st.writers w writer) (f : List Job → Writer → ℕ) :
    ∑ x, f (st'.queues x) (st'.writers x) + f (st.queues w) (st.writers w) =
      ∑ x, f (st.queues x) (st.writers x) + f queue writer := by
  have hself : f (st'.queues w) (st'.writers w) = f queue writer := by
    rw [hqueues, hwriters, update_self, update_self]
  rw [← hself]
  refine sum_add_of_eq_off (f := fun x => f (st.queues x) (st.writers x)) (mem_univ w) fun x hx => ?_
  rw [hqueues, hwriters, update_of_ne hx, update_of_ne hx]

/-! ## What is left to do, and what became of the jobs -/

def Call.weight : Call → ℕ
  | .file _ _ length => 5 * length + 11
  | .symlink _ _ => 7

def Feeder.weight : Feeder → ℕ
  | .idle => 1
  | .acquireWhole _ => 11
  | .readWhole _ => 8
  | .sendJob _ .chunks left => 5 * left + 11
  | .sendJob _ _ _ => 7
  | .acquireChunk _ left => 5 * left + 5
  | .readChunk _ left => 5 * left + 2
  | .sendChunk _ left => 5 * left + 6
  | .returned _ => 0

def Writer.weight : Writer → ℕ
  | .exited => 0
  | .waiting => 1
  | .writing _ | .writingChunk _ | .stamping _ => 2
  | .receiving _ => 3
  | .creating _ => 4
  | .checking _ => 5

/-- What a writer has left to do; a chunk is paid for by its permit. -/
def weigh (queue : List Job) (writer : Writer) : ℕ := 5 * queue.length + writer.weight

def State.measure (st : State n) : ℕ :=
  (st.calls.map Call.weight).sum + st.feeder.weight + ∑ w, weigh (st.queues w) (st.writers w) + 2 * st.count +
    if st.aborted then 0 else 1

def Writer.job : Writer → Option ℕ
  | .checking job | .creating job => some job.id
  | .writing id | .receiving id | .writingChunk id | .stamping id => some id
  | .waiting | .exited => none

/-- A writer has the job in its queue or in its hands. -/
def Keeps (queue : List Job) (writer : Writer) (id : ℕ) : Prop :=
  (∃ job ∈ queue, job.id = id) ∨ writer.job = some id

/-- The job was applied, or a writer has seen an error. -/
def Told (st : State n) (id : ℕ) : Prop := st.results id = some .applied ∨ st.stopped = true

/-- Every job that was sent is still with a writer, or told. -/
def Accounted (st : State n) : Prop :=
  st.aborted = false ∧ ∀ id < st.nextId, (∃ w, Keeps (st.queues w) (st.writers w) id) ∨ Told st id

/-- Nobody aborts, and no symlink fails to be created. -/
def Reported (st : State n) (a : Action n) : Prop :=
  a ≠ .abort ∧ ∀ w job stamped, a = .write w false → st.writers w = .creating job → job.content ≠ .symlink stamped

/-! ## A step of a writer -/

variable {st st' : State n} {w : Fin n} {queue : List Job} {writer : Writer} {job : Job} {result : Result} {ok : Bool}
  {opened : Bool} {count : ℕ} {closed : Fin n → Bool}

/-- The feeder waits, and no channel gets more. -/
structure Leaves (st st' : State n) : Prop where
  calls : st'.calls = st.calls
  feeder : st'.feeder = st.feeder
  nextId : st'.nextId = st.nextId
  aborted : st'.aborted = st.aborted
  closed : ∀ x, st.closed x = true → st'.closed x = true
  fresh : ∀ id, st.nextId ≤ id → st'.channels id = st.channels id
  room : ∀ id, (st'.channels id).messages ≤ (st.channels id).messages
  sender : ∀ id, (st'.channels id).sender = (st.channels id).sender
  ends : ∀ id, (st'.channels id).messages ≠ 0 → (st'.channels id).sender = true ∨ (st'.channels id).receiver = true

/-- Writer `w` has a new queue and new hands; it gains no receiver but from its queue, the permits balance, and it
has less to do. -/
structure Moves (st st' : State n) (w : Fin n) (queue : List Job) (writer : Writer) : Prop extends Leaves st st' where
  queues : st'.queues = Function.update st.queues w queue
  writers : st'.writers = Function.update st.writers w writer
  isSuffix : queue <:+ st.queues w
  hand : ∀ id, writer.channel = some id →
    (st.writers w).channel = some id ∧ queue = st.queues w ∨
      ∃ job, st.queues w = job :: queue ∧ job.channel = some id
  receiver : ∀ id, (st'.channels id).receiver = true → (st.channels id).receiver = true ∧
    (Has (st.queues w) (st.writers w) id → Has queue writer id)
  exited : writer = .exited → queue = [] ∧ (st.closed w = true ∨ ∃ ok, st.feeder = .returned ok)
  permits : st'.count + (st.load w + inChannels st.channels st.nextId) =
    st.count + (load queue writer + inChannels st'.channels st.nextId)
  lighter : weigh queue writer + 2 * st'.count < weigh (st.queues w) (st.writers w) + 2 * st.count

/-- What was told stays so, and the jobs of the writer stay with it or are told. -/
def Reports (st st' : State n) (w : Fin n) (queue : List Job) (writer : Writer) : Prop :=
  (∀ id, Told st id → Told st' id) ∧
    ∀ id, Keeps (st.queues w) (st.writers w) id → Keeps queue writer id ∨ Told st' id

def Worked (st st' : State n) (w : Fin n) (ok : Bool) : Prop :=
  ∃ queue writer, Moves st st' w queue writer ∧
    (Reported st (.write w ok) → st.aborted = false → Reports st st' w queue writer)

variable {x : Fin n}

theorem Moves.has (h : Moves st st' w queue writer)
    (hhas : Has (st'.queues x) (st'.writers x) id) : Has (st.queues x) (st.writers x) id := by
  rw [h.queues, h.writers] at hhas
  by_cases hx : x = w
  · subst hx
    rw [update_self, update_self] at hhas
    rcases hhas with ⟨job, hjob, hchannel⟩ | hhand
    · exact .inl ⟨job, h.isSuffix.subset hjob, hchannel⟩
    · rcases h.hand id hhand with ⟨hhand, _⟩ | ⟨job, hqueue, hchannel⟩
      · exact .inr hhand
      · exact .inl ⟨job, hqueue ▸ List.mem_cons_self, hchannel⟩
  · rwa [update_of_ne hx, update_of_ne hx] at hhas

theorem Inv.moves (h : Inv st) (hmoves : Moves st st' w queue writer) : Inv st' where
  permits := by
    have hload : ∑ x, st'.load x + st.load w = ∑ x, st.load x + load queue writer :=
      sum_writers_update hmoves.queues hmoves.writers load
    have hpermits := hmoves.permits
    have hold := h.permits
    rw [hmoves.feeder, hmoves.nextId]
    omega
  fresh id hid := by
    rw [hmoves.nextId] at hid
    exact (hmoves.fresh id hid).trans (h.fresh id hid)
  room id := (hmoves.room id).trans (h.room id)
  sender id hsender := by
    rw [hmoves.feeder]
    exact h.sender id (hmoves.sender id ▸ hsender)
  ends := hmoves.ends
  receiver id hreceiver := by
    obtain ⟨hold, hkept⟩ := hmoves.receiver id hreceiver
    obtain ⟨x, hx⟩ := h.receiver id hold
    refine ⟨x, ?_⟩
    rw [hmoves.queues, hmoves.writers]
    by_cases heq : x = w
    · subst heq
      rw [update_self, update_self]
      exact hkept hx
    · rwa [update_of_ne heq, update_of_ne heq]
  hand id x hcurrent hhand := by
    rw [hmoves.feeder] at hcurrent
    rw [hmoves.queues]
    rw [hmoves.writers] at hhand
    by_cases heq : x = w
    · subst heq
      rw [update_self] at hhand ⊢
      rcases hmoves.hand id hhand with ⟨hold, hqueue⟩ | ⟨job, hqueue, hchannel⟩
      · exact hqueue.trans (h.hand id x hcurrent hold)
      · exact h.last id x [] job queue hcurrent hqueue hchannel
    · rw [update_of_ne heq] at hhand ⊢
      exact h.hand id x hcurrent hhand
  last id x before job after hcurrent hsplit hchannel := by
    rw [hmoves.feeder] at hcurrent
    rw [hmoves.queues] at hsplit
    by_cases heq : x = w
    · subst heq
      rw [update_self] at hsplit
      obtain ⟨front, hfront⟩ := hmoves.isSuffix
      refine h.last id x (front ++ before) job after hcurrent ?_ hchannel
      rw [← hfront, hsplit, List.append_assoc]
    · rw [update_of_ne heq] at hsplit
      exact h.last id x before job after hcurrent hsplit hchannel
  exited x hx := by
    rw [hmoves.writers] at hx
    rw [hmoves.queues, hmoves.feeder]
    by_cases heq : x = w
    · subst heq
      rw [update_self] at hx ⊢
      exact (hmoves.exited hx).imp_right (.imp_left (hmoves.closed x))
    · rw [update_of_ne heq] at hx ⊢
      exact (h.exited x hx).imp_right (.imp_left (hmoves.closed x))
  known id := by
    rintro ⟨x, hx⟩
    rw [hmoves.nextId]
    exact h.known id ⟨x, hmoves.has hx⟩
  current id hid := by
    rw [hmoves.nextId]
    exact h.current id (hmoves.feeder ▸ hid)

theorem Moves.measure (h : Moves st st' w queue writer) : st'.measure < st.measure := by
  have hsum := sum_writers_update h.queues h.writers weigh
  unfold State.measure
  rw [h.calls, h.feeder, h.aborted]
  have hlt := h.lighter
  omega

theorem Accounted.moves (h : Accounted st) (hmoves : Moves st st' w queue writer)
    (hreports : Reports st st' w queue writer) : Accounted st' := by
  refine ⟨hmoves.aborted.trans h.1, fun id hid => ?_⟩
  rw [hmoves.nextId] at hid
  rcases h.2 id hid with ⟨x, hx⟩ | hid
  · by_cases heq : x = w
    · subst heq
      refine (hreports.2 id hx).imp_left fun hkeeps => ⟨x, ?_⟩
      rw [hmoves.queues, hmoves.writers, update_self, update_self]
      exact hkeeps
    · refine .inl ⟨x, ?_⟩
      rw [hmoves.queues, hmoves.writers, update_of_ne heq, update_of_ne heq]
      exact hx
  · exact .inr (hreports.1 id hid)

section

variable (hclosed : ∀ x, st.closed x = true → st'.closed x = true)
include hclosed

theorem Inv.leaves (h : Inv st)
    (hsame : (st'.calls, st'.feeder, st'.nextId, st'.aborted, st'.channels) =
      (st.calls, st.feeder, st.nextId, st.aborted, st.channels)) : Leaves st st' := by
  obtain ⟨hcalls, hfeeder, hnextId, haborted, hchannels⟩ := by simpa only [Prod.mk.injEq] using hsame
  exact ⟨hcalls, hfeeder, hnextId, haborted, hclosed, fun _ _ => by rw [hchannels], fun _ => by rw [hchannels],
    fun _ => by rw [hchannels], hchannels ▸ h.ends⟩

theorem Inv.leavesChannel (h : Inv st)
    (hsame : (st'.calls, st'.feeder, st'.nextId, st'.aborted) = (st.calls, st.feeder, st.nextId, st.aborted))
    (hchannels : st'.channels = update st.channels id channel) (hid : id < st.nextId)
    (hroom : channel.messages ≤ (st.channels id).messages) (hsender : channel.sender = (st.channels id).sender)
    (hends : channel.messages ≠ 0 → channel.sender = true ∨ channel.receiver = true) : Leaves st st' := by
  obtain ⟨hcalls, hfeeder, hnextId, haborted⟩ := by simpa only [Prod.mk.injEq] using hsame
  exact ⟨hcalls, hfeeder, hnextId, haborted, hclosed,
    forall_channels hchannels (fun x c => st.nextId ≤ x → c = st.channels x) (by omega) fun _ _ _ => rfl,
    forall_channels hchannels (fun x c => c.messages ≤ (st.channels x).messages) hroom fun _ _ => le_rfl,
    forall_channels hchannels (fun x c => c.sender = (st.channels x).sender) hsender fun _ _ => rfl,
    forall_channels hchannels (fun _ c => c.messages ≠ 0 → c.sender = true ∨ c.receiver = true) hends fun x _ => h.ends x⟩

end

section

variable (hchannel : writer.channel = (st.writers w).channel) (hjob : writer.job = (st.writers w).job)
include hchannel hjob

theorem Inv.recount (h : Inv st) (hexited : writer ≠ .exited)
    (hcount : count + (st.writers w).permits = st.count + writer.permits)
    (hlighter : writer.weight + 2 * count < (st.writers w).weight + 2 * st.count) :
    Worked st ({ st with count }.setWriter w writer) w ok := by
  refine ⟨st.queues w, writer,
    { toLeaves := h.leaves (fun _ hx => hx) rfl, queues := (update_eq_self w st.queues).symm, writers := rfl
      isSuffix := List.suffix_rfl, hand := fun id hid => .inl ⟨hchannel ▸ hid, rfl⟩
      receiver := fun id hid => ⟨hid, .imp_right fun hold => hchannel.trans hold⟩
      exited := fun heq => absurd heq hexited, permits := ?_, lighter := ?_ },
    fun _ _ => ⟨fun _ hid => hid, fun id hid => .inl (hid.imp_right fun hhand => hjob.trans hhand)⟩⟩
  · show count + _ = _ + (_ + inChannels st.channels st.nextId)
    rw [State.load, load, load]
    omega
  · show weigh (st.queues w) writer + 2 * count < _
    unfold weigh
    omega

theorem Inv.rehand (h : Inv st) (hexited : writer ≠ .exited) (hpermits : writer.permits = (st.writers w).permits)
    (hlighter : writer.weight < (st.writers w).weight) : Worked st (st.setWriter w writer) w ok :=
  h.recount hchannel hjob hexited (by rw [hpermits]) (by omega)

end

theorem load_waiting (st : State n) (w : Fin n) :
    load (st.queues w) .waiting + (st.writers w).permits = st.load w := rfl

/-- What a writer has in its hands is dropped. -/
structure Drops (st st' : State n) (w : Fin n) : Prop extends Leaves st st' where
  queues : st'.queues = st.queues
  writers : st'.writers = st.writers
  stopped : st'.stopped = st.stopped
  results : st'.results = st.results
  receiver : ∀ id, (st'.channels id).receiver = true →
    (st.channels id).receiver = true ∧ (st.writers w).channel ≠ some id
  permits : st'.count + ((st.writers w).permits + inChannels st.channels st.nextId) =
    st.count + inChannels st'.channels st.nextId

theorem Drops.worked (h : Drops st st' w) {error : Bool} (hjob : (st.writers w).job = some id)
    (hbusy : 1 < (st.writers w).weight)
    (hresult : Reported st (.write w ok) → st.aborted = false → result = .applied ∨ (st.stopped || error) = true) :
    Worked st (st'.finish w id result error) w ok := by
  have hless : inChannels st'.channels st.nextId ≤ inChannels st.channels st.nextId := sum_le_sum fun id _ => h.room id
  have hpermits := h.permits
  have hstopped : (st'.finish w id result error).stopped = (st.stopped || error) := congrArg (· || error) h.stopped
  have hresults : (st'.finish w id result error).results = update st.results id (some result) := by
    rw [← h.results]
    rfl
  refine ⟨st.queues w, .waiting,
    { toLeaves := { h.toLeaves with }, queues := h.queues.trans (update_eq_self w st.queues).symm
      writers := show update st'.writers w .waiting = _ by rw [h.writers]
      isSuffix := List.suffix_rfl, hand := nofun
      receiver := fun x hx => ⟨(h.receiver x hx).1, .imp_right fun hhand => absurd hhand (h.receiver x hx).2⟩
      exited := nofun, permits := ?_, lighter := ?_ }, fun hreported haborted => ?_⟩
  · show st'.count + _ = _ + (_ + inChannels st'.channels _)
    have hload := load_waiting st w
    omega
  · show 5 * _ + 1 + 2 * st'.count < _
    unfold weigh
    omega
  · have hself : Told (st'.finish w id result error) id := by
      rw [Told, hstopped, hresults, update_self]
      exact (hresult hreported haborted).imp_left (congrArg some)
    refine ⟨fun x hx => ?_, fun x hx => hx.imp .inl fun hhand => ?_⟩
    · by_cases heq : x = id
      · exact heq ▸ hself
      · rw [Told, hstopped, hresults, update_of_ne heq]
        exact hx.imp_right fun hx => by rw [hx, Bool.true_or]
    · rw [hjob] at hhand
      exact Option.some.inj hhand ▸ hself

section

variable (h : Inv st)
include h

theorem Inv.le_count (w : Fin n) : (st.writers w).permits + inChannels st.channels st.nextId ≤ st.count := by
  have hload : st.load w ≤ ∑ w, st.load w := single_le_sum (fun _ _ => zero_le _) (mem_univ w)
  have hpermits := h.permits
  have hwaiting := load_waiting st w
  omega

section

variable (hclosed : ∀ x, st.closed x = true → closed x = true)
include hclosed

theorem Inv.drops (hchannel : (st.writers w).channel = none) (hcount : count + (st.writers w).permits = st.count) :
    Drops st { st with closed, count } w where
  toLeaves := h.leaves hclosed rfl
  queues := rfl
  writers := rfl
  stopped := rfl
  results := rfl
  receiver id hid := ⟨hid, hchannel ▸ nofun⟩
  permits := by
    show count + _ = _ + inChannels st.channels st.nextId
    omega

theorem Inv.dropsReceiver
    (hchannel : (st.writers w).channel = some id)
    (hcount : count + (st.writers w).permits = st.count) : Drops st ({ st with closed, count }.dropReceiver id) w := by
  have hid : id < st.nextId := h.known id ⟨w, .inr hchannel⟩
  have hle := h.le_count w
  have hmessages : (st.channels id).messages ≤ _ := messages_le_inChannels hid
  have hdrops : ∀ (count : ℕ) (channel : Channel), channel.receiver = false → channel.sender = (st.channels id).sender →
      channel.messages ≤ (st.channels id).messages → (channel.messages ≠ 0 → channel.sender = true) →
      count + (st.writers w).permits + (st.channels id).messages = st.count + channel.messages →
      Drops st ({ st with closed, count }.setChannel id channel) w := by
    intro count channel hreceiver hsender hroom hends hcount
    refine
      { toLeaves := h.leavesChannel hclosed rfl rfl hid hroom hsender fun hsome => .inl (hends hsome)
        queues := rfl, writers := rfl, stopped := rfl, results := rfl
        receiver := forall_channels rfl (fun x c => c.receiver = true → (st.channels x).receiver = true ∧
          (st.writers w).channel ≠ some x) ?_ fun x hne hx => ⟨hx, ?_⟩
        permits := ?_ }
    · rw [hreceiver]
      nofun
    · rw [hchannel]
      exact fun heq => hne (Option.some.inj heq).symm
    · show count + _ = _ + inChannels (update st.channels id channel) st.nextId
      have hsum := inChannels_update st.channels hid channel
      omega
  unfold State.dropReceiver
  dsimp only
  split_ifs with hsender
  · exact hdrops _ _ rfl rfl le_rfl (fun _ => hsender) (by dsimp only; omega)
  · refine hdrops _ _ rfl (Bool.eq_false_of_not_eq_true hsender).symm (zero_le _) (fun hzero => absurd rfl hzero) ?_
    show count - _ + _ + _ = st.count + 0
    omega

theorem Inv.dropsContent
    (hchannel : (st.writers w).channel = job.channel) (hpermits : (st.writers w).permits = job.permits) :
    Drops st ({ st with closed }.dropContent job) w := by
  obtain ⟨id, path, content⟩ := job
  cases content with
  | whole =>
    refine h.drops hclosed hchannel ?_
    have hle := le_of_add_right_le (h.le_count w)
    rw [hpermits] at hle ⊢
    exact Nat.sub_add_cancel hle
  | chunks => exact h.dropsReceiver hclosed hchannel (congrArg (st.count + ·) hpermits)
  | symlink => exact h.drops hclosed hchannel (congrArg (st.count + ·) hpermits)

end

theorem Inv.create (hw : st.writers w = .creating job) (ok : Bool) :
    Worked st (st.create w job ok) w ok := by
  have hchannel : (st.writers w).channel = job.channel := by rw [hw]; rfl
  have hjob : (st.writers w).job = some job.id := by rw [hw]; rfl
  have hpermits : (st.writers w).permits = job.permits := by rw [hw]; rfl
  have hweight : (st.writers w).weight = 4 := by rw [hw]; rfl
  have hdrop : Worked st ((st.dropContent job).finish w job.id .failed true) w ok :=
    (h.dropsContent (fun _ hx => hx) hchannel hpermits).worked hjob (by omega) fun _ _ => .inr (Bool.or_true _)
  have hset : ∀ writer, writer.channel = job.channel → writer.job = some job.id → writer ≠ .exited →
      writer.permits = job.permits → writer.weight < 4 → Worked st (st.setWriter w writer) w ok :=
    fun writer h₁ h₂ h₃ h₄ h₅ => h.rehand (h₁.trans hchannel.symm) (h₂.trans hjob.symm) h₃ (h₄.trans hpermits.symm)
      (hweight ▸ h₅)
  unfold State.create
  obtain ⟨id, path, content⟩ := job
  cases content with
  | whole =>
    split_ifs
    · exact hset _ rfl rfl nofun rfl (show 2 < 4 by decide)
    · exact hdrop
  | chunks =>
    split_ifs
    · exact hset _ rfl rfl nofun rfl (show 3 < 4 by decide)
    · exact hdrop
  | symlink stamped =>
    have hdrops : Drops st st w := h.drops (fun _ hx => hx) hchannel (congrArg (st.count + ·) hpermits)
    dsimp only
    split_ifs with hok
    · exact hset _ rfl rfl nofun rfl (show 2 < 4 by decide)
    · exact hdrops.worked hjob (by omega) fun _ _ => .inl rfl
    · refine hdrops.worked hjob (by omega) fun hreported _ => ?_
      cases ok with
      | true => exact absurd rfl hok
      | false => exact absurd rfl (hreported.2 w _ stamped rfl hw)

theorem Inv.take (hw : st.writers w = .waiting) (hqueue : st.queues w = job :: queue) :
    Worked st ({ st with queues := update st.queues w queue }.setWriter w (.checking job)) w ok := by
  -- what is in the queue is behind the job or the job itself
  have hmem : ∀ {p : Job → Prop}, (∃ job ∈ st.queues w, p job) → (∃ job ∈ queue, p job) ∨ p job := by
    rintro p ⟨job', hjob', hp⟩
    rw [hqueue] at hjob'
    rcases List.mem_cons.mp hjob' with rfl | hjob'
    · exact .inr hp
    · exact .inl ⟨job', hjob', hp⟩
  refine ⟨queue, .checking job,
    { toLeaves := h.leaves (fun _ hx => hx) rfl, queues := rfl, writers := rfl
      isSuffix := hqueue ▸ List.suffix_cons job queue, hand := fun id hid => .inr ⟨job, hqueue, hid⟩
      receiver := fun id hid => ⟨hid, fun hhas => hhas.elim hmem fun hhand => by rw [hw] at hhand; cases hhand⟩
      exited := nofun, permits := ?_, lighter := ?_ },
    fun _ _ => ⟨fun _ hid => hid, fun id hid => .inl ?_⟩⟩
  · rw [State.load, load, load, hw, hqueue, List.map_cons, List.sum_cons]
    simp only [Writer.permits, State.setWriter]
    omega
  · show weigh queue (.checking job) + 2 * st.count < _
    rw [hw, hqueue]
    show 5 * queue.length + 5 + _ < 5 * (queue.length + 1) + 1 + _
    omega
  · rcases hid with hid | hhand
    · exact (hmem hid).imp_right (congrArg some)
    · rw [hw] at hhand
      cases hhand

theorem Inv.takeChunk (hw : st.writers w = .receiving id) (hsome : 0 < (st.channels id).messages) :
    Worked st ((st.setChannel id { st.channels id with messages := (st.channels id).messages - 1 }).setWriter w
      (.writingChunk id)) w ok := by
  have hid : id < st.nextId := h.known id ⟨w, .inr (by rw [hw]; rfl)⟩
  generalize hchannel : ({ st.channels id with messages := (st.channels id).messages - 1 }) = channel
  have hself : channel.messages + 1 = (st.channels id).messages ∧ channel.sender = (st.channels id).sender ∧
      channel.receiver = (st.channels id).receiver := by
    rw [← hchannel]
    exact ⟨Nat.sub_add_cancel hsome, rfl, rfl⟩
  refine ⟨st.queues w, .writingChunk id,
    { toLeaves := h.leavesChannel (fun _ hx => hx) rfl rfl hid (by omega) hself.2.1 fun _ => ?_
      queues := (update_eq_self w st.queues).symm, writers := rfl, isSuffix := List.suffix_rfl
      hand := fun x hx => .inl ⟨by rw [hw]; exact hx, rfl⟩
      receiver := forall_channels rfl (fun x c => c.receiver = true → (st.channels x).receiver = true ∧
        (Has (st.queues w) (st.writers w) x → Has (st.queues w) (.writingChunk id) x)) (fun hx => ⟨?_, fun _ => .inr rfl⟩)
        fun x _ hx => ⟨hx, ?_⟩
      exited := nofun, permits := ?_, lighter := ?_ },
    fun _ _ => ⟨fun _ hx => hx, fun x hx => .inl (hx.imp_right fun hhand => ?_)⟩⟩
  · rw [hself.2.1, hself.2.2]
    exact h.ends id (by omega)
  · rwa [hself.2.2] at hx
  · rw [hw]
    exact fun hhas => hhas
  · show st.count + _ = _ + (_ + inChannels (update st.channels id channel) _)
    have hsum := inChannels_update st.channels hid channel
    rw [State.load, load, load, hw]
    simp only [Writer.permits]
    omega
  · show weigh (st.queues w) (.writingChunk id) + 2 * st.count < _
    rw [hw]
    show _ + 2 + _ < _ + 3 + _
    omega
  · rwa [hw] at hhand

theorem Inv.exit (hw : st.writers w = .waiting) (hqueue : st.queues w = [])
    (hend : st.closed w = true ∨ ∃ ok, st.feeder = .returned ok) : Worked st (st.setWriter w .exited) w ok := by
  refine ⟨st.queues w, .exited,
    { toLeaves := h.leaves (fun _ hx => hx) rfl, queues := (update_eq_self w st.queues).symm, writers := rfl
      isSuffix := List.suffix_rfl, hand := nofun
      receiver := fun id hid => ⟨hid, .imp_right fun hhand => by rw [hw] at hhand; cases hhand⟩
      exited := fun _ => ⟨hqueue, hend⟩, permits := by rw [State.load, hw]; rfl, lighter := ?_ },
    fun _ _ => ⟨fun _ hid => hid, fun id hid => .inl (hid.imp_right fun hhand => ?_)⟩⟩
  · rw [hw]
    show 5 * _ + 0 + 2 * st.count < 5 * _ + 1 + _
    omega
  · rw [hw] at hhand
    cases hhand

theorem Inv.write (hstep : st.write w ok = some st') : Worked st st' w ok := by
  have houtcome : (if ok then Result.applied else .failed) = .applied ∨ (st.stopped || !ok) = true := by
    cases ok with
    | true => exact .inl rfl
    | false => exact .inr (Bool.or_true _)
  have hle := le_of_add_right_le (h.le_count w)
  unfold State.write at hstep
  split at hstep
  next hw =>
    split at hstep
    next job queue hqueue =>
      cases hstep
      exact h.take hw hqueue
    next hqueue =>
      split at hstep
      next hclosed =>
        cases hstep
        exact h.exit hw hqueue (.inl hclosed)
      next hfeeder _ =>
        cases hstep
        exact h.exit hw hqueue (.inr ⟨_, hfeeder⟩)
      · cases hstep
  next job hw =>
    have hchannel : (st.writers w).channel = job.channel := by rw [hw]; rfl
    have hjob : (st.writers w).job = some job.id := by rw [hw]; rfl
    have hpermits : (st.writers w).permits = job.permits := by rw [hw]; rfl
    have hweight : (st.writers w).weight = 5 := by rw [hw]; rfl
    split_ifs at hstep with hstopped
    · cases hstep
      refine (h.dropsContent (fun x hx => ?_) hchannel hpermits).worked hjob (by omega) fun _ haborted => .inr ?_
      · by_cases heq : x = w
        · rw [heq, update_self]
        · rwa [update_of_ne heq]
      · rw [haborted, Bool.false_or] at hstopped
        rw [hstopped, Bool.true_or]
    · cases hstep
      exact h.rehand hchannel.symm hjob.symm nofun hpermits.symm (hweight ▸ (show 4 < 5 by decide))
  next job hw =>
    cases hstep
    exact h.create hw ok
  next id hw =>
    cases hstep
    rw [hw] at hle
    exact (h.drops (fun _ hx => hx) (by rw [hw]; rfl) (by rw [hw]; exact Nat.sub_add_cancel hle)).worked (by rw [hw]; rfl)
      (by rw [hw]; show 1 < 2; decide) fun _ _ => houtcome
  next id hw =>
    split at hstep
    next hsome =>
      cases hstep
      exact h.takeChunk hw hsome
    · split at hstep
      · cases hstep
      · cases hstep
        exact (h.dropsReceiver (fun _ hx => hx) (by rw [hw]; rfl) (by rw [hw]; rfl)).worked (by rw [hw]; rfl)
          (by rw [hw]; show 1 < 3; decide) fun _ _ => houtcome
  next id hw =>
    -- the permit of the chunk pays for the next round
    rw [hw] at hle
    have hcount : st.count - 1 + 1 = st.count := Nat.sub_add_cancel hle
    split_ifs at hstep
    · cases hstep
      refine h.recount (by rw [hw]; rfl) (by rw [hw]; rfl) nofun (by rw [hw]; exact hcount) ?_
      rw [hw]
      show 3 + 2 * (st.count - 1) < 2 + _
      omega
    · cases hstep
      exact (h.dropsReceiver (fun _ hx => hx) (by rw [hw]; rfl) (by rw [hw]; exact hcount)).worked (by rw [hw]; rfl)
        (by rw [hw]; show 1 < 2; decide) fun _ _ => .inr (Bool.or_true _)
  next id hw =>
    cases hstep
    exact (h.drops (fun _ hx => hx) (by rw [hw]; rfl) (by rw [hw]; rfl)).worked (by rw [hw]; rfl)
      (by rw [hw]; show 1 < 2; decide) fun _ _ => houtcome
  · cases hstep

end

/-! ## A step of the feeder -/

/-- The feeder goes on and changes at most the channel that it sends to; the permits balance, and it has less to
do. -/
structure Feeds (st st' : State n) : Prop where
  aborted : st'.aborted = st.aborted
  stopped : st'.stopped = st.stopped
  results : st'.results = st.results
  queues : st'.queues = st.queues
  writers : st'.writers = st.writers
  nextId : st'.nextId = st.nextId
  closed : st'.closed = st.closed
  running : ∀ ok, st.feeder ≠ .returned ok
  current : ∀ id, st'.feeder.current = some id → st.feeder.current = some id
  fresh : ∀ id, st.nextId ≤ id → st'.channels id = st.channels id
  room : ∀ id, (st'.channels id).messages ≤ chunkCapacity
  sender : ∀ id, (st'.channels id).sender = true → st'.feeder.current = some id
  ends : ∀ id, (st'.channels id).messages ≠ 0 → (st'.channels id).sender = true ∨ (st'.channels id).receiver = true
  receiver : ∀ id, (st'.channels id).receiver = true → (st.channels id).receiver = true
  permits : st'.count + (st.feeder.permits + inChannels st.channels st.nextId) =
    st.count + (st'.feeder.permits + inChannels st'.channels st.nextId)
  lighter : (st'.calls.map Call.weight).sum + st'.feeder.weight + 2 * st'.count <
    (st.calls.map Call.weight).sum + st.feeder.weight + 2 * st.count

theorem Inv.feeds (h : Inv st) (hfeeds : Feeds st st') : Inv st' := by
  have hload : ∀ x, st'.load x = st.load x := fun x => by rw [State.load, State.load, hfeeds.queues, hfeeds.writers]
  have hlocated : ∀ id, Located st' id ↔ Located st id := fun id => by
    unfold Located
    rw [hfeeds.queues, hfeeds.writers]
  refine ⟨?_, fun id hid => ?_, hfeeds.room, hfeeds.sender, hfeeds.ends, fun id hid => ?_, fun id x hcurrent hhand => ?_,
    fun id x before job after hcurrent hsplit hchannel => ?_, fun x hx => ?_, fun id hid => ?_, fun id hid => ?_⟩
  · have hpermits := hfeeds.permits
    have hold := h.permits
    have hsum : ∑ x, st'.load x = ∑ x, st.load x := sum_congr rfl fun x _ => hload x
    rw [hfeeds.nextId]
    omega
  · rw [hfeeds.nextId] at hid
    exact (hfeeds.fresh id hid).trans (h.fresh id hid)
  · exact (hlocated id).mpr (h.receiver id (hfeeds.receiver id hid))
  · rw [hfeeds.writers] at hhand
    rw [hfeeds.queues]
    exact h.hand id x (hfeeds.current id hcurrent) hhand
  · rw [hfeeds.queues] at hsplit
    exact h.last id x before job after (hfeeds.current id hcurrent) hsplit hchannel
  · rw [hfeeds.writers] at hx
    rw [hfeeds.queues, hfeeds.closed]
    obtain ⟨hqueue, hclosed⟩ := h.exited x hx
    exact ⟨hqueue, .inl (hclosed.resolve_right fun ⟨ok, hok⟩ => hfeeds.running ok hok)⟩
  · rw [hfeeds.nextId]
    exact h.known id ((hlocated id).mp hid)
  · rw [hfeeds.nextId]
    exact h.current id (hfeeds.current id hid)

theorem Feeds.measure (h : Feeds st st') : st'.measure < st.measure := by
  have hlt := h.lighter
  unfold State.measure
  rw [h.queues, h.writers, h.aborted]
  omega

theorem Accounted.feeds (h : Accounted st) (hfeeds : Feeds st st') : Accounted st' := by
  refine ⟨hfeeds.aborted.trans h.1, fun id hid => ?_⟩
  rw [Told, hfeeds.queues, hfeeds.writers, hfeeds.stopped, hfeeds.results]
  exact h.2 id (hfeeds.nextId ▸ hid)

theorem Inv.refeed (h : Inv st) {old feeder : Feeder} {calls : List Call} {lastParent : Option Path}
    (hfeeder : st.feeder = old) (hrunning : ∀ ok, old ≠ .returned ok) (hcurrent : feeder.current = old.current)
    (hcount : count + old.permits = st.count + feeder.permits)
    (hlighter : (calls.map Call.weight).sum + feeder.weight + 2 * count <
      (st.calls.map Call.weight).sum + old.weight + 2 * st.count) :
    Feeds st { st with feeder, calls, lastParent, count } := by
  subst hfeeder
  exact
    { aborted := rfl, stopped := rfl, results := rfl, queues := rfl, writers := rfl, nextId := rfl, closed := rfl
      running := hrunning, current := fun id hid => hcurrent ▸ hid, fresh := fun _ _ => rfl, room := h.room
      sender := fun id hid => hcurrent.trans (h.sender id hid), ends := h.ends, receiver := fun _ hid => hid
      permits := by
        show count + _ = st.count + (feeder.permits + inChannels st.channels st.nextId)
        omega
      lighter := hlighter }

theorem Inv.feeder_permits_le (h : Inv st) : st.feeder.permits ≤ st.count := by
  have hpermits := h.permits
  omega

theorem Inv.refeedChannel (h : Inv st) {feeder : Feeder}
    (hcurrent : st.feeder.current = some id) (hcurrent' : ∀ x, feeder.current = some x → x = id)
    (hroom : channel.messages ≤ chunkCapacity)
    (hsender : channel.sender = true → feeder.current = some id)
    (hends : channel.messages ≠ 0 → channel.sender = true ∨ channel.receiver = true)
    (hreceiver : channel.receiver = true → (st.channels id).receiver = true)
    (hcount : count + st.feeder.permits + (st.channels id).messages = st.count + feeder.permits + channel.messages)
    (hlighter : feeder.weight + 2 * count < st.feeder.weight + 2 * st.count) :
    Feeds st { st.setChannel id channel with feeder, count } := by
  have hid := h.current id hcurrent
  have hrunning : ∀ ok, st.feeder ≠ .returned ok := fun ok hok => by
    rw [hok] at hcurrent
    cases hcurrent
  have hchannels : (st.setChannel id channel).channels = update st.channels id channel := rfl
  refine
    { aborted := rfl, stopped := rfl, results := rfl, queues := rfl, writers := rfl, nextId := rfl, closed := rfl,
      running := hrunning
      current := fun x hx => hcurrent' x hx ▸ hcurrent, fresh := fun x hx => update_of_ne (by omega) _ _
      room := forall_channels hchannels (fun _ c => c.messages ≤ chunkCapacity) hroom fun x _ => h.room x
      sender := forall_channels hchannels (fun x c => c.sender = true → feeder.current = some x) hsender fun x hne hx =>
        absurd (Option.some.inj ((h.sender x hx).symm.trans hcurrent)) hne
      ends := forall_channels hchannels (fun _ c => c.messages ≠ 0 → c.sender = true ∨ c.receiver = true) hends
        fun x _ => h.ends x
      receiver := forall_channels hchannels (fun x c => c.receiver = true → (st.channels x).receiver = true) hreceiver
        fun _ _ hx => hx
      permits := ?_, lighter := by show (st.calls.map Call.weight).sum + feeder.weight + 2 * count < _; omega }
  show count + _ = st.count + (feeder.permits + inChannels (update st.channels id channel) st.nextId)
  have hsum := inChannels_update st.channels hid channel
  omega

/-- `file` returns with a permit in its hands, and drops the sender of its channel. -/
theorem Inv.endChunks (h : Inv st) (hcurrent : st.feeder.current = some id)
    (hpermits : st.feeder.permits = 1) (hbusy : 1 < st.feeder.weight) :
    Feeds st { st.release.dropSender id with feeder := .idle } := by
  have hmessages : (st.channels id).messages ≤ inChannels st.channels st.nextId :=
    messages_le_inChannels (h.current id hcurrent)
  have hcount := h.permits
  unfold State.dropSender
  dsimp only
  split_ifs with hreceiver
  · refine h.refeedChannel hcurrent nofun (h.room id) nofun (fun _ => .inr hreceiver) (fun hx => hx) ?_ ?_
    · show st.count - 1 + _ + _ = _ + 0 + (st.channels id).messages
      omega
    · show 1 + 2 * (st.count - 1) < _
      omega
  · refine h.refeedChannel hcurrent nofun (zero_le _) nofun (fun hzero => absurd rfl hzero) nofun ?_ ?_
    · show st.count - 1 - (st.channels id).messages + _ + _ = _ + 0 + 0
      omega
    · show 1 + 2 * (st.count - 1 - (st.channels id).messages) < _
      omega

/-- A job is queued; that of a large file opens its channel. -/
structure Pushes (st st' : State n) (w : Fin n) (job : Job) (opened : Bool) : Prop where
  calls : st'.calls = st.calls
  aborted : st'.aborted = st.aborted
  stopped : st'.stopped = st.stopped
  results : st'.results = st.results
  id : job.id = st.nextId
  queues : st'.queues = Function.update st.queues w (st.queues w ++ [job])
  writers : st'.writers = st.writers
  nextId : st'.nextId = st.nextId + 1
  closed : st'.closed = st.closed
  count : st'.count = st.count
  isOpen : st.closed w = false
  running : st.feeder.current = none ∧ ∀ ok, st.feeder ≠ .returned ok
  other : ∀ id, id ≠ st.nextId → st'.channels id = st.channels id
  self : st'.channels st.nextId = ⟨0, opened, opened⟩
  channel : job.channel = if opened then some st.nextId else none
  current : st'.feeder.current = if opened then some st.nextId else none
  permits : st'.feeder.permits + job.permits = st.feeder.permits
  lighter : st'.feeder.weight + 5 < st.feeder.weight

theorem Pushes.mem (h : Pushes st st' w job opened) {job' : Job}
    (hjob : job' ∈ st'.queues x) : job' ∈ st.queues x ∨ x = w ∧ job' = job := by
  rw [h.queues] at hjob
  by_cases heq : x = w
  · subst heq
    rw [update_self] at hjob
    exact (List.mem_append.mp hjob).imp_right fun hlast => ⟨rfl, List.mem_singleton.mp hlast⟩
  · rw [update_of_ne heq] at hjob
    exact .inl hjob

theorem Pushes.mem_of_mem (h : Pushes st st' w job opened) {job' : Job}
    (hjob : job' ∈ st.queues x) : job' ∈ st'.queues x := by
  rw [h.queues]
  by_cases heq : x = w
  · subst heq
    rw [update_self]
    exact List.mem_append_left _ hjob
  · rwa [update_of_ne heq]

theorem Inv.push (h : Inv st) (hpush : Pushes st st' w job opened) : Inv st' := by
  have hnew : ¬Located st st.nextId := fun hlocated => absurd (h.known _ hlocated) (lt_irrefl _)
  have hcurrent : ∀ {id}, st'.feeder.current = some id → id = st.nextId := by
    intro id hid
    rw [hpush.current] at hid
    split_ifs at hid
    exact (Option.some.inj hid).symm
  refine ⟨?_, fun id hid => ?_, fun id => ?_, fun id hid => ?_, fun id hid => ?_, fun id hid => ?_,
    fun id x hid hhand => ?_, fun id x before job' after hid hsplit hchannel => ?_, fun x hx => ?_, fun id hid => ?_,
    fun id hid => ?_⟩
  · have hload : ∑ x, st'.load x + st.load w = ∑ x, st.load x + load (st.queues w ++ [job]) (st.writers w) :=
      sum_writers_update hpush.queues (hpush.writers.trans (update_eq_self w st.writers).symm) load
    have hsum : inChannels st'.channels (st.nextId + 1) = inChannels st.channels st.nextId := by
      rw [inChannels, sum_range_succ, hpush.self, add_zero]
      exact sum_congr rfl fun id hid => by rw [hpush.other id (mem_range.mp hid).ne]
    have hmore : load (st.queues w ++ [job]) (st.writers w) = st.load w + job.permits := by
      rw [State.load, load, load, List.map_append, List.sum_append, List.map_singleton, List.sum_singleton]
      omega
    have hold := h.permits
    have hpermits := hpush.permits
    rw [hpush.nextId, hpush.count]
    omega
  · rw [hpush.nextId] at hid
    rw [hpush.other id (by omega)]
    exact h.fresh id (by omega)
  · by_cases heq : id = st.nextId
    · rw [heq, hpush.self]
      exact zero_le _
    · rw [hpush.other id heq]
      exact h.room id
  · by_cases heq : id = st.nextId
    · rw [heq, hpush.self] at hid
      rw [hpush.current, heq, if_pos hid]
    · rw [hpush.other id heq] at hid
      exact absurd (hpush.running.1.symm.trans (h.sender id hid)) nofun
  · by_cases heq : id = st.nextId
    · rw [heq, hpush.self] at hid
      exact absurd rfl hid
    · rw [hpush.other id heq] at hid ⊢
      exact h.ends id hid
  · by_cases heq : id = st.nextId
    · rw [heq, hpush.self] at hid
      refine ⟨w, .inl ⟨job, ?_, ?_⟩⟩
      · rw [hpush.queues, update_self]
        exact List.mem_append_right _ (List.mem_singleton.mpr rfl)
      · rw [hpush.channel, heq, if_pos hid]
    · rw [hpush.other id heq] at hid
      obtain ⟨x, hx⟩ := h.receiver id hid
      refine ⟨x, ?_⟩
      rw [hpush.writers]
      exact hx.imp_left fun ⟨job', hjob, hchannel⟩ => ⟨job', hpush.mem_of_mem hjob, hchannel⟩
  · rw [hpush.writers, hcurrent hid] at hhand
    exact absurd ⟨x, .inr hhand⟩ hnew
  · obtain rfl := hcurrent hid
    rw [hpush.queues] at hsplit
    by_cases hxw : x = w
    · rw [hxw, update_self] at hsplit
      rcases split_concat hsplit with ⟨hafter, _⟩ | ⟨after', _, hold⟩
      · exact hafter
      · exact absurd ⟨w, .inl ⟨job', hold ▸ List.mem_append_cons_self, hchannel⟩⟩ hnew
    · rw [update_of_ne hxw] at hsplit
      exact absurd ⟨x, .inl ⟨job', hsplit ▸ List.mem_append_cons_self, hchannel⟩⟩ hnew
  · rw [hpush.writers] at hx
    obtain ⟨hqueue, hclosed⟩ := h.exited x hx
    have hclosed' := hclosed.resolve_right fun ⟨ok, hok⟩ => hpush.running.2 ok hok
    have hxw : x ≠ w := by
      rintro rfl
      rw [hpush.isOpen] at hclosed'
      cases hclosed'
    rw [hpush.queues, hpush.closed, update_of_ne hxw]
    exact ⟨hqueue, .inl hclosed'⟩
  · rw [hpush.nextId]
    obtain ⟨x, ⟨job', hjob, hchannel⟩ | hhand⟩ := hid
    · rcases hpush.mem hjob with hjob | ⟨_, rfl⟩
      · exact lt_succ_of_lt (h.known id ⟨x, .inl ⟨job', hjob, hchannel⟩⟩)
      · rw [hpush.channel] at hchannel
        split_ifs at hchannel
        cases hchannel
        exact lt_succ_self _
    · rw [hpush.writers] at hhand
      exact lt_succ_of_lt (h.known id ⟨x, .inr hhand⟩)
  · rw [hpush.nextId, hcurrent hid]
    exact lt_succ_self _

theorem Pushes.measure (h : Pushes st st' w job opened) : st'.measure < st.measure := by
  have hsum := sum_writers_update h.queues (h.writers.trans (update_eq_self w st.writers).symm) weigh
  have hmore : weigh (st.queues w ++ [job]) (st.writers w) = weigh (st.queues w) (st.writers w) + 5 := by
    rw [weigh, weigh, List.length_append, List.length_singleton]
    omega
  unfold State.measure
  rw [h.calls, h.count, h.aborted]
  have hlt := h.lighter
  omega

theorem Accounted.push (h : Accounted st) (hpush : Pushes st st' w job opened) : Accounted st' := by
  refine ⟨hpush.aborted.trans h.1, fun id hid => ?_⟩
  rw [hpush.nextId] at hid
  rw [Told, hpush.writers, hpush.stopped, hpush.results]
  rcases Nat.lt_succ_iff_lt_or_eq.mp hid with hid | rfl
  · refine (h.2 id hid).imp_left fun ⟨x, hx⟩ =>
      ⟨x, hx.imp_left fun ⟨job', hjob', heq⟩ => ⟨job', hpush.mem_of_mem hjob', heq⟩⟩
  · refine .inl ⟨w, .inl ⟨job, ?_, hpush.id⟩⟩
    rw [hpush.queues, update_self]
    exact List.mem_append_right _ (List.mem_singleton.mpr rfl)

def Fed (st st' : State n) : Prop := Feeds st st' ∨ ∃ w job opened, Pushes st st' w job opened

theorem Inv.beginCall (h : Inv st) (hfeeder : st.feeder = .idle) (hstep : st.beginCall ok = some st') :
    Feeds st st' := by
  unfold State.beginCall at hstep
  split at hstep
  · cases hstep
  next path stamped calls hcalls =>
    cases hstep
    refine h.refeed hfeeder nofun rfl rfl ?_
    rw [hcalls, List.map_cons, List.sum_cons]
    simp only [Feeder.weight, Call.weight]
    omega
  next path size length calls hcalls =>
    -- neither a permit nor a channel is taken yet
    have hstart : ∀ lastParent feeder, feeder.current = none → feeder.permits = 0 → feeder.weight ≤ 5 * length + 11 →
        Feeds st { st with calls, lastParent, feeder } := by
      intro lastParent feeder hcurrent hpermits hweight
      refine h.refeed hfeeder nofun hcurrent (by rw [hpermits]; rfl) ?_
      rw [hcalls, List.map_cons, List.sum_cons]
      simp only [Feeder.weight.eq_1, Call.weight]
      omega
    have hfirst : ∀ lastParent, Feeds st { st with
        calls, lastParent
        feeder := if size ≤ chunkBytes then .acquireWhole path else .sendJob path .chunks length } := by
      intro lastParent
      split_ifs
      · exact hstart _ _ rfl rfl (le_add_left _ _)
      · exact hstart _ _ rfl rfl le_rfl
    dsimp only at hstep
    split at hstep
    · cases hstep
      exact hfirst st.lastParent
    next parent _ =>
      cases ok with
      | true =>
        cases hstep
        exact hfirst (some parent)
      | false =>
        cases hstep
        refine hstart st.lastParent st.feeder ?_ ?_ ?_
        all_goals rw [hfeeder]
        · rfl
        · rfl
        · exact le_add_left 1 _

section Steps

variable [NeZero n] {hash : Path → ℕ}

theorem Inv.sendJob (h : Inv st) {path : Path} {content : Content} {left : ℕ}
    (hfeeder : st.feeder = .sendJob path content left) (hstep : st.sendJob hash path content left = some st') :
    Fed st st' := by
  have hrunning : ∀ ok, st.feeder ≠ .returned ok := fun ok hok => by rw [hfeeder] at hok; cases hok
  have hcurrent : st.feeder.current = none := by rw [hfeeder]; rfl
  have hpermits : st.feeder.permits = content.permits := by rw [hfeeder]; rfl
  have hle := h.feeder_permits_le
  have hbusy : 7 ≤ st.feeder.weight := by
    rw [hfeeder]
    cases content <;> simp only [Feeder.weight] <;> omega
  unfold State.sendJob at hstep
  dsimp only at hstep
  split at hstep
  · split at hstep
    · cases hstep
      refine .inl (h.refeed rfl hrunning hcurrent.symm ?_ ?_)
      · rw [hpermits] at hle ⊢
        exact Nat.sub_add_cancel hle
      · show (st.calls.map Call.weight).sum + 1 + 2 * (st.count - 1) < _
        omega
    next hwhole =>
      cases hstep
      refine .inl (h.refeed rfl hrunning hcurrent.symm ?_ ?_)
      · rw [hpermits]
        cases content <;> first | rfl | exact absurd rfl (hwhole ·)
      · show _ + 1 + _ < _
        omega
  next hopen =>
    have hopen' := Bool.eq_false_of_not_eq_true hopen
    split_ifs at hstep
    split at hstep
    · cases hstep
      refine .inr ⟨_, _, _,
        { calls := rfl, aborted := rfl, stopped := rfl, results := rfl, id := rfl, queues := rfl, writers := rfl
          nextId := rfl, closed := rfl, count := rfl, isOpen := hopen'
          running := ⟨hcurrent, hrunning⟩, other := fun id hid => update_of_ne hid _ _
          self := update_self _ _ _, channel := rfl, current := rfl, permits := hpermits.symm, lighter := ?_ }⟩
      rw [hfeeder]
      show 5 * left + 5 + 5 < 5 * left + 11
      omega
    next hchunks =>
      cases hstep
      refine .inr ⟨_, _, _,
        { calls := rfl, aborted := rfl, stopped := rfl, results := rfl, id := rfl, queues := rfl, writers := rfl
          nextId := rfl, closed := rfl, count := rfl, isOpen := hopen'
          running := ⟨hcurrent, hrunning⟩, other := fun _ _ => rfl
          self := h.fresh _ le_rfl, channel := ?_, current := rfl, permits := ?_, lighter := hbusy }⟩
      · cases content <;> first | rfl | exact absurd rfl (hchunks ·)
      · exact (zero_add _).trans hpermits.symm

theorem Inv.feed (h : Inv st) (hstep : st.feed hash ok = some st') : Fed st st' := by
  have hle := h.feeder_permits_le
  unfold State.feed at hstep
  split at hstep
  next hfeeder => exact .inl (h.beginCall hfeeder hstep)
  next path hfeeder =>
    split_ifs at hstep
    cases hstep
    refine .inl (h.refeed hfeeder nofun rfl rfl ?_)
    show _ + 8 + 2 * (st.count + 1) < _ + 11 + _
    omega
  next path hfeeder =>
    split_ifs at hstep
    · cases hstep
      refine .inl (h.refeed hfeeder nofun rfl rfl ?_)
      show _ + 7 + _ < _ + 8 + _
      omega
    · cases hstep
      rw [hfeeder] at hle
      refine .inl (h.refeed hfeeder nofun rfl (Nat.sub_add_cancel hle) ?_)
      show (st.calls.map Call.weight).sum + 1 + 2 * (st.count - 1) < _ + 8 + _
      omega
  next path content left hfeeder => exact h.sendJob hfeeder hstep
  next id left hfeeder =>
    split_ifs at hstep
    cases hstep
    refine .inl (h.refeed hfeeder nofun rfl rfl ?_)
    show _ + (5 * left + 2) + 2 * (st.count + 1) < _ + (5 * left + 5) + _
    omega
  next id left hfeeder =>
    split_ifs at hstep with hread
    · cases hstep
      have hleft : 0 < left := of_decide_eq_true (Bool.and_eq_true_iff.mp hread).2
      have hchunk : 0 < chunkBytes := by decide
      refine .inl (h.refeed hfeeder nofun rfl rfl ?_)
      show _ + (5 * (left - chunkBytes) + 6) + _ < _ + (5 * left + 2) + _
      omega
    · cases hstep
      refine .inl (h.endChunks (by rw [hfeeder]; rfl) (by rw [hfeeder]; rfl) ?_)
      rw [hfeeder]
      exact Nat.lt_add_left _ (Nat.lt_add_one 1)
  next id left hfeeder =>
    have hcurrent : st.feeder.current = some id := by rw [hfeeder]; rfl
    split_ifs at hstep with hreceiver hroom
    · cases hstep
      refine .inl (h.refeedChannel hcurrent (fun x hx => (Option.some.inj hx).symm) hroom (fun _ => rfl)
        (fun _ => .inr hreceiver) (fun hx => hx) ?_ ?_)
      · rw [hfeeder]
        show st.count + 1 + _ = st.count + 0 + (_ + 1)
        omega
      · rw [hfeeder]
        show 5 * left + 5 + 2 * st.count < 5 * left + 6 + _
        omega
    · cases hstep
      refine .inl (h.endChunks hcurrent (by rw [hfeeder]; rfl) ?_)
      rw [hfeeder]
      show 1 < 5 * left + 6
      omega
  · cases hstep

/-! ## A step -/

inductive Stepped (st st' : State n) : Action n → Prop where
  | feeds (a : Action n) (hfeeds : Feeds st st') : Stepped st st' a
  | pushes (a : Action n) {w : Fin n} {job : Job} {opened : Bool} (hpush : Pushes st st' w job opened) : Stepped st st' a
  | writes {w : Fin n} {ok : Bool} (hworked : Worked st st' w ok) : Stepped st st' (.write w ok)
  | aborts (haborted : ¬st.aborted) (heq : st' = { st with aborted := true }) : Stepped st st' .abort

variable {a : Action n} (hstep : step hash st a = some st')
include hstep

theorem Inv.stepped (h : Inv st) : Stepped st st' a := by
  cases a with
  | feed ok =>
    rcases h.feed hstep with hfeeds | ⟨w, job, opened, hpush⟩
    · exact .feeds _ hfeeds
    · exact .pushes _ hpush
  | leave ok =>
    simp only [step] at hstep
    split at hstep
    next hfeeder =>
      cases hstep
      refine .feeds _ (h.refeed hfeeder nofun rfl rfl ?_)
      show _ + 0 + _ < _ + 1 + _
      omega
    · cases hstep
  | write w ok => exact .writes (h.write hstep)
  | abort =>
    simp only [step] at hstep
    split_ifs at hstep with haborted
    cases hstep
    exact .aborts haborted rfl

theorem Inv.step (h : Inv st) : Inv st' := by
  cases h.stepped hstep with
  | feeds _ hfeeds => exact h.feeds hfeeds
  | pushes _ hpush => exact h.push hpush
  | writes hworked =>
    obtain ⟨queue, writer, hmoves, -⟩ := hworked
    exact h.moves hmoves
  | aborts _ heq =>
    subst heq
    exact { h with }

theorem Accounted.step (h : Accounted st) (hinv : Inv st) (hreported : Reported st a) : Accounted st' := by
  cases hinv.stepped hstep with
  | feeds _ hfeeds => exact h.feeds hfeeds
  | pushes _ hpush => exact h.push hpush
  | writes hworked =>
    obtain ⟨queue, writer, hmoves, hreports⟩ := hworked
    exact h.moves hmoves (hreports hreported h.1)
  | aborts => exact absurd rfl hreported.1

end Steps

end Wings.Archive.Writers
