import Wings.Diff.Manager

/-!
# Wings.Diff.Forget — forgetting a file after a grace period

`forget_file` of `diff/manager.rs` starts a task that sleeps, hands the deletion to a blocking thread
and then takes its own entry out of the map of pending forgets.  `cancel_pending_forget` aborts the task; an
abort has no effect on a deletion that was handed over.

* `DiffManager` — the store, the map and the tasks with how far they are.
* `Action` — the calls and the steps of the tasks.  `rename_file` is `cancelPendingForget new`
  followed by `renameStored`, so that other steps may come between the two.
* **`later_history_survives`**
-/

namespace Wings.Diff

open Lib List RowTable Storage

/-- How far the task of a `forget_file` call is. -/
inductive Phase where
  | sleeping
  | expired
  | started
  | deleted
  | finished
  deriving DecidableEq

structure ForgetTask where
  id : ℕ
  path : String
  phase : Phase
  aborted : Bool
  deriving DecidableEq

/-- The deletion of the task can still happen: an abort stops it until it is handed over. -/
def ForgetTask.Live (t : ForgetTask) : Prop :=
  (t.phase = .sleeping ∨ t.phase = .expired) ∧ t.aborted = false ∨ t.phase = .started

instance (t : ForgetTask) : Decidable t.Live := by unfold ForgetTask.Live; infer_instance

structure PendingForget where
  id : ℕ
  before : Option Bytes

structure DiffManager (C : Codec) where
  storage : Storage C
  pendingForgets : String → Option PendingForget
  forgetSeq : ℕ
  tasks : List ForgetTask

inductive Action where
  | forgetFile (path : String) (before : Option Bytes)
  | cancelPendingForget (path : String)
  | recordEdit (config : FileHistory) (path : String) (before : Option Bytes) (after : Bytes)
  | renameStored (old new : String)
  | expire (id : ℕ)
  | start (id : ℕ)
  | delete (id : ℕ)
  | cleanup (id : ℕ)
  | maintain

inductive Reply where
  | forgotten (id : ℕ)
  | cancelled (res : Option (Option Bytes))
  | recorded (res : Except StorageError Recorded) (added : List ℕ)
  | renamed (moved : List ℕ)
  | deleted (removed : List ℕ)
  | none

namespace DiffManager

variable {C : Codec}

def init : DiffManager C := ⟨.empty, fun _ => none, 0, []⟩

def updateTask (m : DiffManager C) (id : ℕ) (f : ForgetTask → ForgetTask) : DiffManager C :=
  { m with tasks := m.tasks.map fun t => if t.id = id then f t else t }

def abort (m : DiffManager C) (id : ℕ) : DiffManager C :=
  m.updateTask id fun t => { t with aborted := true }

def forgetFile (m : DiffManager C) (path : String) (before : Option Bytes) : DiffManager C × Reply :=
  let id := m.forgetSeq
  let old := m.pendingForgets path
  let m := { m with
    forgetSeq := id + 1
    tasks := m.tasks ++ [⟨id, path, .sleeping, false⟩]
    pendingForgets := Function.update m.pendingForgets path (some ⟨id, before⟩) }
  match old with
  | none => (m, .forgotten id)
  | some old => (m.abort old.id, .forgotten id)

def cancelPendingForget (m : DiffManager C) (path : String) : DiffManager C × Reply :=
  match m.pendingForgets path with
  | none => (m, .cancelled none)
  | some p =>
    ({ m with pendingForgets := Function.update m.pendingForgets path none }.abort p.id,
      .cancelled (some p.before))

def revisionIds (s : Storage C) (path : String) : List ℕ :=
  match s.findFile path with
  | none => []
  | some fileId => (s.ofFile fileId).map Revision.id

/-- The revisions of a store that are not in another one. -/
def removedIds (s s' : Storage C) : List ℕ :=
  (s.revisions.rows.filter fun r => (s'.revisions.find r.id).isNone).map Revision.id

/-- A step of a task: from one phase to the next, if the task is there and not aborted in between. -/
def advance (m : DiffManager C) (id : ℕ) (source target : Phase) (aborts : Bool) : DiffManager C :=
  m.updateTask id fun t =>
    if t.phase = source ∧ ¬(aborts ∧ t.aborted) then { t with phase := target } else t

def step (m : DiffManager C) : Action → DiffManager C × Reply
  | .forgetFile path before => m.forgetFile path before
  | .cancelPendingForget path => m.cancelPendingForget path
  | .recordEdit config path before after =>
    let (res, s) := m.storage.recordEdit config path before after
    ({ m with storage := s }, .recorded res (removedIds s m.storage))
  | .renameStored old new =>
    match m.storage.renameFile old new with
    | .ok s => ({ m with storage := s }, .renamed (revisionIds m.storage old))
    | .error _ => (m, .renamed [])
  | .expire id => (m.advance id .sleeping .expired true, .none)
  | .start id => (m.advance id .expired .started true, .none)
  | .delete id =>
    -- the blocking thread takes no notice of an abort
    match m.tasks.find? fun t => t.id = id ∧ t.phase = .started with
    | none => (m, .none)
    | some t =>
      ({ m.advance id .started .deleted false with storage := m.storage.deleteFile t.path },
        .deleted (removedIds m.storage (m.storage.deleteFile t.path)))
  | .cleanup id =>
    match m.tasks.find? fun t => t.id = id ∧ t.phase = .deleted ∧ t.aborted = false with
    | none => (m, .none)
    | some t =>
      let m' := m.advance id .deleted .finished true
      if (m.pendingForgets t.path).any fun p => p.id = id then
        ({ m' with pendingForgets := Function.update m.pendingForgets t.path none }, .none)
      else (m', .none)
  | .maintain =>
    ({ m with pendingForgets := fun path => (m.pendingForgets path).filter fun p =>
        ¬∃ t ∈ m.tasks, t.id = p.id ∧ (t.phase = .finished ∨ t.aborted = true) }, .none)

/-- The revisions recorded for, or moved to, the path in one step. -/
def arrivalsOf (path : String) : Action × Reply → List ℕ
  | (.recordEdit _ p _ _, .recorded _ added) => if p = path then added else []
  | (.renameStored _ new, .renamed moved) => if new = path then moved else []
  | _ => []

/-- The revisions recorded for, or moved to, the path in a part of a run. -/
def arrivals (path : String) (tr : List (Action × Reply)) : List ℕ := tr.flatMap (arrivalsOf path)

/-- A revision comes to a path only while no forget of the path can still delete. -/
def Quiet (_ : List (Action × Reply)) (m : DiffManager C) : Action → Prop
  | .recordEdit _ path _ _ => ∀ t ∈ m.tasks, t.path = path → ¬t.Live
  | .renameStored _ new => ∀ t ∈ m.tasks, t.path = new → ¬t.Live
  | _ => True

/-! ## What the steps do to the tasks -/

/-- Every task after the step was there before, and none became live. -/
def Descends (m m' : DiffManager C) : Prop :=
  m'.forgetSeq = m.forgetSeq ∧ ∀ t' ∈ m'.tasks, ∃ t ∈ m.tasks, t.id = t'.id ∧ t.path = t'.path ∧ (t'.Live → t.Live)

variable {m m' : DiffManager C} {tr : List (Action × Reply)}

theorem descends_of_tasks (hseq : m'.forgetSeq = m.forgetSeq) (h : m'.tasks = m.tasks) : Descends m m' :=
  ⟨hseq, fun t' ht' => ⟨t', h ▸ ht', rfl, rfl, id⟩⟩

theorem descends_updateTask {id : ℕ} {f : ForgetTask → ForgetTask}
    (hf : ∀ t, (f t).id = t.id ∧ (f t).path = t.path ∧ ((f t).Live → t.Live)) :
    Descends m (m.updateTask id f) := by
  refine ⟨rfl, fun t' ht' => ?_⟩
  obtain ⟨t, ht, rfl⟩ := mem_map.mp ht'
  refine ⟨t, ht, ?_⟩
  split_ifs
  · exact ⟨(hf t).1.symm, (hf t).2.1.symm, (hf t).2.2⟩
  · exact ⟨rfl, rfl, fun h => h⟩

theorem descends_abort (id : ℕ) : Descends m (m.abort id) :=
  descends_updateTask fun _ => ⟨rfl, rfl, fun h => h.elim (fun ⟨_, h⟩ => absurd h (by simp)) .inr⟩

theorem descends_advance (id : ℕ) {source target : Phase} {aborts : Bool}
    (h : target = .deleted ∨ target = .finished ∨ aborts = true ∧ (source = .sleeping ∨ source = .expired)) :
    Descends m (m.advance id source target aborts) := by
  refine descends_updateTask fun t => ?_
  split_ifs with hphase
  · refine ⟨rfl, rfl, fun hlive => ?_⟩
    simp only [ForgetTask.Live] at hlive ⊢
    rcases h with rfl | rfl | ⟨rfl, hsource⟩
    · simp at hlive
    · simp at hlive
    · exact .inl ⟨hphase.1 ▸ hsource, by simpa using hphase.2⟩
  · exact ⟨rfl, rfl, fun h => h⟩

theorem descends_step (m : DiffManager C) (a : Action) (h : ∀ path before, a ≠ .forgetFile path before) :
    Descends m (m.step a).1 := by
  cases a with
  | forgetFile path before => exact absurd rfl (h path before)
  | cancelPendingForget path =>
    simp only [step, cancelPendingForget]
    split
    · exact descends_of_tasks rfl rfl
    · exact descends_abort _
  | recordEdit config path before after => exact descends_of_tasks rfl rfl
  | renameStored old new =>
    simp only [step]
    split <;> exact descends_of_tasks rfl rfl
  | expire id => exact descends_advance id (by simp)
  | start id => exact descends_advance id (by simp)
  | delete id =>
    have hadvance : Descends m (m.advance id .started .deleted false) := descends_advance id (by simp)
    simp only [step]
    split
    · exact descends_of_tasks rfl rfl
    · exact hadvance
  | cleanup id =>
    have hadvance : Descends m (m.advance id .deleted .finished true) := descends_advance id (by simp)
    simp only [step]
    split
    · exact descends_of_tasks rfl rfl
    · split_ifs <;> exact hadvance
  | maintain => exact descends_of_tasks rfl rfl

/-- What `forget_file` leaves: the tasks there were, some aborted, and the new one. -/
theorem forgetFile_tasks (m : DiffManager C) (path : String) (before : Option Bytes) :
    (m.forgetFile path before).2 = .forgotten m.forgetSeq ∧
      (m.forgetFile path before).1.forgetSeq = m.forgetSeq + 1 ∧
      ∀ t' ∈ (m.forgetFile path before).1.tasks,
        (t'.id = m.forgetSeq ∧ t'.path = path) ∨
        ∃ t ∈ m.tasks, t.id = t'.id ∧ t.path = t'.path ∧ (t'.Live → t.Live) := by
  have hnew : ∀ t' ∈ m.tasks ++ [⟨m.forgetSeq, path, .sleeping, false⟩],
      (t'.id = m.forgetSeq ∧ t'.path = path) ∨
        ∃ t ∈ m.tasks, t.id = t'.id ∧ t.path = t'.path ∧ (t'.Live → t.Live) := by
    intro t' ht'
    rcases mem_append.mp ht' with h | h
    · exact .inr ⟨t', h, rfl, rfl, id⟩
    · rw [mem_singleton.mp h]
      exact .inl ⟨rfl, rfl⟩
  simp only [forgetFile]
  split
  · exact ⟨rfl, rfl, hnew⟩
  · rename_i old _
    refine ⟨rfl, rfl, fun t' ht' => ?_⟩
    obtain ⟨t, ht, hid, hpath, hlive⟩ := (descends_abort old.id).2 t' ht'
    rcases hnew t ht with h | ⟨t₀, ht₀, hid₀, hpath₀, hlive₀⟩
    · exact .inl ⟨hid.symm.trans h.1, hpath.symm.trans h.2⟩
    · exact .inr ⟨t₀, ht₀, hid₀.trans hid, hpath₀.trans hpath, hlive₀ ∘ hlive⟩

/-! ## Runs -/

/-- The invariant of quiet runs: ids in use are below the counter, and since the call of a live forget
nothing came to its path. -/
structure Undisturbed (tr : List (Action × Reply)) (m : DiffManager C) : Prop where
  tasks : ∀ t ∈ m.tasks, t.id < m.forgetSeq
  calls : ∀ path before id, (.forgetFile path before, .forgotten id) ∈ tr → id < m.forgetSeq
  none : ∀ t ∈ m.tasks, t.Live → ∀ pre mid path before,
    tr = pre ++ (.forgetFile path before, .forgotten t.id) :: mid → path = t.path ∧ arrivals t.path mid = []

theorem arrivals_concat (path : String) (tr : List (Action × Reply)) (e : Action × Reply) :
    arrivals path (tr ++ [e]) = arrivals path tr ++ arrivalsOf path e := by
  simp [arrivals]

theorem arrivalsOf_eq_nil {a : Action} (hq : Quiet tr m a)
    {t : ForgetTask} (ht : t ∈ m.tasks) (hlive : t.Live) (reply : Reply) :
    arrivalsOf t.path (a, reply) = [] := by
  cases a with
  | recordEdit config path before after =>
    have hne : path ≠ t.path := fun h => hq t ht h.symm hlive
    unfold arrivalsOf
    split <;> simp_all
  | renameStored old new =>
    have hne : new ≠ t.path := fun h => hq t ht h.symm hlive
    unfold arrivalsOf
    split <;> simp_all
  | _ => rfl

theorem undisturbed_forgetFile (h : Undisturbed tr m) (path : String) (before : Option Bytes) :
    Undisturbed (tr ++ [(.forgetFile path before, (m.forgetFile path before).2)]) (m.forgetFile path before).1 := by
  obtain ⟨hreply, hseq, htasks⟩ := forgetFile_tasks m path before
  rw [hreply]
  refine ⟨fun t' ht' => ?_, fun p b id hmem => ?_, fun t' ht' hlive pre mid p b hsplit => ?_⟩
  · rcases htasks t' ht' with h' | ⟨t, ht, hid, _⟩
    · omega
    · have := h.tasks t ht
      omega
  · rw [hseq]
    rcases mem_append.mp hmem with hmem | hmem
    · exact (h.calls p b id hmem).trans (Nat.lt_succ_self _)
    · simp only [mem_singleton, Prod.mk.injEq, Reply.forgotten.injEq] at hmem
      omega
  · -- the call is this one exactly for the new task
    rcases htasks t' ht' with ⟨hid, hpath⟩ | ⟨t, ht, hid, hpath, hlive'⟩
    · rcases split_concat hsplit with ⟨rfl, heq⟩ | ⟨mid', rfl, htr⟩
      · obtain ⟨rfl, _⟩ : path = p ∧ before = b := by simpa using congrArg Prod.fst heq
        exact ⟨hpath.symm, rfl⟩
      · have := h.calls p b t'.id (htr ▸ by simp)
        omega
    · have hlt := h.tasks t ht
      rcases split_concat hsplit with ⟨rfl, heq⟩ | ⟨mid', rfl, htr⟩
      · have : m.forgetSeq = t'.id := by simpa using congrArg Prod.snd heq
        omega
      · rw [← hid] at htr
        obtain ⟨hp, hnil⟩ := h.none t ht (hlive' hlive) pre mid' p b htr
        rw [← hpath, arrivals_concat, hnil]
        exact ⟨hp, rfl⟩

theorem undisturbed_step (h : Undisturbed tr m) {a : Action}
    (hq : Quiet tr m a) : Undisturbed (tr ++ [(a, (m.step a).2)]) (m.step a).1 := by
  by_cases hforget : ∃ path before, a = .forgetFile path before
  · obtain ⟨path, before, rfl⟩ := hforget
    exact undisturbed_forgetFile h path before
  · simp only [not_exists] at hforget
    obtain ⟨hseq, htasks⟩ := descends_step m a hforget
    refine ⟨fun t' ht' => ?_, fun p b id hmem => ?_, fun t' ht' hlive pre mid p b hsplit => ?_⟩
    · obtain ⟨t, ht, hid, _⟩ := htasks t' ht'
      rw [hseq, ← hid]
      exact h.tasks t ht
    · rw [hseq]
      rcases mem_append.mp hmem with hmem | hmem
      · exact h.calls p b id hmem
      · exact absurd (congrArg Prod.fst (mem_singleton.mp hmem)).symm (hforget p b)
    · obtain ⟨t, ht, hid, hpath, hlive'⟩ := htasks t' ht'
      rcases split_concat hsplit with ⟨rfl, heq⟩ | ⟨mid', rfl, htr⟩
      · exact absurd (congrArg Prod.fst heq) (hforget p b)
      · rw [← hid] at htr
        obtain ⟨hp, hnil⟩ := h.none t ht (hlive' hlive) pre mid' p b htr
        rw [← hpath, arrivals_concat, hnil, arrivalsOf_eq_nil hq ht (hlive' hlive)]
        exact ⟨hp, rfl⟩

theorem undisturbed_init : Undisturbed [] (init : DiffManager C) :=
  ⟨by simp [init], by simp, by simp [init]⟩

/-- **A delayed forget never destroys later history**, in every run in which revisions come to a path only while no
forget of it can still delete: what the deletion of a forget removes was not recorded for, or moved to, the
path since the forget was called. -/
theorem later_history_survives {as : List Action} (h : Steps step Quiet (init : DiffManager C) as) {id : ℕ}
    {removed : List ℕ} (hdelete : ((exec step (init : DiffManager C) as).step (.delete id)).2 = .deleted removed)
    {pre mid : List (Action × Reply)} {path : String} {before : Option Bytes}
    (htr : trace step (init : DiffManager C) as = pre ++ (.forgetFile path before, .forgotten id) :: mid) :
    ∀ x ∈ removed, x ∉ arrivals path mid := by
  have hinv := inv_of_steps undisturbed_init (fun tr m a hm hq => undisturbed_step hm hq) h
  simp only [step] at hdelete
  split at hdelete
  · cases hdelete
  · rename_i t hfind
    have hstarted : t.id = id ∧ t.phase = .started := by simpa using find?_some hfind
    obtain ⟨rfl, hphase⟩ := hstarted
    obtain ⟨rfl, hnil⟩ :=
      hinv.none t (mem_of_find?_eq_some hfind) (.inr hphase) pre mid path before htr
    rw [hnil]
    exact fun x _ => not_mem_nil

/-- A file edited, then forgotten, up to the deletion. -/
def forgottenLater : List Action :=
  [.recordEdit ⟨true, 1, 1, 0, 0⟩ "a" none [1], .forgetFile "a" none, .expire 0, .start 0]

theorem later_history_survives_deletion :
    ∃ removed, ((exec step (init : DiffManager frames) forgottenLater).step
        (.delete 0)).2 = .deleted removed ∧
      ∀ x ∈ removed, x ∉ arrivals "a" [(.expire 0, .none), (.start 0, .none)] := by
  have hsteps : Steps step Quiet (init : DiffManager frames) forgottenLater := by
    simp only [forgottenLater, steps_cons, Quiet]
    exact ⟨by simp [init], trivial, trivial, trivial, steps_nil⟩
  have htrace : trace step (init : DiffManager frames) forgottenLater =
      [(.recordEdit ⟨true, 1, 1, 0, 0⟩ "a" none [1], (init.step (.recordEdit ⟨true, 1, 1, 0, 0⟩ "a" none [1])).2)] ++
        (.forgetFile "a" none, .forgotten 0) :: [(.expire 0, .none), (.start 0, .none)] := rfl
  exact ⟨_, rfl, later_history_survives hsteps rfl htrace⟩

/-- A file forgotten, then written again before the timer expires, up to the deletion. -/
def forgottenThenEdited : List Action :=
  [.forgetFile "a" none, .recordEdit ⟨true, 1, 1, 0, 0⟩ "a" none [1], .expire 0, .start 0]

/-- **An edit within the grace period is deleted**: `record_edit` does not cancel the pending forget. -/
theorem later_edit_forgotten :
    ∃ removed mid, ((exec step (init : DiffManager frames) forgottenThenEdited).step
        (.delete 0)).2 = .deleted removed ∧
      trace step (init : DiffManager frames) forgottenThenEdited =
        (.forgetFile "a" none, .forgotten 0) :: mid ∧
      1 ∈ removed ∧ 1 ∈ arrivals "a" mid := by
  refine ⟨_, _, rfl, rfl, ?_, ?_⟩ <;> decide +kernel

end DiffManager

end Wings.Diff
