import Wings.Path

/-!
# Wings.Archive.Itaf — the directories of a distributed itaf archive

`create_itaf_distributed` receives paths in any order.  Before each entry it closes and opens directories of the
encoder, along what the open directories and the entry's parents have in common.

* `openDirs` — the directories that are open in the encoder after some calls.
* **`itaf_entries_placed`**
-/

namespace Wings.Archive.Itaf

open List

/-- A call of the encoder, with the path whose metadata is given to it. -/
inductive Event
  | enterDir (name : FileName) (path : Subpath)
  | addFile (name : FileName) (path : Subpath)
  | addSymlink (name : FileName) (path : Subpath)
  | exitDir
  deriving DecidableEq

/-- What a received path is; of what is neither a directory nor a file, whether its contents can be read as a
link. -/
inductive Kind
  | dir
  | file
  | link
  | special

/-- A path from the channel, and its metadata if that can be read. -/
structure Received where
  source : Path
  metadata : Option Kind

/-- A call, and `dir_stack` when the stack is up to date with it. -/
structure Call where
  event : Event
  dirStack : Subpath

structure Writer where
  dirStack : Subpath
  calls : List Call

def pathComponents (path : Path) : Subpath :=
  path.filterMap fun
    | .normal name => some name.lossy
    | _ => none

namespace Writer

def emit (w : Writer) (event : Event) (dirStack : Subpath) : Writer := ⟨dirStack, w.calls ++ [⟨event, dirStack⟩]⟩

def exitDir (w : Writer) : Writer := w.emit .exitDir w.dirStack.dropLast

def enterParent (w : Writer) (name : FileName) : Writer :=
  w.emit (.enterDir name (w.dirStack ++ [name])) (w.dirStack ++ [name])

/-- How many directories two paths begin with in common. -/
def shared (dirStack target : Subpath) : ℕ := ((dirStack.zip target).takeWhile fun p => p.1 = p.2).length

def syncDirStackWithMeta (w : Writer) (target : Subpath) : Writer :=
  let n := shared w.dirStack target
  (target.drop n).foldl enterParent (exitDir^[w.dirStack.length - n] w)

/-- One path of the loop; `validateName` is that of the itaf crate. -/
def receive (validateName : FileName → Bool) (w : Writer) (r : Received) : Writer :=
  let components := pathComponents r.source
  match r.metadata, components.getLast? with
  | none, _ | _, none | some .special, _ => w
  | some .dir, some name =>
    let w := w.syncDirStackWithMeta components.dropLast
    w.emit (.enterDir name components) (w.dirStack ++ [name])
  | some .file, some name =>
    let w := w.syncDirStackWithMeta components.dropLast
    w.emit (.addFile name components) w.dirStack
  | some .link, some name =>
    let w := w.syncDirStackWithMeta components.dropLast
    if validateName name then w.emit (.addSymlink name components) w.dirStack else w

end Writer

/-- The loop; a call that fails ends it early. -/
def receiveAll (validateName : FileName → Bool) (sources : List Received) : Writer :=
  sources.foldl (Writer.receive validateName) ⟨[], []⟩

def createItafDistributed (validateName : FileName → Bool) (sources : List Received) : List Event :=
  let w := receiveAll validateName sources
  w.calls.map (·.event) ++ List.replicate w.dirStack.length .exitDir

/-! ## The encoder -/

/-- The open directories after a call; `none` if there is none to close. -/
def Event.apply (dirs : Subpath) : Event → Option Subpath
  | .enterDir name _ => some (dirs ++ [name])
  | .addFile _ _ | .addSymlink _ _ => some dirs
  | .exitDir => if dirs = [] then none else some dirs.dropLast

def openDirs (events : List Event) : Option Subpath := events.foldlM Event.apply []

def Event.entry? : Event → Option (FileName × Subpath)
  | .enterDir name path | .addFile name path | .addSymlink name path => some (name, path)
  | .exitDir => none

def Event.isEnter : Event → Bool
  | .enterDir _ _ => true
  | _ => false

/-- The call that writes the entry of a received path, if it can be written. -/
def Received.event (validateName : FileName → Bool) (r : Received) : Option Event :=
  (pathComponents r.source).getLast?.bind fun name =>
    match r.metadata with
    | some .dir => some (.enterDir name (pathComponents r.source))
    | some .file => some (.addFile name (pathComponents r.source))
    | some .link => if validateName name then some (.addSymlink name (pathComponents r.source)) else none
    | some .special | none => none

/-- A call that only closes a directory, or opens one of those on a path. -/
def Event.Moves (target : Subpath) (event : Event) : Prop :=
  event = .exitDir ∨ ∃ name path, event = .enterDir name path ∧ path <+: target

open Writer

variable {dirs : Subpath} {events : List Event}

theorem openDirs_concat (h : openDirs events = some dirs) (event : Event) :
    openDirs (events ++ [event]) = event.apply dirs := by
  rw [openDirs, foldlM_append, ← openDirs, h]
  exact bind_pure (event.apply dirs)

theorem count_of_openDirs (h : openDirs events = some dirs) :
    events.countP Event.isEnter = events.count .exitDir + dirs.length := by
  induction events using reverseRecOn generalizing dirs with
  | nil => cases h; rfl
  | append_singleton events event ih =>
    rw [openDirs, foldlM_append] at h
    obtain ⟨before, hbefore, happly⟩ := Option.bind_eq_some_iff.1 h
    replace happly : event.apply before = some dirs := by simpa using happly
    rw [countP_append, ih hbefore]
    cases event with
    | enterDir name path => cases happly; simp [Event.isEnter]; omega
    | addFile name path => cases happly; simp [Event.isEnter]
    | addSymlink name path => cases happly; simp [Event.isEnter]
    | exitDir =>
      rw [Event.apply] at happly
      split_ifs at happly with hempty
      cases happly
      have := length_pos_iff.2 hempty
      simp [Event.isEnter]
      omega

/-! ## The calls of the loop -/

/-- An entry is written in its own directory, and the stack is that of the encoder. -/
structure CallPlaced (before : List Event) (call : Call) : Prop where
  parents : ∀ name path, call.event.entry? = some (name, path) →
    openDirs before = some path.dropLast ∧ path.getLast? = some name
  dirStack : openDirs (before ++ [call.event]) = some call.dirStack

structure Placed (w : Writer) : Prop where
  stack : openDirs (w.calls.map (·.event)) = some w.dirStack
  calls : ∀ before call after, w.calls = before ++ call :: after → CallPlaced (before.map (·.event)) call

variable {w : Writer}

theorem Placed.emit (h : Placed w) {event : Event} {stack : Subpath} (happly : event.apply w.dirStack = some stack)
    (hpath : ∀ name path, event.entry? = some (name, path) → path = w.dirStack ++ [name]) :
    Placed (w.emit event stack) := by
  have hopen : openDirs (w.calls.map (·.event) ++ [event]) = some stack := (openDirs_concat h.stack event).trans happly
  refine ⟨by rw [Writer.emit, map_append]; exact hopen, fun before call after heq => ?_⟩
  rcases eq_nil_or_concat' after with rfl | ⟨after, last, rfl⟩
  · obtain ⟨rfl, hcall⟩ := append_inj' heq rfl
    cases hcall
    refine ⟨fun name path hentry => ?_, hopen⟩
    rw [hpath name path hentry, dropLast_concat, h.stack]
    exact ⟨rfl, by simp⟩
  · refine h.calls before call after ?_
    rw [← cons_append, ← append_assoc] at heq
    exact (append_inj' heq rfl).1

theorem Placed.exits (h : Placed w) {n : ℕ} (hn : n ≤ w.dirStack.length) :
    Placed (exitDir^[n] w) ∧ (exitDir^[n] w).dirStack = w.dirStack.take (w.dirStack.length - n) := by
  induction n with
  | zero => exact ⟨h, by simp⟩
  | succ n ih =>
    obtain ⟨hplaced, hstack⟩ := ih (by omega)
    have hne : (exitDir^[n] w).dirStack ≠ [] := by
      rw [hstack, ← length_pos_iff, length_take]
      omega
    rw [Function.iterate_succ_apply']
    refine ⟨hplaced.emit (if_neg hne) (fun name path hentry => by cases hentry), ?_⟩
    rw [exitDir, hstack, dropLast_eq_take, take_take, length_take]
    exact congrArg (w.dirStack.take ·) (by omega)

theorem Placed.enters (h : Placed w) (target : Subpath) :
    Placed (target.foldl enterParent w) ∧ (target.foldl enterParent w).dirStack = w.dirStack ++ target := by
  induction target generalizing w with
  | nil => exact ⟨h, by simp⟩
  | cons name target ih =>
    have hemit : Placed (w.enterParent name) := h.emit rfl fun name' path hentry => by
      cases hentry
      rfl
    obtain ⟨hplaced, hstack⟩ := ih hemit
    exact ⟨hplaced, hstack.trans (by simp [enterParent, Writer.emit])⟩

theorem shared_spec (dirStack target : Subpath) :
    shared dirStack target ≤ dirStack.length ∧
      dirStack.take (shared dirStack target) = target.take (shared dirStack target) := by
  unfold shared
  induction dirStack generalizing target with
  | nil => simp
  | cons a dirStack ih =>
    cases target with
    | nil => simp
    | cons b target =>
      rw [zip_cons_cons, takeWhile_cons]
      split_ifs with heq
      · obtain ⟨hle, htake⟩ := ih target
        rw [length_cons, take_succ_cons, htake]
        exact ⟨Nat.succ_le_succ hle, congrArg (· :: _) (of_decide_eq_true heq)⟩
      · exact ⟨Nat.zero_le _, rfl⟩

theorem Placed.sync (h : Placed w) (target : Subpath) :
    Placed (w.syncDirStackWithMeta target) ∧ (w.syncDirStackWithMeta target).dirStack = target := by
  obtain ⟨hle, htake⟩ := shared_spec w.dirStack target
  obtain ⟨hexits, hstack⟩ := h.exits (Nat.sub_le w.dirStack.length (shared w.dirStack target))
  obtain ⟨henters, hfinal⟩ := hexits.enters (target.drop (shared w.dirStack target))
  refine ⟨henters, hfinal.trans ?_⟩
  rw [hstack, Nat.sub_sub_self hle, htake, take_append_drop]

theorem Placed.receive (h : Placed w) (validateName : FileName → Bool) (r : Received) :
    Placed (w.receive validateName r) := by
  obtain ⟨hsync, hstack⟩ := h.sync (pathComponents r.source).dropLast
  have hpath : ∀ name, (pathComponents r.source).getLast? = some name → pathComponents r.source =
      (w.syncDirStackWithMeta (pathComponents r.source).dropLast).dirStack ++ [name] := by
    intro name hname
    rw [hstack, dropLast_append_getLast? name hname]
  unfold Writer.receive
  extract_lets components w'
  split
  · exact h
  · exact h
  · exact h
  · next name _ hname =>
    exact hsync.emit rfl fun name' path hentry => by cases hentry; exact hpath name hname
  · next name _ hname =>
    exact hsync.emit rfl fun name' path hentry => by cases hentry; exact hpath name hname
  · next name _ hname =>
    split_ifs
    · exact hsync.emit rfl fun name' path hentry => by cases hentry; exact hpath name hname
    · exact hsync

theorem placed_receiveAll (validateName : FileName → Bool) (sources : List Received) :
    Placed (receiveAll validateName sources) := by
  induction sources using reverseRecOn with
  | nil => exact ⟨rfl, fun before call after heq => by simp [receiveAll] at heq⟩
  | append_singleton sources r ih =>
    rw [receiveAll, foldl_append]
    exact ih.receive validateName r

/-! ## The calls of one round -/

theorem calls_exits (w : Writer) (n : ℕ) :
    ∃ mid, (exitDir^[n] w).calls = w.calls ++ mid ∧ ∀ call ∈ mid, call.event = .exitDir := by
  induction n with
  | zero => exact ⟨[], by simp⟩
  | succ n ih =>
    obtain ⟨mid, hcalls, hmid⟩ := ih
    rw [Function.iterate_succ_apply', exitDir, Writer.emit, hcalls]
    exact ⟨mid ++ [⟨.exitDir, _⟩], append_assoc .., forall_mem_append.mpr ⟨hmid, forall_mem_singleton.mpr rfl⟩⟩

theorem calls_enters (w : Writer) (names : Subpath) :
    ∃ mid, (names.foldl enterParent w).calls = w.calls ++ mid ∧ ∀ call ∈ mid, call.event.Moves (w.dirStack ++ names) := by
  induction names generalizing w with
  | nil => exact ⟨[], by simp⟩
  | cons name names ih =>
    obtain ⟨mid, hcalls, hmid⟩ := ih (w.enterParent name)
    have hstack : (w.enterParent name).dirStack ++ names = w.dirStack ++ name :: names := (append_cons ..).symm
    refine ⟨⟨.enterDir name (w.dirStack ++ [name]), w.dirStack ++ [name]⟩ :: mid, ?_,
      forall_mem_cons.mpr ⟨?_, hstack ▸ hmid⟩⟩
    · rw [foldl_cons, hcalls, append_cons]
      rfl
    · exact .inr ⟨name, _, rfl, hstack ▸ prefix_append _ _⟩

theorem Placed.calls_sync (h : Placed w) (target : Subpath) :
    ∃ mid, (w.syncDirStackWithMeta target).calls = w.calls ++ mid ∧ ∀ call ∈ mid, call.event.Moves target := by
  obtain ⟨_, hfinal⟩ := h.sync target
  obtain ⟨hexits, _⟩ := h.exits (Nat.sub_le w.dirStack.length (shared w.dirStack target))
  obtain ⟨closed, hclosed, hexit⟩ := calls_exits w (w.dirStack.length - shared w.dirStack target)
  obtain ⟨opened, hopened, henter⟩ := calls_enters (exitDir^[w.dirStack.length - shared w.dirStack target] w)
    (target.drop (shared w.dirStack target))
  rw [← (hexits.enters _).2, ← syncDirStackWithMeta, hfinal] at henter
  refine ⟨closed ++ opened, ?_, forall_mem_append.mpr ⟨fun call hcall => .inl (hexit call hcall), henter⟩⟩
  rw [syncDirStackWithMeta, hopened, hclosed, append_assoc]

/-- **One received path**: directories are closed and those above the path are opened, and then its entry is
written. -/
theorem Placed.calls_receive (h : Placed w) (validateName : FileName → Bool) (r : Received) :
    ∃ mid, (w.receive validateName r).calls.map (·.event) =
        w.calls.map (·.event) ++ mid ++ (r.event validateName).toList ∧
      ∀ event ∈ mid, event.Moves (pathComponents r.source).dropLast := by
  obtain ⟨mid, hcalls, hmid⟩ := h.calls_sync (pathComponents r.source).dropLast
  have hmoves : ∀ event ∈ mid.map (·.event), event.Moves (pathComponents r.source).dropLast := forall_mem_map.mpr hmid
  have hsync : (w.syncDirStackWithMeta (pathComponents r.source).dropLast).calls.map (·.event) =
      w.calls.map (·.event) ++ mid.map (·.event) := by rw [hcalls, map_append]
  simp only [Writer.receive, Received.event]
  cases hname : (pathComponents r.source).getLast? with
  | none =>
    refine ⟨[], ?_, nofun⟩
    rcases r.metadata with _ | _ | _ | _ | _ <;> simp
  | some name =>
    cases r.metadata with
    | none => exact ⟨[], by simp, nofun⟩
    | some kind =>
      cases kind with
      | special => exact ⟨[], by simp, nofun⟩
      | dir => exact ⟨_, by simp [Writer.emit, hsync], hmoves⟩
      | file => exact ⟨_, by simp [Writer.emit, hsync], hmoves⟩
      | link =>
        refine ⟨_, ?_, hmoves⟩
        by_cases hvalid : validateName name = true <;> simp [Writer.emit, hsync, hvalid]

theorem openDirs_exits (events : List Event) (dirs : Subpath) (h : openDirs events = some dirs) :
    openDirs (events ++ replicate dirs.length .exitDir) = some [] := by
  induction dirs using reverseRecOn generalizing events with
  | nil => simpa using h
  | append_singleton dirs name ih =>
    have hexit := openDirs_concat h .exitDir
    rw [Event.apply, if_neg (by simp), dropLast_concat] at hexit
    rw [length_append, Nat.add_comm, replicate_add, ← append_assoc]
    exact ih _ hexit

/-- **Every entry is placed under its own parents**, for received paths in any order: in the round of a path the
directories above it are opened, others are closed, and then its entry is written, if there is one.  When a
directory is entered or a file or link is added for a path, the directories open in the encoder are the parents of
that path, and after each call of the loop `dir_stack` has the open directories.  When the archive is finished
every directory that was entered has been left, and none is open. -/
theorem itaf_entries_placed (validateName : FileName → Bool) (sources : List Received) :
    (∀ before r after, sources = before ++ r :: after →
      ∃ mid, (receiveAll validateName (before ++ [r])).calls.map (·.event) =
          (receiveAll validateName before).calls.map (·.event) ++ mid ++ (r.event validateName).toList ∧
        ∀ event ∈ mid, event.Moves (pathComponents r.source).dropLast) ∧
    (∀ before call after, (receiveAll validateName sources).calls = before ++ call :: after →
      (∀ name path, call.event.entry? = some (name, path) →
        openDirs (before.map (·.event)) = some path.dropLast ∧ path.getLast? = some name) ∧
      openDirs (before.map (·.event) ++ [call.event]) = some call.dirStack) ∧
    openDirs (createItafDistributed validateName sources) = some [] ∧
    (createItafDistributed validateName sources).countP Event.isEnter =
      (createItafDistributed validateName sources).count .exitDir := by
  have hplaced := placed_receiveAll validateName sources
  have hclosed : openDirs (createItafDistributed validateName sources) = some [] :=
    openDirs_exits _ _ hplaced.stack
  refine ⟨fun before r after _ => ?_, fun before call after heq => ?_, hclosed, count_of_openDirs hclosed⟩
  · rw [receiveAll, foldl_append]
    exact (placed_receiveAll validateName before).calls_receive validateName r
  · have hcall := hplaced.calls before call after heq
    exact ⟨hcall.parents, hcall.dirStack⟩

end Wings.Archive.Itaf
