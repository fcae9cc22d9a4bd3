import Wings.Filesystem.Notifier
import Wings.Filesystem.SelectiveScan

/-!
# Wings.Filesystem.CheckerLoop — the loop of the disk checker and the modified paths

The loop of `disk_checker.rs` next to the calls of `add_path` and `rerun_disk_checker`: setting the flags,
recording the path, clearing the paths, asking for a scan, swapping the flag, taking the paths, looking up each of
them and each part of a walk are steps of their own, and a walk can fail at each of its steps.

* `State`, `Action`, `step` — the loop and the notifier.
* **`notices_kept`**
-/

namespace Wings.Filesystem.CheckerLoop

open Lib InotifyServerNotifier List

/-! ## The loop -/

inductive Phase where
  /-- Between two rounds. -/
  | asleep
  /-- The flag is swapped, and there is something to do. -/
  | woken (forceScan : Bool)
  /-- The paths that are not looked up yet, and the directories of those that are. -/
  | resolving (paths dirs : List Path)
  /-- The directories not scanned yet, the first of them with the walk that is under way. -/
  | scanning (dirs : List Path) (walker : Option Scan)
  /-- The scan of the whole server, and whether it stands for paths that were taken, or cleared meanwhile. -/
  | fullScan (taken : Bool) (walker : Option Scan)
  | stopped

/-- Once the paths are cleared, a full scan under way is all that stands for them. -/
def Phase.cleared : Phase → Phase
  | .fullScan _ walker => .fullScan true walker
  | phase => phase

structure State where
  notifier : InotifyServerNotifier
  /-- The calls of `add_path` that have set the flags. -/
  adding : List Path
  /-- The calls of `rerun_disk_checker` that have cleared the paths. -/
  rerunning : ℕ
  /-- `disk_checker_rescan` holds a permit. -/
  rescan : Bool
  fullDiskCheckCounter : ℕ
  checked : Checked
  phase : Phase

inductive Action where
  | startAdd (names : Subpath)
  | finishAdd (i : ℕ)
  | distrust
  | clearPaths
  | notifyRescan
  | wake (notified : Bool)
  | choose (fullDiskCheckEvery : ℕ) (useServerNotifier : Bool)
  | resolve (root : Metadata) (entries : List (FileName × Disk))
  | walkDir (ok : Bool)
  | nextEntry (entry : Option WalkEntry)
  | endWalk

inductive Event where
  | silent
  | recorded (path : Path)
  | scanned (dir : Path)
  | failed

section Loop

variable (h : Host) (R : LinkRules)

/-- What follows when all the paths are looked up. -/
def startScan (dirs : List Path) : Phase :=
  let dirs := deduplicatePaths dirs
  if dirs.head? = some [] then .fullScan true none
  else if dirs = [] then .asleep
  else .scanning dirs none

/-- The paths to scan are chosen, and taken if they are needed. -/
def choosePaths (fullDiskCheckEvery : ℕ) (useServerNotifier forceScan : Bool) (st : State) : State :=
  -- the remainder by zero ends the task
  if fullDiskCheckEvery = 0 then { st with phase := .stopped }
  else
    let counter := st.fullDiskCheckCounter
    let st := { st with fullDiskCheckCounter := wrapU64 (counter + 1) }
    if counter % fullDiskCheckEvery = 0 then { st with phase := .fullScan false none }
    else if useServerNotifier && st.notifier.isTrusted && !forceScan then
      let (paths, notifier) := st.notifier.takeModifiedPaths
      { st with notifier, phase := if paths = [] then .asleep else .resolving paths [] }
    else { st with phase := .fullScan false none }

def step (st : State) : Action → State × Event
  | .startAdd names =>
    ({ st with
      notifier := st.notifier.setDirty
      adding := st.adding ++ [h.basePath ++ names.map .normal] }, .silent)
  | .finishAdd i =>
    match st.adding[i]? with
    | none => (st, .silent)
    | some path =>
      ({ st with notifier := st.notifier.record path, adding := st.adding.eraseIdx i }, .recorded path)
  | .distrust => ({ st with notifier := { st.notifier with isTrusted := false } }, .silent)
  -- the two halves of `rerun_disk_checker`
  | .clearPaths =>
    ({ st with
      notifier := st.notifier.clearModifiedPaths
      rerunning := st.rerunning + 1
      phase := st.phase.cleared }, .silent)
  | .notifyRescan =>
    if st.rerunning = 0 then (st, .silent) else ({ st with rerunning := st.rerunning - 1, rescan := true }, .silent)
  | .wake notified =>
    match st.phase with
    | .asleep =>
      -- the scan is forced if the loop was woken by the permit and not by its timer
      let forceScan := notified && st.rescan
      let notifier := { st.notifier with dirtyFlags := (false, st.notifier.dirtyFlags.2) }
      ({ st with
        notifier
        rescan := st.rescan && !forceScan
        phase := if !st.notifier.dirtyFlags.1 && !forceScan then .asleep else .woken forceScan }, .silent)
    | _ => (st, .silent)
  | .choose fullDiskCheckEvery useServerNotifier =>
    match st.phase with
    | .woken forceScan => (choosePaths fullDiskCheckEvery useServerNotifier forceScan st, .silent)
    | _ => (st, .silent)
  | .resolve root entries =>
    match st.phase with
    | .resolving (path :: paths) dirs =>
      let dirs := dirs ++ dirsOf h R (.dir root entries) path
      ({ st with phase := if paths = [] then startScan dirs else .resolving paths dirs }, .silent)
    | _ => (st, .silent)
  | .walkDir ok =>
    match st.phase with
    | .scanning dirs none =>
      if ok then ({ st with phase := .scanning dirs (some .start) }, .silent)
      else ({ st with phase := .asleep }, .failed)
    | .fullScan taken none =>
      if ok then ({ st with phase := .fullScan taken (some .start) }, .silent)
      else ({ st with phase := .asleep }, .failed)
    | _ => (st, .silent)
  | .nextEntry entry =>
    match st.phase, entry with
    | .scanning (dir :: dirs) (some s), some entry =>
      ({ st with phase := .scanning (dir :: dirs) (some (s.step dir entry)) }, .silent)
    | .fullScan taken (some s), some entry =>
      ({ st with phase := .fullScan taken (some (s.step [] entry)) }, .silent)
    | .scanning _ (some _), none => ({ st with phase := .asleep }, .failed)
    | .fullScan _ (some _), none => ({ st with phase := .asleep }, .failed)
    | _, _ => (st, .silent)
  | .endWalk =>
    match st.phase with
    | .scanning (dir :: dirs) (some s) =>
      ({ st with
        checked := replaceDir st.checked dir s.usage
        phase := if dirs = [] then .asleep else .scanning dirs none }, .scanned dir)
    | .fullScan _ (some s) =>
      ({ st with checked := ⟨s.usage, s.totalSize, s.totalSizePhysical⟩, phase := .asleep }, .scanned [])
    | _ => (st, .silent)

/-- The start of the task, with the notifier as it was made. -/
def init (checked : Checked) : State := ⟨.new h.basePath (true, true), [], 0, false, 0, checked, .asleep⟩

end Loop

/-! ## What a scan covers -/

/-- The scan under way is at or above the path.  A full scan that took no paths is not counted: they are still
recorded. -/
def Phase.Covers (base path : Path) : Phase → Prop
  | .resolving paths dirs => Above paths path ∨ Above (dirs.map (base ++ ·)) path
  | .scanning dirs _ => Above (dirs.map (base ++ ·)) path
  | .fullScan taken _ => taken = true ∧ base <+: path
  | _ => False

/-- The scan that is complete is at or above the path. -/
def Event.Covers (base path : Path) : Event → Prop
  | .scanned dir => base ++ dir <+: path
  | _ => False

/-- Every path that was recorded is still recorded, or in the scan under way, or a scan of it was completed
since. -/
def NoticesKept (h : Host) (tr : List (Action × Event)) (st : State) : Prop :=
  ∀ pre a path post, tr = pre ++ (a, .recorded path) :: post →
    st.notifier.Noticed path ∨ st.phase.Covers h.basePath path ∨ ∃ e ∈ post, e.2.Covers h.basePath path

/-- The directories that the scan has still to do for paths that were taken. -/
def Phase.owed : Phase → List Path
  | .scanning dirs _ => dirs
  | .fullScan true _ => [[]]
  | _ => []

def Fails : Phase → Action → Prop
  | .scanning _ none, .walkDir ok => ok = false
  | .fullScan _ none, .walkDir ok => ok = false
  | .scanning _ (some _), .nextEntry entry => entry = none
  | .fullScan _ (some _), .nextEntry entry => entry = none
  | _, _ => False

/-- Every path that was recorded is in the scan under way, or a scan of it was completed since. -/
def Settled (h : Host) (tr : List (Action × Event)) (phase : Phase) : Prop :=
  ∀ pre a path post, tr = pre ++ (a, .recorded path) :: post →
    phase.Covers h.basePath path ∨ ∃ e ∈ post, e.2.Covers h.basePath path

/-- The condition on a failure, that all the directories that are still to be scanned are recorded again, and on
clearing the paths, that they are settled. -/
def Harmless (h : Host) (tr : List (Action × Event)) (st : State) (a : Action) : Prop :=
  (Fails st.phase a → ∀ dir ∈ st.phase.owed, st.notifier.Noticed (h.basePath ++ dir)) ∧
    (a = .clearPaths → Settled h tr st.phase.cleared)

section Cover

variable {h : Host} {R : LinkRules} {disk : Disk}

theorem climb_covers (fuel : ℕ) (names : Subpath) :
    ∃ dir ∈ climb h R disk (names.map .normal) fuel, dir <+: names.map .normal := by
  induction fuel generalizing names with
  | zero => exact ⟨_, mem_singleton.mpr rfl, prefix_rfl⟩
  | succ fuel ih =>
    by_cases hne : names = []
    · subst hne
      exact ⟨[], mem_singleton.mpr rfl, prefix_rfl⟩
    · have hup : names.dropLast.map Component.normal <+: names.map .normal := (List.dropLast_prefix names).map _
      rw [climb, Path.parent_normal hne]
      dsimp only
      split_ifs
      · exact ⟨_, mem_cons_self, hup⟩
      · obtain ⟨dir, hdir, hle⟩ := ih names.dropLast
        exact ⟨dir, hdir, hle.trans hup⟩

/-- What a modified path adds to the directories to scan covers it, as long as the server's directory is one. -/
theorem dirsOf_covers (disk : Disk) (hdisk : disk.isDir = true) (names : Subpath) :
    ∃ dir ∈ dirsOf h R disk (h.basePath ++ names.map .normal), dir <+: names.map .normal := by
  rw [dirsOf, if_pos (prefix_append _ _), drop_left]
  dsimp only
  cases hfound : symlinkMetadata h R disk (names.map .normal) with
  | none => exact climb_covers _ names
  | some found =>
    dsimp only
    split_ifs with hdir
    · exact ⟨_, mem_singleton.mpr rfl, prefix_rfl⟩
    · have hne : names ≠ [] := by
        rintro rfl
        have hroot : symlinkMetadata h R disk [] = some disk := by
          rw [symlinkMetadata, show h.relativePath [] = [] from h.relativePath_normal []]
          rfl
        exact hdir (Option.some.inj (hfound.symm.trans hroot) ▸ hdisk)
      refine ⟨names.dropLast.map .normal, ?_, (List.dropLast_prefix names).map _⟩
      rw [Path.parent_normal hne]
      exact mem_singleton.mpr rfl

theorem above_map_deduplicatePaths {base path : Path} {dirs : List Path}
    (habove : Above (dirs.map (base ++ ·)) path) : Above ((deduplicatePaths dirs).map (base ++ ·)) path := by
  obtain ⟨_, hmem, hle⟩ := habove
  obtain ⟨dir, hdir, rfl⟩ := mem_map.mp hmem
  obtain ⟨kept, hkept, hup⟩ := (deduplicatePaths_spec dirs).2.2 dir hdir
  exact ⟨_, mem_map_of_mem hkept, ((prefix_append_right_inj base).mpr hup).trans hle⟩

theorem covers_startScan {base path : Path} {dirs : List Path} (hbase : base <+: path)
    (habove : Above (dirs.map (base ++ ·)) path) : (startScan dirs).Covers base path := by
  have hkept := above_map_deduplicatePaths habove
  simp only [startScan]
  split_ifs with hroot hnil
  · exact ⟨rfl, hbase⟩
  · rw [hnil] at hkept
    obtain ⟨_, hmem, _⟩ := hkept
    cases hmem
  · exact hkept

end Cover

/-! ## Runs -/

section Runs

variable {h : Host} {R : LinkRules} {st : State}
  {path : Path} {tr : List (Action × Event)}

def Inside (h : Host) (path : Path) : Prop := ∃ names : Subpath, path = h.basePath ++ names.map .normal

theorem Inside.base (hpath : Inside h path) : h.basePath <+: path := by
  obtain ⟨names, rfl⟩ := hpath
  exact prefix_append _ _

/-- All the paths that the loop and the notifier hold are of the server's directory. -/
structure Plain (h : Host) (st : State) : Prop where
  root : st.notifier.path = h.basePath
  recorded : ∀ path ∈ st.notifier.modifiedPaths, Inside h path
  adding : ∀ path ∈ st.adding, Inside h path
  taken : ∀ paths dirs, st.phase = .resolving paths dirs → ∀ path ∈ paths, Inside h path

theorem inside_pushed {n : InotifyServerNotifier} (hroot : n.path = h.basePath)
    (hpaths : ∀ path ∈ n.modifiedPaths, Inside h path) {new : Path} (hnew : Inside h new) :
    ∀ path ∈ n.pushed new, Inside h path := by
  have hall : ∀ path ∈ n.modifiedPaths ++ [new], Inside h path := by
    intro path hpath
    rcases mem_append.mp hpath with hpath | hpath
    · exact hpaths path hpath
    · exact mem_singleton.mp hpath ▸ hnew
  have hbase : Inside h n.path := ⟨[], by simp [hroot]⟩
  intro path hpath
  simp only [pushed] at hpath
  split_ifs at hpath
  · exact hpaths path hpath
  · exact mem_singleton.mp hpath ▸ hbase
  · unfold merged at hpath
    split_ifs at hpath
    · exact hall path ((deduplicatePaths_spec _).2.1 path hpath)
    · exact hall path hpath

theorem Plain.of_phase (hst : Plain h st) {phase : Phase} (counter : ℕ) (checked : Checked)
    (hphase : ∀ paths dirs, phase = .resolving paths dirs → ∀ path ∈ paths, Inside h path) :
    Plain h { st with phase := phase, fullDiskCheckCounter := counter, checked := checked } :=
  { hst with taken := hphase }

theorem plain_choosePaths (hst : Plain h st) (every : ℕ) (use force : Bool) :
    Plain h (choosePaths every use force st) := by
  simp only [choosePaths]
  split_ifs
  · exact hst.of_phase _ _ nofun
  · exact hst.of_phase _ _ nofun
  · exact ⟨hst.root, nofun, hst.adding, nofun⟩
  · refine ⟨hst.root, nofun, hst.adding, fun paths dirs hphase path hpath => ?_⟩
    cases hphase
    exact hst.recorded path ((deduplicatePaths_spec _).2.1 path hpath)
  · exact hst.of_phase _ _ nofun

theorem plain_step (hst : Plain h st) (a : Action) : Plain h (step h R st a).1 := by
  cases a <;> simp only [step]
  case startAdd names =>
    refine { hst with adding := fun path hpath => ?_ }
    rcases mem_append.mp hpath with hpath | hpath
    · exact hst.adding path hpath
    · exact ⟨names, mem_singleton.mp hpath⟩
  case finishAdd i =>
    cases hadd : st.adding[i]? with
    | none => exact hst
    | some new =>
      exact ⟨hst.root, inside_pushed hst.root hst.recorded (hst.adding new (mem_of_getElem? hadd)),
        fun path hpath => hst.adding path (mem_of_mem_eraseIdx hpath), hst.taken⟩
  case distrust => exact { hst with }
  case clearPaths =>
    refine ⟨hst.root, nofun, hst.adding, fun paths dirs hphase => hst.taken paths dirs ?_⟩
    cases hold : st.phase <;> rw [hold] at hphase <;> first | exact hphase | cases hphase
  case notifyRescan =>
    split
    · exact hst
    · exact { hst with }
  case wake force =>
    split
    · refine { hst with taken := ?_ }
      split_ifs <;> nofun
    · exact hst
  case choose every use =>
    split
    · exact plain_choosePaths hst every use _
    · exact hst
  case resolve root entries =>
    split
    next first rest dirs hphase =>
      refine hst.of_phase _ _ fun paths' dirs' hphase' => ?_
      split_ifs at hphase'
      · simp only [startScan] at hphase'
        split_ifs at hphase'
      · cases hphase'
        exact fun path hpath => hst.taken _ _ hphase path (mem_cons_of_mem _ hpath)
    · exact hst
  case walkDir ok =>
    repeat' split
    all_goals first | exact hst | exact hst.of_phase _ _ nofun
  case nextEntry entry =>
    split
    all_goals first | exact hst | exact hst.of_phase _ _ nofun
  case endWalk =>
    split
    · refine hst.of_phase _ _ ?_
      split_ifs <;> nofun
    · exact hst.of_phase _ _ nofun
    · exact hst

theorem safe_choosePaths (every : ℕ) (use force : Bool)
    (hsafe : st.notifier.Noticed path) : (choosePaths every use force st).notifier.Noticed path ∨
      (choosePaths every use force st).phase.Covers h.basePath path := by
  simp only [choosePaths]
  split_ifs with _ _ _ hnone
  · exact .inl hsafe
  · exact .inl hsafe
  · obtain ⟨_, hmem, _⟩ := noticed_taken hsafe
    rw [hnone] at hmem
    cases hmem
  · exact .inr (.inl (noticed_taken hsafe))
  · exact .inl hsafe

variable {a : Action}

theorem noticed_of_fails (hg : Harmless h tr st a)
    (hfails : Fails st.phase a) (hcovers : st.phase.Covers h.basePath path) : st.notifier.Noticed path := by
  have howed := hg.1 hfails
  have hup : ∀ dir ∈ st.phase.owed, h.basePath ++ dir <+: path → st.notifier.Noticed path := by
    intro dir hdir hle
    obtain ⟨k, hk, hkle⟩ := howed dir hdir
    exact ⟨k, hk, hkle.trans hle⟩
  cases hphase : st.phase with
  | scanning dirs walker =>
    rw [hphase] at hcovers hup
    obtain ⟨_, hmem, hle⟩ := hcovers
    obtain ⟨dir, hdir, rfl⟩ := mem_map.mp hmem
    exact hup dir hdir hle
  | fullScan taken walker =>
    rw [hphase] at hcovers hup
    obtain ⟨rfl, hbase⟩ := hcovers
    exact hup [] (mem_singleton.mpr rfl) (by rwa [append_nil])
  | _ => simp [hphase, Fails] at hfails

/-- **One step**: what is noticed or in the scan stays so or is scanned now, unless the walk fails without its
directories being recorded again. -/
theorem safe_step (hst : Plain h st) (hg : Harmless h tr st a) (hclear : a ≠ .clearPaths)
    (hpath : h.basePath <+: path) (hsafe : st.notifier.Noticed path ∨ st.phase.Covers h.basePath path) :
    (step h R st a).1.notifier.Noticed path ∨ (step h R st a).1.phase.Covers h.basePath path ∨
      (step h R st a).2.Covers h.basePath path := by
  have hstay : st.notifier.Noticed path ∨ st.phase.Covers h.basePath path ∨
      Event.Covers h.basePath path .silent := hsafe.imp_right .inl
  have hfails : Fails st.phase a → st.notifier.Noticed path := fun hf => hsafe.elim id (noticed_of_fails hg hf)
  cases a <;> simp only [step]
  case startAdd names => exact hstay
  case finishAdd i =>
    split
    · exact hstay
    · refine hsafe.imp (fun hn => hn.record (hst.root ▸ hpath) _) .inl
  case distrust => exact hstay
  case clearPaths => exact absurd rfl hclear
  case notifyRescan => split <;> exact hstay
  case wake force =>
    split
    next hphase =>
      rw [hphase] at hsafe
      exact .inl (hsafe.resolve_right id)
    · exact hstay
  case choose every use =>
    split
    next hphase =>
      rw [hphase] at hsafe
      exact (safe_choosePaths every use _ (hsafe.resolve_right id)).imp_right .inl
    · exact hstay
  case resolve root entries =>
    split
    next first rest dirs hphase =>
      refine hsafe.imp_right fun hcovers => .inl ?_
      rw [hphase] at hcovers
      obtain ⟨names, hnames⟩ := hst.taken _ _ hphase first mem_cons_self
      have habove : Above rest path ∨
          Above ((dirs ++ dirsOf h R (.dir root entries) first).map (h.basePath ++ ·)) path := by
        rw [map_append]
        rcases hcovers with ⟨k, hk, hle⟩ | ⟨k, hk, hle⟩
        · rcases mem_cons.mp hk with rfl | hk
          · obtain ⟨dir, hdir, hup⟩ := dirsOf_covers (.dir root entries) rfl names
            rw [← hnames] at hdir
            refine .inr ⟨_, mem_append_right _ (mem_map_of_mem hdir), ?_⟩
            exact ((prefix_append_right_inj _).mpr hup).trans (hnames ▸ hle)
          · exact .inl ⟨k, hk, hle⟩
        · exact .inr ⟨k, mem_append_left _ hk, hle⟩
      split_ifs with hlast
      · refine covers_startScan hpath (habove.resolve_left ?_)
        rintro ⟨k, hk, _⟩
        rw [hlast] at hk
        cases hk
      · exact habove
    · exact hstay
  case walkDir ok =>
    split
    next dirs hphase =>
      rw [hphase] at hsafe hfails
      cases ok with
      | true => exact hsafe.imp_right .inl
      | false => exact .inl (hfails rfl)
    next taken hphase =>
      rw [hphase] at hsafe hfails
      cases ok with
      | true => exact hsafe.imp_right .inl
      | false => exact .inl (hfails rfl)
    · exact hstay
  case nextEntry entry =>
    split
    next hphase =>
      rw [hphase] at hsafe
      exact hsafe.imp_right .inl
    next hphase =>
      rw [hphase] at hsafe
      exact hsafe.imp_right .inl
    next hphase => exact .inl (hfails (hphase ▸ rfl))
    next hphase => exact .inl (hfails (hphase ▸ rfl))
    · exact hstay
  case endWalk =>
    split
    next dir dirs s hphase =>
      refine hsafe.imp_right fun hcovers => ?_
      rw [hphase] at hcovers
      obtain ⟨_, hmem, hle⟩ := hcovers
      rcases mem_cons.mp hmem with rfl | hmem
      · exact .inr hle
      · have hne : dirs ≠ [] := by
          rintro rfl
          cases hmem
        rw [if_neg hne]
        exact .inl ⟨_, hmem, hle⟩
    next hphase =>
      exact .inr (.inr (by rwa [Event.Covers, append_nil]))
    · exact hstay

theorem noticed_of_recorded (hst : Plain h st) (hrec : (step h R st a).2 = .recorded path) :
    Inside h path ∧ (step h R st a).1.notifier.Noticed path := by
  cases a with
  | finishAdd i =>
    simp only [step] at hrec ⊢
    cases hadd : st.adding[i]? with
    | none => simp [hadd] at hrec
    | some new =>
      simp only [hadd] at hrec ⊢
      obtain rfl := Event.recorded.inj hrec
      have hinside := hst.adding new (mem_of_getElem? hadd)
      exact ⟨hinside, noticed_record (hst.root ▸ hinside.base) prefix_rfl⟩
  | choose | resolve | wake | notifyRescan => simp only [step] at hrec; split at hrec <;> cases hrec
  | walkDir =>
    simp only [step] at hrec
    split at hrec
    · split_ifs at hrec
    · split_ifs at hrec
    · cases hrec
  | nextEntry => simp only [step] at hrec; split at hrec <;> cases hrec
  | endWalk => simp only [step] at hrec; split at hrec <;> cases hrec
  | _ => cases hrec

theorem noticesKept_step (hst : Plain h st)
    (hinside : ∀ e ∈ tr, ∀ path, e.2 = .recorded path → Inside h path) (hkept : NoticesKept h tr st)
    (hg : Harmless h tr st a) : NoticesKept h (tr ++ [(a, (step h R st a).2)]) (step h R st a).1 := by
  intro pre a' path post hsplit
  rcases split_concat hsplit with ⟨rfl, heq⟩ | ⟨post', rfl, rfl⟩
  · exact .inl (noticed_of_recorded hst (congrArg Prod.snd heq)).2
  · have hbase := (hinside _ (mem_append_right _ mem_cons_self) path rfl).base
    by_cases hclear : a = .clearPaths
    · -- what is cleared is in the scan or scanned
      subst hclear
      refine .inr ((hg.2 rfl pre a' path post' rfl).imp_right fun ⟨e, he, hcovers⟩ => ?_)
      exact ⟨e, mem_append_left _ he, hcovers⟩
    rcases or_assoc.mpr (hkept pre a' path post' rfl) with hsafe | ⟨e, he, hcovers⟩
    · rcases safe_step hst hg hclear hbase hsafe with hn | hc | he
      · exact .inl hn
      · exact .inr (.inl hc)
      · exact .inr (.inr ⟨_, mem_append_right _ (mem_singleton.mpr rfl), he⟩)
    · exact .inr (.inr ⟨e, mem_append_left _ he, hcovers⟩)

theorem plain_init (checked : Checked) : Plain h (init h checked) := by
  refine ⟨rfl, fun path hpath => ⟨[], ?_⟩, nofun, nofun⟩
  rw [mem_singleton.mp hpath]
  simp

end Runs

/-- **No notice is lost** in runs where a walk fails only when the directories it had still to scan are recorded
again, and the paths are cleared only when they are in the scan or were scanned. -/
theorem notices_kept {h : Host} {R : LinkRules}
    (checked : Checked) {as : List Action} (hg : Steps (step h R) (Harmless h) (init h checked) as) :
    NoticesKept h (trace (step h R) (init h checked) as) (exec (step h R) (init h checked) as) := by
  refine (inv_of_steps (I := fun tr st => Plain h st ∧
    (∀ e ∈ tr, ∀ path, e.2 = .recorded path → Inside h path) ∧ NoticesKept h tr st)
    ⟨plain_init checked, nofun, fun pre a path post h => by simp at h⟩ ?_ hg).2.2
  rintro tr st a ⟨hst, hinside, hkept⟩ hharmless
  refine ⟨plain_step hst a, fun e he path hrec => ?_, noticesKept_step hst hinside hkept hharmless⟩
  rcases mem_append.mp he with he | he
  · exact hinside e he path hrec
  · rw [mem_singleton.mp he] at hrec
    exact (noticed_of_recorded hst hrec).1

/-- The directory `a` is reported, the first round is complete, the paths are cleared and the scan that this forces
fails. -/
def forcedRound : List Action :=
  [.startAdd [nameA], .finishAdd 0, .wake false, .choose 10 true, .walkDir true, .endWalk, .clearPaths, .notifyRescan,
    .wake true, .choose 10 true, .walkDir false]

theorem notices_kept_full_scan :
    NoticesKept plainHost (trace (step plainHost plainResolution) (init plainHost unchecked) forcedRound)
      (exec (step plainHost plainResolution) (init plainHost unchecked) forcedRound) := by
  refine notices_kept unchecked ?_
  simp only [forcedRound, steps_cons]
  refine ⟨⟨nofun, nofun⟩, ⟨nofun, nofun⟩, ⟨nofun, nofun⟩, ⟨nofun, nofun⟩, ⟨nofun, nofun⟩, ⟨nofun, nofun⟩,
    ⟨nofun, fun _ pre a path post hsplit => .inr ?_⟩, ⟨nofun, nofun⟩, ⟨nofun, nofun⟩, ⟨nofun, nofun⟩,
    ⟨fun _ _ => (nomatch ·), nofun⟩, steps_nil⟩
  -- the scan that is complete is the last step before
  have htrace : [(Action.startAdd [nameA], Event.silent), (.finishAdd 0, .recorded [.rootDir, .normal nameA]),
      (.wake false, .silent), (.choose 10 true, .silent), (.walkDir true, .silent)] ++ [(.endWalk, .scanned [])] =
      pre ++ (a, .recorded path) :: post := hsplit
  rcases split_concat htrace with ⟨_, heq⟩ | ⟨post, rfl, htr⟩
  · cases heq
  · have hmem : (a, Event.recorded path) ∈ pre ++ (a, .recorded path) :: post := mem_append_right _ mem_cons_self
    simp only [← htr, mem_cons, Prod.mk.injEq, Event.recorded.injEq, reduceCtorEq, and_false, false_or, or_false,
      not_mem_nil] at hmem
    refine ⟨_, mem_append_right _ mem_cons_self, ?_⟩
    rw [hmem.2]
    exact ⟨[.normal nameA], rfl⟩

/-- A round that is complete, with all that was recorded before. -/
def emptyingRounds : List Action :=
  [.wake false, .choose 10 true, .walkDir true, .endWalk,
    .startAdd [], .finishAdd 0, .wake false, .choose 10 true, .resolve ⟨4096, 8, 2, 3, false⟩ [], .walkDir true,
    .endWalk]

/-- The directory `a` is reported and taken, and its walk fails. -/
def failingRound : List Action :=
  [.startAdd [nameA], .finishAdd 0, .wake false, .choose 10 true,
    .resolve ⟨4096, 8, 2, 3, false⟩ [(nameA, .dir ⟨4096, 8, 3, 2, false⟩ [])], .walkDir false]

/-- The path is no longer recorded, no scan is under way, and none was completed since. -/
theorem notice_lost :
    ¬NoticesKept plainHost
      (trace (step plainHost plainResolution) (init plainHost unchecked) (emptyingRounds ++ failingRound))
      (exec (step plainHost plainResolution) (init plainHost unchecked) (emptyingRounds ++ failingRound)) := by
  intro hkept
  have htrace : trace (step plainHost plainResolution) (init plainHost unchecked)
      (emptyingRounds ++ failingRound) =
      trace (step plainHost plainResolution) (init plainHost unchecked)
          (emptyingRounds ++ [.startAdd [nameA]]) ++
        (.finishAdd 0, .recorded [.rootDir, .normal nameA]) ::
          [(.wake false, .silent), (.choose 10 true, .silent),
            (.resolve ⟨4096, 8, 2, 3, false⟩ [(nameA, .dir ⟨4096, 8, 3, 2, false⟩ [])], .silent),
            (.walkDir false, .failed)] := rfl
  rcases hkept _ _ _ _ htrace with ⟨k, hk, _⟩ | hcovers | ⟨e, he, hcovers⟩
  · cases hk
  · exact hcovers
  · simp only [mem_cons, not_mem_nil, or_false] at he
    rcases he with rfl | rfl | rfl | rfl <;> exact hcovers

end Wings.Filesystem.CheckerLoop
