import Wings.Filesystem.InotifyKernel

/-!
# Wings.Filesystem.WatchTable — which changes are noticed

A change is promised if a path above it is recorded, or an event that is still to be handled will record one.  The
table of watches is accurate but for what is promised: a directory that is not watched under its path is below a
promised path, and so is an entry of the table that is not where its directory is.

* **`changes_noticed`**
-/

namespace Wings.Filesystem.Inotify

open Lib InotifyServerNotifier Function List Kernel

variable {root p q : Path} {st st' : State} {n : InotifyServerNotifier}

/-! ## Promises -/

def State.pending (st : State) : List Event := st.buffer ++ st.kernel.queue

/-- In the directory at `q`, the event is about an entry at or above `p`. -/
def Event.Names (e : Event) (q p : Path) : Prop :=
  e.flag.isChange = true ∧ ∃ name, e.name = some name ∧ child q name <+: p

/-- An event that is still to be handled is about an entry at or above the path. -/
def Announced (st : State) (p : Path) : Prop :=
  ∃ e ∈ st.pending, ∃ q, st.table e.wd = some q ∧ e.Names q p

def Promised (st : State) (p : Path) : Prop := st.notifier.Noticed p ∨ Announced st p

def WatchedAs (st : State) (d : Directory) : Prop := ∃ wd, d.wd = some wd ∧ st.table wd = some d.path

/-- The watch is that of the directory at the path. -/
def Points (st : State) (wd : ℕ) (q : Path) : Prop := ∃ d ∈ st.kernel.dirs, d.wd = some wd ∧ d.path = q

/-- Every directory is watched under its path and every entry is the path of its directory, but for excused
paths. -/
structure Accurate (st : State) (Excused : Path → Prop) : Prop where
  dirs : ∀ d ∈ st.kernel.dirs, WatchedAs st d ∨ Excused d.path
  entries : ∀ wd q, st.table wd = some q → Points st wd q ∨ Excused q

variable {e : Event}

theorem Event.Names.le (h : e.Names q p) : q <+: p := by
  obtain ⟨_, name, _, hle⟩ := h
  exact (prefix_child q name).trans hle

theorem Event.Names.trans {p' : Path} (h : e.Names q p) (hp : p <+: p') : e.Names q p' := by
  obtain ⟨hflag, name, hname, hle⟩ := h
  exact ⟨hflag, name, hname, hle.trans hp⟩

theorem Event.Names.ne (h : e.Names q p) : q ≠ p := by
  rintro rfl
  obtain ⟨_, name, _, hle⟩ := h
  have := hle.length_le
  simp [child] at this

theorem noticed_trans (h : n.Noticed q) (hp : q <+: p) : n.Noticed p := by
  obtain ⟨k, hk, hle⟩ := h
  exact ⟨k, hk, hle.trans hp⟩

theorem Announced.trans (h : Announced st q) (hp : q <+: p) : Announced st p := by
  obtain ⟨e, he, q', hq', hnames⟩ := h
  exact ⟨e, he, q', hq', hnames.trans hp⟩

theorem Promised.trans (h : Promised st q) (hp : q <+: p) : Promised st p :=
  h.imp (noticed_trans · hp) (·.trans hp)

variable {wd : ℕ}

/-- What announces the path of an entry is an event for another entry, with a shorter path. -/
theorem announced_elsewhere (hwd : st.table wd = some q) (h : Announced st q) :
    ∃ e ∈ st.pending, e.wd ≠ wd ∧ ∃ q', st.table e.wd = some q' ∧ e.Names q' q := by
  obtain ⟨e, he, q', hq', hnames⟩ := h
  refine ⟨e, he, ?_, q', hq', hnames⟩
  rintro rfl
  exact hnames.ne (Option.some.inj (hq'.symm.trans hwd))

/-! ## The invariant -/

/-- What holds between steps of the loop and the kernel. -/
structure Sound (root : Path) (st : State) : Prop where
  kernel : st.kernel.Sound root
  registered : st.notifier.path = root
  below : ∀ wd q, st.table wd = some q → root <+: q
  fresh : ∀ wd q, st.table wd = some q → wd < st.kernel.nextWd
  events : ∀ e ∈ st.pending, e.wd < st.kernel.nextWd ∧ (e.flag = .ignored → ∀ d ∈ st.kernel.dirs, d.wd ≠ some e.wd)
  touched : ∀ wd ∈ st.touched, ∀ q, st.table wd = some q → st.notifier.Noticed q
  quiet : st.buffer = [] → st.touched = []
  stale : ∀ path ∈ st.staleDirs, root <+: path ∧ st.notifier.Noticed path
  accurate : Accurate st (Promised st)

/-- All promises about the server's directory are kept. -/
def Keeps (root : Path) (st st' : State) : Prop := ∀ p, root <+: p → Promised st p → Promised st' p

/-! ## Operations of the file system -/

section Operations

variable {k' : Kernel} {es : List Event} (hop : Operated st.kernel k' es)
include hop

theorem Promised.operated (h : Promised st p) :
    Promised { st with kernel := k' } p := by
  rcases h with h | ⟨e, he, q, hq, hnames⟩
  · exact .inl h
  · refine .inr ⟨e, ?_, q, hq, hnames⟩
    show e ∈ st.buffer ++ k'.queue
    rw [hop.queue, ← append_assoc]
    exact mem_append_left _ he

/-- A change to an entry of a directory is promised: the directory is watched, or it is below a promised path. -/
theorem Sound.promised_child (h : Sound root st)
    {parent : Path} (hdir : st.kernel.hasDir parent = true) (flag : Flag) (isDir : Bool) (name : FileName)
    (hflag : flag.isChange = true) (hes : st.kernel.events parent flag isDir (some name) ⊆ es) :
    root <+: child parent name ∧ Promised { st with kernel := k' } (child parent name) := by
  obtain ⟨d, hd, rfl, hwdAt⟩ := exists_of_hasDir hdir
  refine ⟨(h.kernel.below d hd).trans (prefix_child _ _), ?_⟩
  rcases h.accurate.dirs d hd with ⟨wd, hwd, htable⟩ | hpromised
  · have hmem : (⟨wd, flag, isDir, some name⟩) ∈ es := by
      apply hes
      rw [Kernel.events, hwdAt, hwd]
      exact mem_singleton.mpr rfl
    refine .inr ⟨⟨wd, flag, isDir, some name⟩, ?_, d.path, htable, hflag, name, rfl, prefix_rfl⟩
    show _ ∈ st.buffer ++ k'.queue
    rw [hop.queue]
    exact mem_append_right _ (mem_append_right _ hmem)
  · exact (hpromised.operated hop).trans (prefix_child _ _)

/-- The table stays accurate when the directories that come and go are promised. -/
theorem Accurate.operated (h : Accurate st (Promised st))
    (hnew : ∀ d ∈ k'.dirs, d ∈ st.kernel.dirs ∨ Promised { st with kernel := k' } d.path)
    (hgone : ∀ d ∈ st.kernel.dirs, d ∈ k'.dirs ∨ Promised { st with kernel := k' } d.path) :
    Accurate { st with kernel := k' } (Promised { st with kernel := k' }) := by
  refine ⟨fun d hd => ?_, fun wd q hq => ?_⟩
  · rcases hnew d hd with hold | hpromised
    · exact (h.dirs d hold).imp id (·.operated hop)
    · exact .inr hpromised
  · rcases h.entries wd q hq with ⟨d, hd, hwd, rfl⟩ | hpromised
    · exact (hgone d hd).imp (fun hd' => ⟨d, hd', hwd, rfl⟩) id
    · exact .inr (hpromised.operated hop)

theorem Sound.operated (h : Sound root st) (hk' : k'.Sound root)
    (haccurate : Accurate { st with kernel := k' } (Promised { st with kernel := k' })) :
    Sound root { st with kernel := k' } where
  kernel := hk'
  registered := h.registered
  below := h.below
  fresh := hop.nextWd ▸ h.fresh
  touched := h.touched
  quiet := h.quiet
  stale := h.stale
  accurate := haccurate
  events := by
    intro e he
    change e ∈ st.buffer ++ k'.queue at he
    rw [hop.queue, ← append_assoc] at he
    rw [hop.nextWd]
    rcases mem_append.mp he with hold | hnew
    · refine ⟨(h.events e hold).1, fun hignored d hd hwd => ?_⟩
      obtain ⟨d₀, hd₀, hwd₀⟩ := hop.wds d hd _ hwd
      exact (h.events e hold).2 hignored d₀ hd₀ hwd₀
    · obtain ⟨d, hd, hwd⟩ := hop.events e hnew
      exact ⟨h.kernel.fresh d hd _ hwd, hop.ignored e hnew⟩

end Operations

/-- What every step but a take does: it is sound again, keeps all promises, and the changes it tells are
promised. -/
structure Faithful (root : Path) (st : State) (r : State × Reply) : Prop where
  sound : Sound root r.1
  keeps : Keeps root st r.1
  changes : ∀ paths, r.2 = .changed paths → ∀ p ∈ paths, root <+: p ∧ Promised r.1 p

theorem Faithful.silent (hsound : Sound root st') (hkeeps : Keeps root st st') : Faithful root st (st', .silent) :=
  ⟨hsound, hkeeps, fun _ h => nomatch h⟩

theorem Faithful.refl (h : Sound root st) : Faithful root st (st, .silent) :=
  .silent h fun _ _ hp => hp

/-- An operation of the file system is faithful when what it changes is promised. -/
theorem faithful_operated (h : Sound root st) {k' : Kernel} {es : List Event} {paths : List Path}
    (hop : Operated st.kernel k' es) (hk' : k'.Sound root)
    (hnew : ∀ d ∈ k'.dirs, d ∈ st.kernel.dirs ∨ Promised { st with kernel := k' } d.path)
    (hgone : ∀ d ∈ st.kernel.dirs, d ∈ k'.dirs ∨ Promised { st with kernel := k' } d.path)
    (hpaths : ∀ p ∈ paths, root <+: p ∧ Promised { st with kernel := k' } p) :
    Faithful root st ({ st with kernel := k' }, .changed paths) where
  sound := h.operated hop hk' (h.accurate.operated hop hnew hgone)
  keeps := fun _ _ hp => hp.operated hop
  changes := by
    rintro _ ⟨⟩ p hp
    exact hpaths p hp

section Actions

variable {parent parent' : Path} {name name' : FileName} {k' : Kernel} (h : Sound root st)
include h

theorem faithful_mkdir (hk : st.kernel.mkdir parent name = some k') :
    Faithful root st ({ st with kernel := k' }, .changed [child parent name]) := by
  have hop := operated_mkdir hk
  obtain ⟨hdir, _, rfl⟩ := mkdir_spec hk
  have hpromised := h.promised_child hop hdir .create true name rfl (Subset.refl _)
  refine faithful_operated h hop (h.kernel.mkdir hk) (fun d hd => ?_)
    (fun d hd => .inl (mem_append_left _ hd)) (forall_mem_singleton.mpr hpromised)
  rcases mem_append.mp hd with hold | hnew
  · exact .inl hold
  · rw [mem_singleton.mp hnew]
    exact .inr hpromised.2

theorem faithful_rmdir (hk : st.kernel.rmdir parent name = some k') :
    Faithful root st ({ st with kernel := k' }, .changed [child parent name]) := by
  have hop := operated_rmdir h.kernel hk
  obtain ⟨hdir, rfl⟩ := rmdir_spec hk
  have hpromised := h.promised_child hop hdir .delete true name rfl
    (subset_append_of_subset_left _ (subset_append_left _ _))
  refine faithful_operated h hop (h.kernel.rmdir hk) (fun d hd => .inl (mem_filter.mp hd).1)
    (fun d hd => ?_) (forall_mem_singleton.mpr hpromised)
  by_cases hpath : d.path = child parent name
  · rw [hpath]
    exact .inr hpromised.2
  · exact .inl (mem_filter.mpr ⟨hd, by simpa using hpath⟩)

theorem faithful_rename (hk : st.kernel.rename parent name parent' name' = some k') :
    Faithful root st ({ st with kernel := k' }, .changed [child parent name, child parent' name']) := by
  have hop := operated_rename h.kernel hk
  obtain ⟨hdir, hdir', _, _, rfl⟩ := Kernel.rename_spec hk
  have hsource := h.promised_child hop hdir .movedFrom true name rfl fun e he => by simp [he]
  have htarget := h.promised_child hop hdir' .movedTo true name' rfl fun e he => by simp [he]
  refine faithful_operated h hop (h.kernel.rename hk) (fun d hd => ?_) (fun d hd => ?_)
    (forall_mem_cons.mpr ⟨hsource, forall_mem_singleton.mpr htarget⟩)
  · obtain ⟨old, hold, rfl⟩ := mem_map.mp hd
    by_cases hs : child parent name <+: old.path
    · rw [path_relocate_of_le hs]
      exact .inr (htarget.2.trans (prefix_append _ _))
    · rw [relocate_of_not_le hs]
      exact .inl (mem_filter.mp hold).1
  · by_cases ht : d.path = child parent' name'
    · rw [ht]
      exact .inr htarget.2
    by_cases hs : child parent name <+: d.path
    · exact .inr (hsource.2.trans hs)
    · refine .inl (mem_map.mpr ⟨d, mem_filter.mpr ⟨hd, by simpa using ht⟩, ?_⟩)
      exact relocate_of_not_le hs

theorem faithful_change {flag : Flag} (hk : st.kernel.change parent flag name = some k') :
    Faithful root st ({ st with kernel := k' }, .changed [child parent name]) := by
  have hop := operated_change hk
  obtain ⟨hdir, hflag, rfl⟩ := change_spec hk
  have hpromised := h.promised_child hop hdir flag false name hflag (Subset.refl _)
  have hkernel := h.kernel.of_sublist (Sublist.refl _)
    (st.kernel.queue ++ st.kernel.events parent flag false (some name))
  exact faithful_operated h hop hkernel (fun d hd => .inl hd) (fun d hd => .inl hd)
    (forall_mem_singleton.mpr hpromised)

theorem faithful_operate {k : Option Kernel} {paths : List Path}
    (hk : ∀ k', k = some k' → Faithful root st ({ st with kernel := k' }, .changed paths)) :
    Faithful root st (operate st k paths) := by
  cases k with
  | none => exact .refl h
  | some k' => exact hk k' rfl

end Actions

/-! ## Handling an event -/

/-- What a notifier goes through while events are handled: its path stays and what it noticed stays noticed. -/
def Grows (n n' : InotifyServerNotifier) : Prop :=
  n'.path = n.path ∧ ∀ p, n.path <+: p → n.Noticed p → n'.Noticed p

theorem Grows.refl (n : InotifyServerNotifier) : Grows n n := ⟨rfl, fun _ _ h => h⟩

theorem grows_addPath (n : InotifyServerNotifier) (path : Path) : Grows n (n.addPath path) :=
  ⟨rfl, fun _ hp h => Noticed.record h hp path⟩

theorem noticed_addPath {path : Path} (hp : n.path <+: p) (h : path <+: p) : (n.addPath path).Noticed p :=
  noticed_record hp h

variable {e : Event} {dir : Path} {rest : List Event}

theorem collect_spec (st : State) (dir : Path) (e : Event) :
    ∃ newDirs staleDirs, collect st dir e = { st with newDirs, staleDirs } ∧
      ∀ path ∈ staleDirs, path ∈ st.staleDirs ∨
        e.flag = .movedFrom ∧ ∃ name, e.name = some name ∧ path = child dir name := by
  unfold collect
  split
  · exact ⟨_, _, rfl, fun _ h => .inl h⟩
  · exact ⟨_, _, rfl, fun _ h => .inl h⟩
  next name hisDir hname hflag =>
    refine ⟨_, _, rfl, fun path h => ?_⟩
    rcases mem_append.mp h with h | h
    · exact .inl h
    · exact .inr ⟨hflag, name, hname, mem_singleton.mp h⟩
  · exact ⟨_, _, rfl, fun _ h => .inl h⟩

/-- What handling an event does to the state of a batch. -/
structure Handled (st st' : State) (e : Event) : Prop where
  kernel : st'.kernel = st.kernel
  buffer : st'.buffer = st.buffer
  grows : Grows st.notifier st'.notifier
  table : st'.table = if e.flag = .ignored then Function.update st.table e.wd none else st.table
  touched : ∀ wd ∈ st'.touched, wd ∈ st.touched ∨ wd = e.wd ∧
    ∀ dir, st.table e.wd = some dir → st.notifier.path <+: dir → st'.notifier.Noticed dir
  stale : ∀ path ∈ st'.staleDirs, path ∈ st.staleDirs ∨ ∃ dir, st.table e.wd = some dir ∧ e.Names dir path
  noticed : ∀ dir p, st.table e.wd = some dir → st.notifier.path <+: dir →
    (e.wd ∈ st.touched → st.notifier.Noticed dir) → e.Names dir p → st'.notifier.Noticed p

theorem notice_spec (st : State) (dir : Path) (e : Event) :
    ∃ touched notifier, notice st dir e = { st with touched, notifier } ∧ Grows st.notifier notifier ∧
      (∀ wd ∈ touched, wd ∈ st.touched ∨ wd = e.wd ∧ (st.notifier.path <+: dir → notifier.Noticed dir)) ∧
      ((e.wd ∈ st.touched → st.notifier.Noticed dir) → ∀ name, e.name = some name →
        st.notifier.path <+: dir → notifier.Noticed (child dir name)) := by
  unfold notice
  split_ifs with hfiles htouched
  · refine ⟨_, _, rfl, grows_addPath _ _, fun _ h => .inl h, fun _ name hname hdir => ?_⟩
    rw [hname]
    exact noticed_addPath (hdir.trans (prefix_child _ _)) prefix_rfl
  · exact ⟨_, _, rfl, .refl _, fun _ h => .inl h, fun h _ _ _ => noticed_trans (h htouched) (prefix_child _ _)⟩
  · refine ⟨_, _, rfl, grows_addPath _ _, fun wd hwd => ?_, fun _ name _ hdir => ?_⟩
    · rcases mem_cons.mp hwd with rfl | hwd
      · exact .inr ⟨rfl, fun hdir => noticed_addPath hdir prefix_rfl⟩
      · exact .inl hwd
    · exact noticed_addPath (hdir.trans (prefix_child _ _)) (prefix_child _ _)

/-- An event that changes no entry does not collect anything and only adds to what is noticed. -/
theorem Handled.of_grows {table : ℕ → Option Path} (hflag : e.flag.isChange = false) (hgrows : Grows st.notifier n)
    (htable : table = if e.flag = .ignored then update st.table e.wd none else st.table) :
    Handled st { st with table, notifier := n } e where
  kernel := rfl
  buffer := rfl
  grows := hgrows
  table := htable
  touched := fun _ h => .inl h
  stale := fun _ h => .inl h
  noticed := by
    intro _ _ _ _ _ hnames
    rw [hnames.1] at hflag
    cases hflag

theorem handled_notice (hdir : st.table e.wd = some dir) (hignored : e.flag ≠ .ignored) :
    Handled st (notice (collect st dir e) dir e) e := by
  obtain ⟨newDirs, staleDirs, hcollect, hstale⟩ := collect_spec st dir e
  obtain ⟨touched, n, hnotice, hgrows, htouched, hnoticed⟩ := notice_spec { st with newDirs, staleDirs } dir e
  rw [hcollect, hnotice]
  refine ⟨rfl, rfl, hgrows, (if_neg hignored).symm, fun wd hwd => ?_, fun path hpath => ?_,
    fun dir' p hdir' hle htouched' hnames => ?_⟩
  · refine (htouched wd hwd).imp_right fun ⟨heq, h⟩ => ⟨heq, fun dir' hdir' hle => ?_⟩
    obtain rfl := Option.some.inj (hdir.symm.trans hdir')
    exact h hle
  · refine (hstale path hpath).imp_right fun ⟨hflag, name, hname, heq⟩ => ⟨dir, hdir, ?_, name, hname, ?_⟩
    · rw [hflag]
      rfl
    · rw [heq]
  · obtain rfl := Option.some.inj (hdir.symm.trans hdir')
    obtain ⟨_, name, hname, hchild⟩ := hnames
    exact noticed_trans (hnoticed htouched' name hname hle) hchild

theorem handled_handle (st : State) (e : Event) : Handled st (handle st e) e := by
  unfold handle
  split
  next hflag => exact .of_grows (by rw [hflag]; rfl) (grows_addPath _ _) (by rw [hflag]; rfl)
  next hflag => exact .of_grows (by rw [hflag]; rfl) (.refl _) (by rw [if_pos hflag])
  next _ hignored =>
    split
    next hnone =>
      refine ⟨rfl, rfl, .refl _, (if_neg hignored).symm, fun _ h => .inl h, fun _ h => .inl h, ?_⟩
      intro dir p hdir
      rw [hnone] at hdir
      cases hdir
    next dir hdir =>
      unfold handleEvent
      split
      next hflag => exact .of_grows (by rw [hflag]; rfl) ⟨rfl, fun _ _ h => h⟩ (by rw [hflag]; rfl)
      next hflag =>
        exact .of_grows (by rw [hflag]; rfl) (grows_addPath { st.notifier with isTrusted := _ } _)
          (by rw [hflag]; rfl)
      next hflag =>
        exact .of_grows (by rw [hflag]; rfl) (grows_addPath { st.notifier with isTrusted := _ } _)
          (by rw [hflag]; rfl)
      · exact handled_notice hdir hignored

/-- Handling the first event of the batch keeps the promises: what it announced is noticed, and an entry that is
ignored is no directory's, so that what its events announced is announced elsewhere. -/
theorem keeps_handle (h : Sound root st) (hbuffer : st.buffer = e :: rest)
    (hst : Handled st st' e) : Keeps root st { st' with buffer := rest } := by
  have hpending : ∀ e' ∈ st.pending, e' = e ∨ e' ∈ ({ st' with buffer := rest }).pending := by
    intro e' he'
    change e' ∈ st.buffer ++ st.kernel.queue at he'
    rw [hst.kernel]
    rwa [hbuffer, cons_append, mem_cons] at he'
  have hgrows : ∀ p, root <+: p → st.notifier.Noticed p → st'.notifier.Noticed p :=
    h.registered ▸ hst.grows.2
  -- an event for an entry that stays is handled now, or still announces what it did
  have hkeeps : ∀ p, ∀ e' ∈ st.pending, ∀ q, st.table e'.wd = some q → st'.table e'.wd = st.table e'.wd →
      e'.Names q p → Promised { st' with buffer := rest } p := by
    intro p e' he' q hq hsame hnames
    rcases hpending e' he' with rfl | he'
    · exact .inl (hst.noticed q p hq (h.registered ▸ h.below _ q hq) (h.touched _ · q hq) hnames)
    · exact .inr ⟨e', he', q, hsame.trans hq, hnames⟩
  rintro p hp (hnoticed | ⟨e', he', q, hq, hnames⟩)
  · exact .inl (hgrows p hp hnoticed)
  by_cases hgone : e.flag = .ignored ∧ e'.wd = e.wd
  · obtain ⟨hflag, hwd⟩ := hgone
    have htable : ∀ wd, wd ≠ e.wd → st'.table wd = st.table wd := by
      intro wd hne
      rw [hst.table, if_pos hflag, update_of_ne hne]
    rw [hwd] at hq
    have hpend : e ∈ st.pending := by
      show e ∈ st.buffer ++ _
      rw [hbuffer]
      exact mem_cons_self
    rcases h.accurate.entries _ q hq with ⟨d, hd, hdwd, _⟩ | hnoticed | hannounced
    · exact absurd hdwd ((h.events e hpend).2 hflag d hd)
    · exact .inl (hgrows p hp (noticed_trans hnoticed hnames.le))
    · obtain ⟨e₂, he₂, hne, q₂, hq₂, hnames₂⟩ := announced_elsewhere hq hannounced
      exact hkeeps p e₂ he₂ q₂ hq₂ (htable _ hne) (hnames₂.trans hnames.le)
  · refine hkeeps p e' he' q hq ?_ hnames
    rw [hst.table]
    split_ifs with hflag
    · exact update_of_ne (fun heq => hgone ⟨hflag, heq⟩) _ _
    · rfl

theorem Handled.table_of_some (hst : Handled st st' e) (h : st'.table wd = some q) :
    st.table wd = some q := by
  rw [hst.table] at h
  split_ifs at h
  · by_cases hwd : wd = e.wd
    · rw [hwd, update_self] at h
      cases h
    · rwa [update_of_ne hwd] at h
  · exact h

theorem accurate_handle (h : Sound root st) (hbuffer : st.buffer = e :: rest) (hst : Handled st st' e) :
    Accurate { st' with buffer := rest } (Promised { st' with buffer := rest }) := by
  have hkeeps := keeps_handle h hbuffer hst
  have hpend : e ∈ st.pending := by
    show e ∈ st.buffer ++ _
    rw [hbuffer]
    exact mem_cons_self
  refine ⟨fun d hd => ?_, fun wd q hq => ?_⟩
  · rw [hst.kernel] at hd
    refine (h.accurate.dirs d hd).imp (fun ⟨wd, hwd, htable⟩ => ⟨wd, hwd, ?_⟩) (hkeeps d.path (h.kernel.below d hd))
    rw [hst.table]
    split_ifs with hflag
    · have hne : wd ≠ e.wd := fun heq => (h.events e hpend).2 hflag d hd (heq ▸ hwd)
      rw [update_of_ne hne, htable]
    · exact htable
  · have hq := hst.table_of_some hq
    refine (h.accurate.entries wd q hq).imp (fun ⟨d, hd, hwd, hpath⟩ => ⟨d, ?_, hwd, hpath⟩)
      (hkeeps q (h.below wd q hq))
    rwa [hst.kernel]

theorem faithful_handle (h : Sound root st) (hbuffer : st.buffer = e :: rest) (hst : Handled st st' e) :
    Faithful root st ({ st' with buffer := rest, touched := if rest = [] then [] else st'.touched }, .silent) := by
  have hkeeps := keeps_handle h hbuffer hst
  have hpending : ∀ e' ∈ rest ++ st.kernel.queue, e' ∈ st.pending := by
    intro e' he'
    show e' ∈ st.buffer ++ _
    rw [hbuffer]
    exact mem_cons_of_mem _ he'
  have hgrows : ∀ p, root <+: p → st.notifier.Noticed p → st'.notifier.Noticed p :=
    h.registered ▸ hst.grows.2
  refine .silent ⟨hst.kernel ▸ h.kernel, hst.grows.1.trans h.registered,
    fun wd q hq => h.below wd q (hst.table_of_some hq),
    fun wd q hq => hst.kernel ▸ h.fresh wd q (hst.table_of_some hq), ?_, ?_, ?_, ?_, ?_⟩ hkeeps
  · intro e' he'
    rw [hst.kernel] at he' ⊢
    exact h.events e' (hpending e' he')
  · intro wd hwd q hq
    have hwd : wd ∈ st'.touched := by
      split_ifs at hwd
      · cases hwd
      · exact hwd
    have hq := hst.table_of_some hq
    have hle := h.below wd q hq
    rcases hst.touched wd hwd with hold | ⟨rfl, hnew⟩
    · exact hgrows q hle (h.touched wd hold q hq)
    · exact hnew q hq (h.registered ▸ hle)
  · intro hrest
    exact if_pos hrest
  · intro path hpath
    rcases hst.stale path hpath with hold | ⟨dir, hdir, hnames⟩
    · obtain ⟨hle, hnoticed⟩ := h.stale path hold
      exact ⟨hle, hgrows path hle hnoticed⟩
    · have hle := h.below _ dir hdir
      exact ⟨hle.trans hnames.le, hst.noticed dir path hdir (h.registered ▸ hle) (h.touched _ · dir hdir) hnames⟩
  · have haccurate := accurate_handle h hbuffer hst
    exact ⟨haccurate.dirs, haccurate.entries⟩

/-! ## Unwatching and watching trees -/

section Unwatch

variable {path : Path}

theorem any_le_eq_false {wd : ℕ} :
    (st.table wd).any (path <+: ·) = false ↔ ∀ q, st.table wd = some q → ¬path <+: q := by
  cases st.table wd <;> simp

theorem table_unwatchTree {wd : ℕ} :
    (unwatchTree st path).table wd = some q ↔ st.table wd = some q ∧ ¬path <+: q := by
  show (if (st.table wd).any (path <+: ·) then none else st.table wd) = some q ↔ _
  split_ifs with hgone
  · refine ⟨nofun, fun ⟨hq, hle⟩ => ?_⟩
    rw [hq, Option.any_some, decide_eq_true_eq] at hgone
    exact absurd hgone hle
  · rw [Bool.not_eq_true, any_le_eq_false] at hgone
    exact ⟨fun hq => ⟨hq, hgone q hq⟩, (·.1)⟩

theorem faithful_unwatch (h : Sound root st) (hbuffer : st.buffer = []) {rest : List Path}
    (hstale : st.staleDirs = path :: rest) :
    Faithful root st ({ unwatchTree st path with staleDirs := rest }, .silent) := by
  obtain ⟨hpath, hnoticed⟩ := h.stale path (hstale ▸ mem_cons_self)
  have hpending : ∀ e ∈ st.pending, e ∈ (unwatchTree st path).pending := fun e he => by
    show e ∈ st.buffer ++ (st.kernel.queue ++ _)
    rw [← append_assoc]
    exact mem_append_left _ he
  have hkeeps : Keeps root st { unwatchTree st path with staleDirs := rest } := by
    rintro p hp (h | ⟨e, he, q, hq, hnames⟩)
    · exact .inl h
    by_cases hle : path <+: q
    · exact .inl (noticed_trans hnoticed (hle.trans hnames.le))
    · exact .inr ⟨e, hpending e he, q, table_unwatchTree.mpr ⟨hq, hle⟩, hnames⟩
  refine .silent ⟨h.kernel.removeWatches _, h.registered, fun wd q hq => h.below wd q (table_unwatchTree.mp hq).1,
    fun wd q hq => h.fresh wd q (table_unwatchTree.mp hq).1, ?_, ?_, h.quiet, ?_, ?_, ?_⟩ hkeeps
  · intro e he
    change e ∈ st.buffer ++ (st.kernel.queue ++ _) at he
    rw [← append_assoc] at he
    rcases mem_append.mp he with hold | hnew
    · refine ⟨(h.events e hold).1, fun hflag d' hd' hwd => ?_⟩
      obtain ⟨d, hd, _, hwds⟩ := mem_removeWatches hd'
      exact (h.events e hold).2 hflag d hd ((hwds _).mp hwd).1
    · obtain ⟨wd, hwd, rfl⟩ := mem_map.mp hnew
      obtain ⟨hwd, hgone⟩ := mem_filter.mp hwd
      obtain ⟨d, hd, hdwd⟩ := mem_filterMap.mp hwd
      refine ⟨h.kernel.fresh d hd wd hdwd, fun _ d' hd' hwd' => ?_⟩
      obtain ⟨_, _, _, hwds⟩ := mem_removeWatches hd'
      rw [((hwds wd).mp hwd').2] at hgone
      cases hgone
  · intro wd hwd
    rw [show (unwatchTree st path).touched = [] from h.quiet hbuffer] at hwd
    cases hwd
  · intro path' hpath'
    exact h.stale path' (hstale ▸ mem_cons_of_mem _ hpath')
  · intro d' hd'
    obtain ⟨d, hd, heq, hwds⟩ := mem_removeWatches hd'
    rw [heq]
    rcases h.accurate.dirs d hd with ⟨wd, hwd, htable⟩ | hpromised
    · by_cases hle : path <+: d.path
      · exact .inr (.inl (noticed_trans hnoticed hle))
      · refine .inl ⟨wd, (hwds wd).mpr ⟨hwd, any_le_eq_false.mpr fun q hq => ?_⟩, ?_⟩
        · exact Option.some.inj (htable.symm.trans hq) ▸ hle
        · exact table_unwatchTree.mpr ⟨heq ▸ htable, heq ▸ hle⟩
    · exact .inr (hkeeps d.path (h.kernel.below d hd) hpromised)
  · intro wd q hq
    obtain ⟨hq, hle⟩ := table_unwatchTree.mp hq
    rcases h.accurate.entries wd q hq with ⟨d, hd, hwd, hpath⟩ | hpromised
    · refine .inl ⟨d, mem_map.mpr ⟨d, hd, if_neg ?_⟩, hwd, hpath⟩
      rw [hwd, Option.any_some, Bool.not_eq_true, any_le_eq_false]
      exact fun q' hq' => Option.some.inj (hq.symm.trans hq') ▸ hle
    · exact .inr (hkeeps q (h.below wd q hq) hpromised)

end Unwatch

section Watch

variable {path : Path} {wd : ℕ} {k' : Kernel}

/-- The entry that a watch replaces: it is the same path, or no directory's, so that it is promised elsewhere. -/
theorem Sound.keeps_update (h : Sound root st) (hpoints : ∀ q, st.table wd = some q → q = path ∨ ¬Points st wd q)
    (hqueue : k'.queue = st.kernel.queue) (stack : List Path) (reading : Option Path) :
    Keeps root st { st with stack, reading, kernel := k', table := update st.table wd (some path) } := by
  have hannounced : ∀ p, ∀ e ∈ st.pending, e.wd ≠ wd → ∀ q, st.table e.wd = some q → e.Names q p →
      Promised { st with stack, reading, kernel := k', table := update st.table wd (some path) } p := by
    intro p e he hne q hq hnames
    refine .inr ⟨e, ?_, q, (update_of_ne hne _ _).trans hq, hnames⟩
    show e ∈ st.buffer ++ k'.queue
    rwa [hqueue]
  rintro p hp (hnoticed | ⟨e, he, q, hq, hnames⟩)
  · exact .inl hnoticed
  by_cases hwd : e.wd = wd
  · rw [hwd] at hq
    rcases hpoints q hq with rfl | hpoints
    · refine .inr ⟨e, ?_, q, ?_, hnames⟩
      · show e ∈ st.buffer ++ k'.queue
        rwa [hqueue]
      · rw [hwd]
        exact update_self _ _ _
    rcases h.accurate.entries wd q hq with hpoints' | hnoticed | hannounced'
    · exact absurd hpoints' hpoints
    · exact .inl (noticed_trans hnoticed hnames.le)
    · obtain ⟨e₂, he₂, hne, q₂, hq₂, hnames₂⟩ := announced_elsewhere hq hannounced'
      exact hannounced p e₂ he₂ hne q₂ hq₂ (hnames₂.trans hnames.le)
  · exact hannounced p e he hwd q hq hnames

theorem faithful_addWatch (h : Sound root st) (hbuffer : st.buffer = [])
    (hk : st.kernel.addWatch path = some (wd, k')) (stack : List Path) (reading : Option Path) :
    Faithful root st
      ({ st with stack, reading, kernel := k', table := update st.table wd (some path) }, .silent) := by
  have hkernel := h.kernel.addWatch hk
  have hw := watched_addWatch h.kernel hk
  obtain ⟨d₀, hd₀, hwd₀, hpath₀⟩ := hw.installed
  have hpoints : ∀ q, st.table wd = some q → q = path ∨ ¬Points st wd q := by
    intro q _
    by_cases hq : q = path
    · exact .inl hq
    · refine .inr fun ⟨d, hd, hwd, hpath⟩ => ?_
      rcases hw.dirs d (hw.kept d hd _ hwd) with ⟨_, hpath'⟩ | ⟨_, hne⟩
      · exact hq (hpath.symm.trans hpath')
      · exact hne hwd
  have hkeeps := h.keeps_update hpoints hw.queue stack reading
  have htable : ∀ wd' q, update st.table wd (some path) wd' = some q →
      wd' = wd ∧ q = path ∨ wd' ≠ wd ∧ st.table wd' = some q := by
    intro wd' q hq
    by_cases hwd' : wd' = wd
    · rw [hwd', update_self] at hq
      exact .inl ⟨hwd', (Option.some.inj hq).symm⟩
    · rw [update_of_ne hwd'] at hq
      exact .inr ⟨hwd', hq⟩
  refine .silent ⟨hkernel, h.registered, fun wd' q hq => ?_, fun wd' q hq => ?_, fun e he => ?_,
    fun wd' hwd' => ?_, h.quiet, h.stale, fun d hd => ?_, fun wd' q hq => ?_⟩ hkeeps
  · rcases htable wd' q hq with ⟨_, rfl⟩ | ⟨_, hq⟩
    · obtain ⟨d, hd, rfl⟩ := hw.found
      exact h.kernel.below d hd
    · exact h.below wd' q hq
  · rcases htable wd' q hq with ⟨rfl, _⟩ | ⟨_, hq⟩
    · exact hkernel.fresh d₀ hd₀ _ hwd₀
    · exact (h.fresh wd' q hq).trans_le hw.nextWd
  · change e ∈ st.buffer ++ k'.queue at he
    rw [hw.queue] at he
    refine ⟨(h.events e he).1.trans_le hw.nextWd, fun hflag d hd hwd => ?_⟩
    obtain ⟨d', hd', hwd'⟩ := hw.wds d hd _ hwd (h.events e he).1
    exact (h.events e he).2 hflag d' hd' hwd'
  · rw [h.quiet hbuffer] at hwd'
    cases hwd'
  · rcases hw.dirs d hd with ⟨hwd, hpath⟩ | ⟨hold, hne⟩
    · exact .inl ⟨wd, hwd, by rw [hpath]; exact update_self _ _ _⟩
    · refine (h.accurate.dirs d hold).imp (fun ⟨wd', hwd', hq⟩ => ⟨wd', hwd', ?_⟩)
        (hkeeps d.path (h.kernel.below d hold))
      exact (update_of_ne (fun heq : wd' = wd => hne (heq ▸ hwd')) _ _).trans hq
  · rcases htable wd' q hq with ⟨rfl, rfl⟩ | ⟨_, hq⟩
    · exact .inl ⟨d₀, hd₀, hwd₀, hpath₀⟩
    · exact (h.accurate.entries wd' q hq).imp
        (fun ⟨d, hd, hwd, hpath⟩ => ⟨d, hw.kept d hd _ hwd, hwd, hpath⟩) (hkeeps q (h.below wd' q hq))

end Watch

/-! ## Runs -/

theorem idle_spec (h : st.idle = true) : st.buffer = [] ∧ st.staleDirs = [] := by
  simp only [State.idle, Bool.and_eq_true, List.isEmpty_iff] at h
  exact ⟨h.1.1.1.1, h.1.1.1.2⟩

theorem faithful_read (h : Sound root st) (hidle : st.idle = true) (n : ℕ) :
    Faithful root st ({ st with
      buffer := st.kernel.queue.take n
      kernel := { st.kernel with queue := st.kernel.queue.drop n } }, .silent) := by
  obtain ⟨hbuffer, _⟩ := idle_spec hidle
  have hpending : st.kernel.queue.take n ++ st.kernel.queue.drop n = st.pending := by
    rw [take_append_drop, State.pending, hbuffer, nil_append]
  have hkeeps : Keeps root st { st with
      buffer := st.kernel.queue.take n
      kernel := { st.kernel with queue := st.kernel.queue.drop n } } := by
    rintro p _ (hnoticed | ⟨e, he, hannounced⟩)
    · exact .inl hnoticed
    · rw [← hpending] at he
      exact .inr ⟨e, he, hannounced⟩
  have hkernel : Kernel.Sound root { st.kernel with queue := st.kernel.queue.drop n } :=
    h.kernel.of_sublist (Sublist.refl _) _
  refine .silent { h with
    kernel := hkernel, events := fun e he => ?_, quiet := fun _ => h.quiet hbuffer
    accurate := ⟨fun d hd => ?_, fun wd q hq => ?_⟩ } hkeeps
  · exact h.events e (hpending ▸ he)
  · exact (h.accurate.dirs d hd).imp_right (hkeeps d.path (h.kernel.below d hd))
  · exact (h.accurate.entries wd q hq).imp_right (hkeeps q (h.below wd q hq))

/-- The directories that are still to be watched do not matter to what is promised. -/
theorem Sound.faithful_walk (h : Sound root st) (newDirs stack : List Path) (reading : Option Path) :
    Faithful root st ({ st with newDirs, stack, reading }, .silent) :=
  .silent { h with accurate := ⟨h.accurate.dirs, h.accurate.entries⟩ } fun _ _ hp => hp

theorem faithful_step (h : Sound root st) {a : Action} (ha : a ≠ .take) : Faithful root st (step st a) := by
  cases a <;> simp only [step]
  case mkdir => exact faithful_operate h fun _ hk => faithful_mkdir h hk
  case rmdir => exact faithful_operate h fun _ hk => faithful_rmdir h hk
  case rename => exact faithful_operate h fun _ hk => faithful_rename h hk
  case change => exact faithful_operate h fun _ hk => faithful_change h hk
  case watchFirewallFiles files =>
    exact .silent { h with accurate := ⟨h.accurate.dirs, h.accurate.entries⟩ } fun _ _ hp => hp
  case read n =>
    split_ifs with hidle
    · exact faithful_read h hidle n
    · exact .refl h
  case handle =>
    split
    · exact .refl h
    next e rest hbuffer => exact faithful_handle h hbuffer (handled_handle st e)
  case unwatch =>
    split
    next hbuffer hstale => exact faithful_unwatch h hbuffer hstale
    · exact .refl h
  case startWatch =>
    split
    · exact h.faithful_walk _ _ _
    · exact .refl h
  case addWatch =>
    split
    next hbuffer _ _ =>
      split
      · exact h.faithful_walk _ _ _
      next hk => exact faithful_addWatch h hbuffer hk _ _
    · exact .refl h
  case readDir =>
    split
    · exact .refl h
    · exact h.faithful_walk _ _ _
  case take => exact absurd rfl ha

/-- Paths are taken only when no batch is under way and the table is accurate but for what unhandled events
announce. -/
def Settled (_ : List (Action × Reply)) (st : State) (a : Action) : Prop :=
  a = .take → st.buffer = [] ∧ st.staleDirs = [] ∧ Accurate st (Announced st)

theorem sound_take (h : Sound root st) (hg : Settled [] st .take) : Sound root (step st .take).1 := by
  obtain ⟨hbuffer, hstale, haccurate⟩ := hg rfl
  refine { h with
    touched := fun wd hwd => ?_, stale := fun path hpath => ?_
    accurate := ⟨fun d hd => (haccurate.dirs d hd).imp_right .inr, fun wd q hq =>
      (haccurate.entries wd q hq).imp_right .inr⟩ }
  · change wd ∈ st.touched at hwd
    rw [h.quiet hbuffer] at hwd
    cases hwd
  · change path ∈ st.staleDirs at hpath
    rw [hstale] at hpath
    cases hpath

/-- Every change is promised, or a path above it was taken after it. -/
def ChangesPromised (root : Path) (tr : List (Action × Reply)) (st : State) : Prop :=
  ∀ pre a paths post, tr = pre ++ (a, .changed paths) :: post → ∀ p ∈ paths, root <+: p ∧
    (Promised st p ∨ ∃ e ∈ post, ∃ taken, e.2 = .took taken ∧ Above taken p)

/-- Every change is below a path that is recorded, or that was taken after it. -/
def ChangesNoticed (tr : List (Action × Reply)) (st : State) : Prop :=
  ∀ pre a paths post, tr = pre ++ (a, .changed paths) :: post → ∀ p ∈ paths,
    st.notifier.Noticed p ∨ ∃ e ∈ post, ∃ taken, e.2 = .took taken ∧ Above taken p

variable {tr : List (Action × Reply)}

theorem changesPromised_step (h : Sound root st) (htr : ChangesPromised root tr st)
    {a : Action} (ha : a ≠ .take) : ChangesPromised root (tr ++ [(a, (step st a).2)]) (step st a).1 := by
  have hstep := faithful_step h ha
  intro pre b paths post hsplit p hp
  rcases split_concat hsplit with ⟨rfl, heq⟩ | ⟨post', rfl, rfl⟩
  · have hreply : (step st a).2 = .changed paths := congrArg Prod.snd heq
    exact (hstep.changes paths hreply p hp).imp_right .inl
  · obtain ⟨hle, hpromised⟩ := htr pre b paths post' rfl p hp
    refine ⟨hle, hpromised.imp (hstep.keeps p hle) fun ⟨e, he, htaken⟩ => ⟨e, ?_, htaken⟩⟩
    exact mem_append_left _ he

theorem changesPromised_take (htr : ChangesPromised root tr st) :
    ChangesPromised root (tr ++ [(.take, (step st .take).2)]) (step st .take).1 := by
  intro pre b paths post hsplit p hp
  rcases split_concat hsplit with ⟨_, heq⟩ | ⟨post', rfl, rfl⟩
  · exact nomatch congrArg Prod.snd heq
  · obtain ⟨hle, (hnoticed | hannounced) | ⟨e, he, htaken⟩⟩ := htr pre b paths post' rfl p hp
    · exact ⟨hle, .inr ⟨_, mem_append_right _ (mem_singleton.mpr rfl), _, rfl, noticed_taken hnoticed⟩⟩
    · exact ⟨hle, .inl (.inr hannounced)⟩
    · exact ⟨hle, .inr ⟨e, mem_append_left _ he, htaken⟩⟩

/-- A server that was just registered: all of its directory is recorded as modified. -/
structure Registered (root : Path) (st : State) : Prop where
  kernel : st.kernel.Sound root
  path : st.notifier.path = root
  recorded : st.notifier.modifiedPaths = [root]
  table : ∀ wd q, st.table wd = some q → root <+: q ∧ wd < st.kernel.nextWd
  events : ∀ e ∈ st.pending, e.wd < st.kernel.nextWd ∧ (e.flag = .ignored → ∀ d ∈ st.kernel.dirs, d.wd ≠ some e.wd)
  touched : st.touched = []
  stale : st.staleDirs = []

theorem Registered.sound (h : Registered root st) : Sound root st where
  kernel := h.kernel
  registered := h.path
  below := fun wd q hq => (h.table wd q hq).1
  fresh := fun wd q hq => (h.table wd q hq).2
  events := h.events
  touched := fun wd hwd => by rw [h.touched] at hwd; cases hwd
  quiet := fun _ => h.touched
  stale := fun path hpath => by rw [h.stale] at hpath; cases hpath
  accurate := by
    have hall : ∀ p, root <+: p → Promised st p := fun p hp =>
      .inl ⟨root, by rw [h.recorded]; exact mem_singleton.mpr rfl, hp⟩
    exact ⟨fun d hd => .inr (hall _ (h.kernel.below d hd)), fun wd q hq => .inr (hall _ (h.table wd q hq).1)⟩

theorem not_announced (hidle : st.idle = true) (hqueue : st.kernel.queue = []) : ¬Announced st p := by
  rintro ⟨e, he, _⟩
  change e ∈ st.buffer ++ st.kernel.queue at he
  rw [(idle_spec hidle).1, hqueue] at he
  cases he

/-- **Every change is noticed** once the queue is empty and the loop is idle, in runs where paths are taken only in
settled states. -/
theorem changes_noticed (h : Registered root st) {as : List Action} (hg : Steps step Settled st as)
    (hidle : (exec step st as).idle = true) (hqueue : (exec step st as).kernel.queue = []) :
    ChangesNoticed (trace step st as) (exec step st as) := by
  have hinv := inv_of_steps (I := fun tr st => Sound root st ∧ ChangesPromised root tr st)
    ⟨h.sound, fun pre a paths post hnil => by simp at hnil⟩ ?_ hg
  · intro pre a paths post hsplit p hp
    obtain ⟨_, (hnoticed | hannounced) | htaken⟩ := hinv.2 pre a paths post hsplit p hp
    · exact .inl hnoticed
    · exact absurd hannounced (not_announced hidle hqueue)
    · exact .inr htaken
  · rintro tr t a ⟨ht, htr⟩ hsettled
    by_cases ha : a = .take
    · subst ha
      exact ⟨sound_take ht hsettled, changesPromised_take htr⟩
    · exact ⟨(faithful_step ht ha).sound, changesPromised_step ht htr ha⟩

/-- A server whose directory is empty and watched. -/
def emptyServer : State where
  kernel := ⟨[⟨[.rootDir], some 0⟩], 1, []⟩
  table := Function.update (fun _ => none) 0 (some [.rootDir])
  notifier := .new [.rootDir] (false, false)
  buffer := []
  touched := []
  newDirs := []
  staleDirs := []
  stack := []
  reading := none

theorem table_emptyServer (h : emptyServer.table wd = some q) : wd = 0 ∧ q = [.rootDir] := by
  simp only [emptyServer] at h
  by_cases hwd : wd = 0
  · rw [hwd] at h
    exact ⟨hwd, (Option.some.inj h).symm⟩
  · rw [update_of_ne hwd] at h
    cases h

theorem registered_emptyServer : Registered [.rootDir] emptyServer := by
  refine ⟨⟨by decide, by decide, ?_, ?_⟩, rfl, rfl, fun wd q hq => ?_, nofun, rfl, rfl⟩
  · intro d hd d' hd' _ _ _
    rw [mem_singleton.mp hd, mem_singleton.mp hd']
  · intro d hd wd hwd
    rw [mem_singleton.mp hd] at hwd
    cases hwd
    decide
  · obtain ⟨rfl, rfl⟩ := table_emptyServer hq
    decide

def newName : FileName := ⟨[0x61], isFileName_a⟩

/-- A directory is made, the paths are taken while its event is queued, and then it is watched. -/
def settledRun : List Action :=
  [.mkdir [.rootDir] newName, .take, .read 1, .handle, .startWatch, .addWatch, .readDir]

theorem changes_noticed_new_directory :
    ChangesNoticed (trace step emptyServer settledRun) (exec step emptyServer settledRun) := by
  refine changes_noticed registered_emptyServer ?_ rfl rfl
  simp only [settledRun, steps_cons]
  refine ⟨nofun, fun _ => ⟨rfl, rfl, fun d hd => ?_, fun wd q hq => ?_⟩, nofun, nofun, nofun, nofun, nofun, steps_nil⟩
  · have hdirs : d = ⟨[.rootDir], some 0⟩ ∨ d = ⟨child [.rootDir] newName, none⟩ := by
      simpa using (show d ∈ [⟨[.rootDir], some 0⟩, ⟨child [.rootDir] newName, none⟩] from hd)
    rcases hdirs with rfl | rfl
    · exact .inl ⟨0, rfl, rfl⟩
    · refine .inr ⟨⟨0, .create, true, some newName⟩, ?_, [.rootDir], rfl, rfl, newName, rfl, prefix_rfl⟩
      exact mem_singleton.mpr rfl
  · obtain ⟨rfl, rfl⟩ := table_emptyServer hq
    exact .inl ⟨⟨[.rootDir], some 0⟩, mem_cons_self, rfl, rfl⟩

/-- The paths are taken after the event of the new directory was handled, and a file is made in it before it is
watched. -/
def unsettledRun : List Action :=
  [.mkdir [.rootDir] newName, .read 1, .handle, .take] ++
    [.change (child [.rootDir] newName) .create newName, .startWatch, .addWatch, .readDir]

/-- The queue is empty and the loop idle, but the new file is below no recorded path, and nothing was taken
since. -/
theorem change_unnoticed :
    (exec step emptyServer unsettledRun).idle = true ∧ (exec step emptyServer unsettledRun).kernel.queue = [] ∧
      (exec step emptyServer unsettledRun).notifier.isTrusted = true ∧
      ¬ChangesNoticed (trace step emptyServer unsettledRun) (exec step emptyServer unsettledRun) := by
  refine ⟨rfl, rfl, rfl, fun hnoticed => ?_⟩
  have htrace : trace step emptyServer unsettledRun =
      trace step emptyServer [.mkdir [.rootDir] newName, .read 1, .handle, .take] ++
        (.change (child [.rootDir] newName) .create newName, .changed [child (child [.rootDir] newName) newName]) ::
          [(.startWatch, .silent), (.addWatch, .silent), (.readDir, .silent)] := rfl
  rcases hnoticed _ _ _ _ htrace _ (mem_singleton.mpr rfl) with ⟨k, hk, _⟩ | ⟨e, he, taken, htaken, _⟩
  · cases hk
  · simp only [mem_cons, not_mem_nil, or_false] at he
    rcases he with rfl | rfl | rfl <;> cases htaken

end Wings.Filesystem.Inotify
