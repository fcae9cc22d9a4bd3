import Wings.Filesystem.Inotify

/-!
# Wings.Filesystem.InotifyKernel — directories and their watches

What the operations of the file system and the calls of the loop do to the directories, their watches and the queue.
-/

namespace Wings.Filesystem.Inotify

open Lib List

variable {root : Path}

theorem prefix_child (q : Path) (name : FileName) : q <+: child q name := prefix_append _ _

namespace Kernel

/-- Directories are below the root and at different paths, and a watch is of one directory. -/
structure Sound (root : Path) (k : Kernel) : Prop where
  below : ∀ d ∈ k.dirs, root <+: d.path
  paths : (k.dirs.map (·.path)).Nodup
  watches : ∀ d ∈ k.dirs, ∀ d' ∈ k.dirs, ∀ wd, d.wd = some wd → d'.wd = some wd → d = d'
  fresh : ∀ d ∈ k.dirs, ∀ wd, d.wd = some wd → wd < k.nextWd

variable {k k' : Kernel} {path : Path}

theorem exists_of_hasDir (h : k.hasDir path = true) : ∃ d ∈ k.dirs, d.path = path ∧ k.wdAt path = d.wd := by
  have hfound : (k.dirs.find? (·.path = path)).isSome := find?_isSome.mpr (any_eq_true.mp h)
  obtain ⟨d', hd'⟩ := Option.isSome_iff_exists.mp hfound
  refine ⟨d', mem_of_find?_eq_some hd', by simpa using find?_some hd', ?_⟩
  rw [wdAt, hd', Option.bind_some]

theorem mem_events {flag : Flag} {isDir : Bool} {name : Option FileName} {e : Event}
    (h : e ∈ k.events path flag isDir name) :
    e.flag = flag ∧ ∃ d ∈ k.dirs, d.path = path ∧ d.wd = some e.wd := by
  obtain ⟨wd, hwd, rfl⟩ := mem_map.mp h
  obtain ⟨d, hfind, hd⟩ := Option.bind_eq_some_iff.mp (Option.mem_toList.mp hwd)
  exact ⟨rfl, d, mem_of_find?_eq_some hfind, by simpa using find?_some hfind, hd⟩

theorem Sound.eq_of_path (hk : Sound root k) {d d' : Directory} (hd : d ∈ k.dirs) (hd' : d' ∈ k.dirs)
    (h : d.path = d'.path) : d = d' :=
  inj_on_of_nodup_map hk.paths hd hd' h

/-- What an operation of the file system leaves of watches and events: directories keep their watches, new events
are of directories with a watch, and a watch that is ignored is gone. -/
structure Operated (k k' : Kernel) (es : List Event) : Prop where
  nextWd : k'.nextWd = k.nextWd
  queue : k'.queue = k.queue ++ es
  events : ∀ e ∈ es, ∃ d ∈ k.dirs, d.wd = some e.wd
  ignored : ∀ e ∈ es, e.flag = .ignored → ∀ d ∈ k'.dirs, d.wd ≠ some e.wd
  wds : ∀ d' ∈ k'.dirs, ∀ wd, d'.wd = some wd → ∃ d ∈ k.dirs, d.wd = some wd

theorem hasDir_of_mem {d : Directory} (hd : d ∈ k.dirs) : k.hasDir d.path = true :=
  any_eq_true.mpr ⟨d, hd, by simp⟩

section Operations

variable {parent parent' : Path} {name name' : FileName} {source target : Path}

theorem mkdir_spec (h : k.mkdir parent name = some k') :
    k.hasDir parent = true ∧ k.hasDir (child parent name) = false ∧
      k' = { k with
        dirs := k.dirs ++ [⟨child parent name, none⟩]
        queue := k.queue ++ k.events parent .create true (some name) } := by
  unfold mkdir at h
  split_ifs at h with hvalid
  simp only [Bool.and_eq_true, Bool.not_eq_true'] at hvalid
  exact ⟨hvalid.1, hvalid.2, (Option.some.inj h).symm⟩

variable {d : Directory}

/-- A new directory has no watch. -/
theorem mem_of_wd {path : Path} {wd : ℕ} (hd : d ∈ k.dirs ++ [⟨path, none⟩]) (hwd : d.wd = some wd) :
    d ∈ k.dirs := by
  rcases mem_append.mp hd with hd | hd
  · exact hd
  · rw [mem_singleton.mp hd] at hwd
    cases hwd

theorem operated_mkdir (h : k.mkdir parent name = some k') :
    Operated k k' (k.events parent .create true (some name)) := by
  obtain ⟨_, _, rfl⟩ := mkdir_spec h
  refine ⟨rfl, rfl, fun e he => ?_, fun e he hflag => ?_, fun d hd wd hwd => ⟨d, mem_of_wd hd hwd, hwd⟩⟩
  · obtain ⟨_, d, hd, _, hwd⟩ := mem_events he
    exact ⟨d, hd, hwd⟩
  · rw [(mem_events he).1] at hflag
    cases hflag

theorem Sound.mkdir (hk : Sound root k) (h : k.mkdir parent name = some k') : Sound root k' := by
  obtain ⟨hparent, hnew, rfl⟩ := mkdir_spec h
  obtain ⟨d, hd, hpath, _⟩ := exists_of_hasDir hparent
  refine ⟨fun d' hd' => ?_, ?_,
    fun d hd d' hd' wd hwd hwd' => hk.watches d (mem_of_wd hd hwd) d' (mem_of_wd hd' hwd') wd hwd hwd',
    fun d hd wd hwd => hk.fresh d (mem_of_wd hd hwd) wd hwd⟩
  · rcases mem_append.mp hd' with hd' | hd'
    · exact hk.below d' hd'
    · rw [mem_singleton.mp hd']
      exact ((hk.below d hd).trans (hpath ▸ prefix_rfl)).trans (prefix_child _ _)
  · rw [map_append, nodup_append]
    refine ⟨hk.paths, nodup_singleton _, fun p hp q hq => ?_⟩
    rintro rfl
    obtain ⟨d, hd, rfl⟩ := mem_map.mp hp
    have hpath : d.path = child parent name := mem_singleton.mp hq
    rw [← hpath, hasDir_of_mem hd] at hnew
    cases hnew

theorem Sound.of_sublist (hk : Sound root k) {dirs : List Directory} (h : dirs.Sublist k.dirs)
    (queue : List Event) : Sound root { k with dirs, queue } :=
  ⟨fun d hd => hk.below d (h.subset hd), hk.paths.sublist (h.map _),
    fun d hd d' hd' => hk.watches d (h.subset hd) d' (h.subset hd'), fun d hd => hk.fresh d (h.subset hd)⟩

variable {flag : Flag}

theorem wd_ne_of_removed (hk : Sound root k) {e : Event}
    (he : e ∈ k.events path flag false none) (hd : d ∈ k.dirs) (hpath : d.path ≠ path) :
    d.wd ≠ some e.wd := by
  obtain ⟨_, d', hd', hpath', hwd'⟩ := mem_events he
  intro hwd
  exact hpath ((hk.watches d hd d' hd' e.wd hwd hwd') ▸ hpath')

theorem rmdir_spec (h : k.rmdir parent name = some k') :
    k.hasDir parent = true ∧ k' = { k with
      dirs := k.dirs.filter (·.path ≠ child parent name)
      queue := k.queue ++ (k.events parent .delete true (some name) ++
        k.events (child parent name) .deleteSelf false none ++
        k.events (child parent name) .ignored false none) } := by
  unfold rmdir at h
  split_ifs at h with hvalid
  simp only [Bool.and_eq_true] at hvalid
  refine ⟨hvalid.1.1, ?_⟩
  rw [← Option.some.inj h]
  simp only [remove, append_assoc]
  rfl

theorem operated_rmdir (hk : Sound root k) (h : k.rmdir parent name = some k') :
    Operated k k' (k.events parent .delete true (some name) ++ k.events (child parent name) .deleteSelf false none ++
        k.events (child parent name) .ignored false none) := by
  obtain ⟨_, rfl⟩ := rmdir_spec h
  refine ⟨rfl, rfl, fun e he => ?_, fun e he hflag d hd => ?_, fun d hd wd hwd => ?_⟩
  · simp only [mem_append] at he
    rcases he with (he | he) | he <;> obtain ⟨_, d, hd, _, hwd⟩ := mem_events he <;> exact ⟨d, hd, hwd⟩
  · simp only [mem_append] at he
    rcases he with (he | he) | he
    · rw [(mem_events he).1] at hflag
      cases hflag
    · rw [(mem_events he).1] at hflag
      cases hflag
    · exact wd_ne_of_removed hk he (mem_filter.mp hd).1 (by simpa using (mem_filter.mp hd).2)
  · exact ⟨d, (mem_filter.mp hd).1, hwd⟩

theorem rename_spec (h : k.rename parent name parent' name' = some k') :
    k.hasDir parent = true ∧ k.hasDir parent' = true ∧ k.isEmpty (child parent' name') = true ∧
      ¬child parent name <+: child parent' name' ∧ k' = { k with
        dirs := (k.dirs.filter (·.path ≠ child parent' name')).map
          (relocate (child parent name) (child parent' name'))
        queue := k.queue ++ (k.events parent .movedFrom true (some name) ++
          k.events parent' .movedTo true (some name') ++
          k.events (child parent name) .moveSelf true none ++
          k.events (child parent' name') .deleteSelf false none ++
          k.events (child parent' name') .ignored false none) } := by
  unfold rename at h
  dsimp only at h
  split_ifs at h with hvalid
  simp only [Bool.and_eq_true, decide_eq_true_eq] at hvalid
  obtain ⟨⟨⟨⟨hparent, _⟩, hparent'⟩, hempty⟩, hapart⟩ := hvalid
  refine ⟨hparent, hparent', hempty, hapart, ?_⟩
  rw [← Option.some.inj h]
  simp only [remove, append_assoc]
  rfl

theorem wd_relocate (source target : Path) (d : Directory) : (relocate source target d).wd = d.wd := by
  unfold relocate
  split_ifs <;> rfl

theorem operated_rename (hk : Sound root k) (h : k.rename parent name parent' name' = some k') :
    Operated k k' (k.events parent .movedFrom true (some name) ++
      k.events parent' .movedTo true (some name') ++ k.events (child parent name) .moveSelf true none ++
      k.events (child parent' name') .deleteSelf false none ++ k.events (child parent' name') .ignored false none) := by
  obtain ⟨_, _, _, _, rfl⟩ := rename_spec h
  refine ⟨rfl, rfl, fun e he => ?_, fun e he hflag d hd => ?_, fun d hd wd hwd => ?_⟩
  · simp only [mem_append] at he
    rcases he with (((he | he) | he) | he) | he <;> obtain ⟨_, d, hd, _, hwd⟩ := mem_events he <;>
      exact ⟨d, hd, hwd⟩
  · obtain ⟨d, hleft, rfl⟩ := mem_map.mp hd
    simp only [mem_append] at he
    rw [wd_relocate]
    rcases he with he | he
    · rcases he with ((he | he) | he) | he <;> rw [(mem_events he).1] at hflag <;> cases hflag
    · exact wd_ne_of_removed hk he (mem_filter.mp hleft).1 (by simpa using (mem_filter.mp hleft).2)
  · obtain ⟨d, hleft, rfl⟩ := mem_map.mp hd
    rw [wd_relocate] at hwd
    exact ⟨d, (mem_filter.mp hleft).1, hwd⟩

theorem path_relocate_of_le (h : source <+: d.path) :
    (relocate source target d).path = target ++ d.path.drop source.length := by
  rw [relocate, if_pos h]

theorem relocate_of_not_le (h : ¬source <+: d.path) :
    relocate source target d = d := if_neg h

/-- Different directories have different paths after a move to where there is none. -/
theorem relocate_injOn (hk : Sound root k) {d d' : Directory} (hd : d ∈ k.dirs)
    (hd' : d' ∈ k.dirs) (hfree : ¬target <+: d.path) (hfree' : ¬target <+: d'.path)
    (h : (relocate source target d).path = (relocate source target d').path) : d = d' := by
  by_cases hs : source <+: d.path <;> by_cases hs' : source <+: d'.path
  · rw [path_relocate_of_le hs, path_relocate_of_le hs'] at h
    obtain ⟨r, hr⟩ := hs
    obtain ⟨r', hr'⟩ := hs'
    rw [← hr, ← hr', drop_left, drop_left] at h
    exact hk.eq_of_path hd hd' (by rw [← hr, ← hr', append_cancel_left h])
  · rw [path_relocate_of_le hs, relocate_of_not_le hs'] at h
    exact absurd ⟨_, h⟩ hfree'
  · rw [relocate_of_not_le hs, path_relocate_of_le hs'] at h
    exact absurd ⟨_, h.symm⟩ hfree
  · rw [relocate_of_not_le hs, relocate_of_not_le hs'] at h
    exact hk.eq_of_path hd hd' h

theorem Sound.rmdir (hk : Sound root k) (h : k.rmdir parent name = some k') : Sound root k' := by
  obtain ⟨_, rfl⟩ := rmdir_spec h
  exact hk.of_sublist filter_sublist _

theorem Sound.rename (hk : Sound root k) (h : k.rename parent name parent' name' = some k') : Sound root k' := by
  obtain ⟨_, hparent', hempty, _, rfl⟩ := rename_spec h
  obtain ⟨above, habove, hpath, _⟩ := exists_of_hasDir hparent'
  have hleft : ∀ d ∈ k.dirs.filter (·.path ≠ child parent' name'),
      d ∈ k.dirs ∧ ¬child parent' name' <+: d.path := by
    intro d hd
    obtain ⟨hd, hne⟩ := mem_filter.mp hd
    refine ⟨hd, fun hle => ?_⟩
    have := all_eq_true.mp hempty d hd
    simp only [decide_eq_true_eq] at this hne
    exact hne (this hle)
  refine ⟨fun d hd => ?_, ?_, fun d hd d' hd' wd hwd hwd' => ?_, fun d hd wd hwd => ?_⟩
  · obtain ⟨old, hold, rfl⟩ := mem_map.mp hd
    by_cases hs : child parent name <+: old.path
    · rw [path_relocate_of_le hs]
      exact (((hk.below above habove).trans (hpath ▸ prefix_rfl)).trans (prefix_child _ _)).trans
        (prefix_append _ _)
    · rw [relocate_of_not_le hs]
      exact hk.below old (hleft old hold).1
  · rw [map_map]
    refine Nodup.map_on (fun d hd d' hd' heq => ?_) ((Nodup.of_map _ hk.paths).sublist filter_sublist)
    exact relocate_injOn hk (hleft d hd).1 (hleft d' hd').1 (hleft d hd).2 (hleft d' hd').2 heq
  · obtain ⟨old, hold, rfl⟩ := mem_map.mp hd
    obtain ⟨old', hold', rfl⟩ := mem_map.mp hd'
    rw [wd_relocate] at hwd hwd'
    rw [hk.watches old (hleft old hold).1 old' (hleft old' hold').1 wd hwd hwd']
  · obtain ⟨old, hold, rfl⟩ := mem_map.mp hd
    rw [wd_relocate] at hwd
    exact hk.fresh old (hleft old hold).1 wd hwd

variable (h : k.change path flag name = some k')
include h

theorem change_spec :
    k.hasDir path = true ∧ flag.isChange = true ∧
      k' = { k with queue := k.queue ++ k.events path flag false (some name) } := by
  unfold change at h
  split_ifs at h with hvalid
  simp only [Bool.and_eq_true] at hvalid
  exact ⟨hvalid.1, hvalid.2, (Option.some.inj h).symm⟩

theorem operated_change :
    Operated k k' (k.events path flag false (some name)) := by
  obtain ⟨_, hflag, rfl⟩ := change_spec h
  refine ⟨rfl, rfl, fun e he => ?_, fun e he hignored => ?_, fun d hd wd hwd => ⟨d, hd, hwd⟩⟩
  · obtain ⟨_, d, hd, _, hwd⟩ := mem_events he
    exact ⟨d, hd, hwd⟩
  · rw [← (mem_events he).1, hignored] at hflag
    cases hflag

end Operations

variable {wd : ℕ}

theorem addWatch_spec (h : k.addWatch path = some (wd, k')) :
    ∃ d ∈ k.dirs, d.path = path ∧ (d.wd = some wd ∧ k' = k ∨ d.wd = none ∧ wd = k.nextWd ∧ k' = { k with
        nextWd := k.nextWd + 1
        dirs := k.dirs.map fun d => if d.path = path then { d with wd := some k.nextWd } else d }) := by
  unfold addWatch at h
  split_ifs at h with hdir
  obtain ⟨d, hd, hpath, hwd⟩ := exists_of_hasDir hdir
  refine ⟨d, hd, hpath, ?_⟩
  rw [← hwd]
  split at h
  next wd' heq =>
    cases h
    exact .inl ⟨heq, rfl⟩
  next heq =>
    cases h
    exact .inr ⟨heq, rfl, rfl⟩

/-- What a watch at a path changes: the directory there has it, and no other directory is different. -/
structure Watched (k k' : Kernel) (path : Path) (wd : ℕ) : Prop where
  queue : k'.queue = k.queue
  nextWd : k.nextWd ≤ k'.nextWd
  found : ∃ d ∈ k.dirs, d.path = path
  installed : ∃ d ∈ k'.dirs, d.wd = some wd ∧ d.path = path
  dirs : ∀ d ∈ k'.dirs, d.wd = some wd ∧ d.path = path ∨ d ∈ k.dirs ∧ d.wd ≠ some wd
  kept : ∀ d ∈ k.dirs, ∀ wd', d.wd = some wd' → d ∈ k'.dirs
  wds : ∀ d ∈ k'.dirs, ∀ wd', d.wd = some wd' → wd' < k.nextWd → ∃ d ∈ k.dirs, d.wd = some wd'

theorem watched_addWatch (hk : Sound root k) (h : k.addWatch path = some (wd, k')) :
    Watched k k' path wd := by
  obtain ⟨d₀, hd₀, rfl, ⟨hwd₀, rfl⟩ | ⟨hwd₀, rfl, rfl⟩⟩ := addWatch_spec h
  · refine ⟨rfl, le_rfl, ⟨d₀, hd₀, rfl⟩, ⟨d₀, hd₀, hwd₀, rfl⟩, fun d hd => ?_, fun d hd _ _ => hd,
      fun d hd wd' hwd' _ => ⟨d, hd, hwd'⟩⟩
    by_cases hwd : d.wd = some wd
    · rw [hk.watches d hd d₀ hd₀ wd hwd hwd₀]
      exact .inl ⟨hwd₀, rfl⟩
    · exact .inr ⟨hd, hwd⟩
  · refine ⟨rfl, Nat.le_succ _, ⟨d₀, hd₀, rfl⟩, ⟨_, mem_map.mpr ⟨d₀, hd₀, if_pos rfl⟩, rfl, rfl⟩,
      fun d hd => ?_, fun d hd wd' hwd' => ?_, fun d hd wd' hwd' hlt => ?_⟩
    · obtain ⟨old, hold, rfl⟩ := mem_map.mp hd
      split_ifs with hpath
      · exact .inl ⟨rfl, hpath⟩
      · exact .inr ⟨hold, fun hwd => lt_irrefl _ (hk.fresh old hold _ hwd)⟩
    · refine mem_map.mpr ⟨d, hd, if_neg fun hpath => ?_⟩
      rw [hk.eq_of_path hd hd₀ hpath, hwd₀] at hwd'
      cases hwd'
    · obtain ⟨old, hold, rfl⟩ := mem_map.mp hd
      split_ifs at hwd'
      · cases hwd'
        exact absurd hlt (lt_irrefl _)
      · exact ⟨old, hold, hwd'⟩

theorem Sound.addWatch (hk : Sound root k) (h : k.addWatch path = some (wd, k')) : Sound root k' := by
  obtain ⟨d₀, hd₀, hpath₀, ⟨_, rfl⟩ | ⟨_, _, rfl⟩⟩ := addWatch_spec h
  · exact hk
  have hold : ∀ d ∈ k.dirs, ∀ wd, d.wd = some wd → wd ≠ k.nextWd :=
    fun d hd wd hwd => (hk.fresh d hd wd hwd).ne
  refine ⟨fun d hd => ?_, ?_, fun d hd d' hd' wd hwd hwd' => ?_, fun d hd wd hwd => ?_⟩
  · obtain ⟨old, hmem, rfl⟩ := mem_map.mp hd
    split_ifs <;> exact hk.below old hmem
  · rw [map_map, map_congr_left fun d _ => by
      show (if d.path = path then { d with wd := some k.nextWd } else d).path = d.path
      split_ifs <;> rfl]
    exact hk.paths
  · obtain ⟨old, hmem, rfl⟩ := mem_map.mp hd
    obtain ⟨old', hmem', rfl⟩ := mem_map.mp hd'
    split_ifs at hwd hwd' ⊢ with hp hp' hp'
    · rw [hk.eq_of_path hmem hmem' (hp.trans hp'.symm)]
    · cases hwd
      exact absurd rfl (hold old' hmem' _ hwd')
    · cases hwd'
      exact absurd rfl (hold old hmem _ hwd)
    · exact hk.watches old hmem old' hmem' wd hwd hwd'
  · obtain ⟨old, hmem, rfl⟩ := mem_map.mp hd
    show wd < k.nextWd + 1
    split_ifs at hwd
    · cases hwd
      omega
    · have := hk.fresh old hmem wd hwd
      omega

theorem mem_removeWatches {gone : ℕ → Bool} {d' : Directory} (h : d' ∈ (k.removeWatches gone).dirs) :
    ∃ d ∈ k.dirs, d'.path = d.path ∧ ∀ wd, d'.wd = some wd ↔ d.wd = some wd ∧ gone wd = false := by
  obtain ⟨d, hd, rfl⟩ := mem_map.mp h
  refine ⟨d, hd, by split_ifs <;> rfl, fun wd => ?_⟩
  split_ifs with hgone
  · refine ⟨nofun, fun ⟨hwd, hkept⟩ => ?_⟩
    rw [hwd, Option.any_some, hkept] at hgone
    cases hgone
  · refine ⟨fun hwd => ⟨hwd, ?_⟩, (·.1)⟩
    rwa [hwd, Bool.not_eq_true] at hgone

theorem Sound.removeWatches (hk : Sound root k) (gone : ℕ → Bool) : Sound root (k.removeWatches gone) := by
  refine ⟨fun d' hd' => ?_, ?_, fun d₁ hd₁ d₂ hd₂ wd hwd₁ hwd₂ => ?_, fun d' hd' wd hwd => ?_⟩
  · obtain ⟨d, hd, hpath, _⟩ := mem_removeWatches hd'
    exact hpath ▸ hk.below d hd
  · have hpaths : (k.removeWatches gone).dirs.map (·.path) = k.dirs.map (·.path) := by
      unfold Kernel.removeWatches
      rw [map_map]
      refine map_congr_left fun d _ => ?_
      show (if d.wd.any gone then { d with wd := none } else d).path = d.path
      split_ifs <;> rfl
    rw [hpaths]
    exact hk.paths
  · obtain ⟨old₁, hmem₁, rfl⟩ := mem_map.mp hd₁
    obtain ⟨old₂, hmem₂, rfl⟩ := mem_map.mp hd₂
    split_ifs at hwd₁ hwd₂
    rw [hk.watches old₁ hmem₁ old₂ hmem₂ wd hwd₁ hwd₂]
  · obtain ⟨d, hd, _, hwds⟩ := mem_removeWatches hd'
    exact hk.fresh d hd wd ((hwds wd).mp hwd).1

end Kernel

end Wings.Filesystem.Inotify
