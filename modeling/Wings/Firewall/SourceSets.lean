import Wings.Firewall.Effect

/-!
# Wings.Firewall.SourceSets — what the sets of source files hold

Rules with a source file match on a set of the kernel that `sync` fills from the file, and a recorded fingerprint
saves loading it again.

* **`source_sets_hold_files`**
-/

namespace Wings.Firewall.Nftables

open Lib Server Filesystem List AList

/-! ## What a script leaves of a set -/

def Table.set (t : Table) (n : SetName) : Option (List IpCidr) := t.sets.lookup n

/-- The effect of a command that works on one set. -/
def setAfter (n : SetName) (o : Option (List IpCidr)) : Command → Option (List IpCidr)
  | .deleteTable => none
  | .addSet n' => if n' = n then some (o.getD []) else o
  | .flushSet n' => if n' = n then some [] else o
  | .addElement n' entries => if n' = n then o.map (· ++ entries) else o
  | .deleteSet n' => if n' = n then none else o
  | _ => o

variable {t : Table} (n : SetName) {t' : Table}

theorem set_run {cmd : Command} (h : t.run cmd = some t') (n : SetName) :
    t'.set n = setAfter n (t.set n) cmd := by
  cases cmd with
  | addSet n' =>
    obtain rfl := Option.some.inj h
    simp only [Table.set, setAfter]
    by_cases hn : n' = n
    · subst hn
      split_ifs with hmem <;> cases hl : t.sets.lookup n' <;> simp_all [← lookup_isSome]
    · split_ifs
      · rfl
      · exact lookup_insert_ne (Ne.symm hn)
  | flushSet n' =>
    simp only [Table.run] at h
    split_ifs at h
    cases h
    simp only [Table.set, setAfter]
    split_ifs with hn
    · rw [hn, lookup_insert]
    · exact lookup_insert_ne (Ne.symm hn)
  | addElement n' entries =>
    simp only [Table.run] at h
    split at h <;> cases h
    rename_i old hl
    simp only [Table.set, setAfter]
    split_ifs with hn
    · rw [← hn, lookup_insert, hl, Option.map_some]
    · exact lookup_insert_ne (Ne.symm hn)
  | deleteSet n' =>
    cases h
    simp only [Table.set, setAfter]
    split_ifs with hn
    · rw [hn, lookup_erase]
    · exact lookup_erase_ne (Ne.symm hn)
  | _ => cases h; rfl

variable {cmds : List Command}

theorem set_script (h : t.script cmds = some t') (n : SetName) :
    t'.set n = cmds.foldl (setAfter n) (t.set n) := by
  induction cmds generalizing t with
  | nil => cases h; rfl
  | cons cmd cmds ih =>
    obtain ⟨t₁, hrun, hrest⟩ := Option.bind_eq_some_iff.mp h
    rw [foldl_cons, ← set_run hrun n]
    exact ih hrest

variable (o : Option (List IpCidr)) (base : SetBase)

theorem foldl_setDeclaration :
    (setDeclaration base).foldl (setAfter n) o = if n.base = base then some (o.getD []) else o := by
  obtain ⟨b, family⟩ := n
  by_cases hb : b = base
  · cases family <;> simp [setDeclaration, setNames, setAfter, hb]
  · simp [setDeclaration, setNames, setAfter, hb, Ne.symm hb]

theorem foldl_setDeclarations (bases : List SetBase) :
    (bases.flatMap setDeclaration).foldl (setAfter n) o = if n.base ∈ bases then some (o.getD []) else o := by
  induction bases generalizing o with
  | nil => rfl
  | cons base bases ih =>
    rw [flatMap_cons, foldl_append, foldl_setDeclaration, ih]
    by_cases hb : n.base = base <;> simp [hb]

theorem foldl_flushSets :
    (flushSets base).foldl (setAfter n) o = if n.base = base then some [] else o := by
  obtain ⟨b, family⟩ := n
  by_cases hb : b = base
  · cases family <;> simp [flushSets, setNames, setAfter, hb]
  · simp [flushSets, setNames, setAfter, hb, Ne.symm hb]

theorem foldl_writeElements (entries : List IpCidr) : (writeElements base entries).foldl (setAfter n) o =
      if n.base = base then o.map (· ++ entries.filter (·.family = n.family)) else o := by
  -- a family without entries has no command, which is as good as adding none
  have hstep : ∀ (n' : SetName) (o : Option (List IpCidr)),
      (if entries.filter (·.family = n'.family) = [] then none
          else some (Command.addElement n' (entries.filter (·.family = n'.family)))).toList.foldl
        (setAfter n) o = if n' = n then o.map (· ++ entries.filter (·.family = n'.family)) else o := by
    intro n' o
    by_cases hnil : entries.filter (·.family = n'.family) = []
    · simp [hnil]
    · rw [if_neg hnil]
      rfl
  obtain ⟨b, family⟩ := n
  rw [writeElements, filterMap_eq_flatMap_toList, foldl_flatMap]
  simp only [hstep, setNames, foldl_cons, foldl_nil]
  by_cases hb : b = base
  · cases family <;> simp [hb]
  · simp [hb, Ne.symm hb]

theorem foldl_chainCommands_set (cmds : List (ChainCommand ChainName KernelRule)) :
    (cmds.map Command.chain).foldl (setAfter n) o = o := by
  induction cmds with
  | nil => rfl
  | cons cmd cmds ih => exact ih

theorem foldl_deleteSets (names : List SetName) :
    (names.map Command.deleteSet).foldl (setAfter n) o = if n ∈ names then none else o := by
  induction names generalizing o with
  | nil => rfl
  | cons n' names ih =>
    rw [map_cons, foldl_cons, ih]
    by_cases hn : n' = n
    · simp [hn, setAfter]
    · simp [hn, Ne.symm hn, setAfter]

/-! ## What the commands do to the sets -/

/-- Both sets of a name are in the kernel. -/
def Declared (t : Table) (base : SetBase) : Prop := ∀ family, (t.set ⟨base, family⟩).isSome = true

/-- Both sets of a name hold the entries of their family. -/
def Holds (t : Table) (base : SetBase) (entries : List IpCidr) : Prop :=
  ∀ family, t.set ⟨base, family⟩ = some (entries.filter (·.family = family))

/-- Sets of this name are as they were. -/
def Kept (base : SetBase) (t t' : Table) : Prop := ∀ family, t'.set ⟨base, family⟩ = t.set ⟨base, family⟩

variable {base : SetBase} {entries : List IpCidr}

theorem Kept.holds (h : Kept base t t')
    (ht : Holds t base entries) : Holds t' base entries := fun family => (h family).trans (ht family)

theorem Kept.declared (h : Kept base t t') (ht : Declared t base) :
    Declared t' base := fun family => by rw [h family]; exact ht family

theorem Kept.trans {t' t'' : Table} (h : Kept base t t') (h' : Kept base t' t'') :
    Kept base t t'' := fun family => (h' family).trans (h family)

theorem Holds.declared (h : Holds t base entries) : Declared t base := fun family => by rw [h family]; rfl

theorem declareSets_spec {f : Faults} (hf : f.declare = false) (bases : List SetBase) (t : Table) :
    ∃ t', declareSets f bases t = some t' ∧ (∀ base ∈ bases, Declared t' base) ∧
      ∀ base, Declared t base → Kept base t t' := by
  unfold declareSets
  by_cases hnil : bases = []
  · exact ⟨t, if_pos hnil, by simp [hnil], fun _ _ _ => rfl⟩
  · have htotal : ((.addTable :: bases.flatMap setDeclaration).all Command.total) = true := by
      simp [setDeclaration, setNames, Command.total]
    obtain ⟨t', ht'⟩ := Option.isSome_iff_exists.mp (script_isSome htotal)
    have hset : ∀ n, t'.set n = if n.base ∈ bases then some ((t.set n).getD []) else t.set n := by
      intro n
      rw [set_script ht', foldl_cons, foldl_setDeclarations]
      rfl
    refine ⟨t', by simp [hnil, hf, ht'], fun base hbase family => ?_, fun base hbase family => ?_⟩
    · rw [hset, if_pos hbase]
      rfl
    · obtain ⟨entries, hentries⟩ := Option.isSome_iff_exists.mp (hbase family)
      rw [hset, hentries]
      split_ifs <;> rfl

theorem script_isSome_of_declared (ht : Declared t base)
    (h : ∀ cmd ∈ cmds, ∃ family, cmd = .flushSet ⟨base, family⟩ ∨
      ∃ entries, cmd = .addElement ⟨base, family⟩ entries) : (t.script cmds).isSome := by
  induction cmds generalizing t with
  | nil => rfl
  | cons cmd cmds ih =>
    have hrun : ∃ t', t.run cmd = some t' := by
      obtain ⟨family, rfl | ⟨entries, rfl⟩⟩ := h cmd mem_cons_self
      · exact ⟨_, if_pos (lookup_isSome.mp (ht family))⟩
      · obtain ⟨old, hold⟩ := Option.isSome_iff_exists.mp (ht family)
        exact ⟨_, by rw [Table.run, show t.sets.lookup ⟨base, family⟩ = some old from hold]⟩
    obtain ⟨t', ht'⟩ := hrun
    rw [Table.script, foldlM_cons, ht']
    refine ih (fun family => ?_) fun cmd' hcmd' => h cmd' (mem_cons_of_mem _ hcmd')
    obtain ⟨old, hold⟩ := Option.isSome_iff_exists.mp (ht family)
    rw [set_run ht', hold]
    obtain ⟨family', rfl | ⟨entries, rfl⟩⟩ := h cmd mem_cons_self <;> simp only [setAfter] <;>
      split_ifs <;> rfl

theorem loadFile_spec {limits : SourceFileLimits} {f : Faults} {load : PendingLoad} (hf : f.load load.path = .none)
    (hparse : streamSourceFile limits load.file = .ok entries) (ht : Declared t load.set) :
    ∃ t', loadFile limits f load t = (.ok (), t') ∧ Holds t' load.set entries ∧
      ∀ base, base ≠ load.set → Kept base t t' := by
  have hcmds : ∀ cmd ∈ flushSets load.set ++ writeElements load.set entries,
      ∃ family, cmd = .flushSet ⟨load.set, family⟩ ∨ ∃ entries, cmd = .addElement ⟨load.set, family⟩ entries := by
    intro cmd hcmd
    rcases mem_append.mp hcmd with hcmd | hcmd
    · simp only [flushSets, setNames, map_cons, map_nil, mem_cons, not_mem_nil, or_false] at hcmd
      rcases hcmd with rfl | rfl
      exacts [⟨.v4, .inl rfl⟩, ⟨.v6, .inl rfl⟩]
    · simp only [writeElements, setNames, mem_filterMap, mem_cons, not_mem_nil, or_false] at hcmd
      obtain ⟨n, hn, hcmd⟩ := hcmd
      split_ifs at hcmd
      cases hcmd
      rcases hn with rfl | rfl
      exacts [⟨.v4, .inr ⟨_, rfl⟩⟩, ⟨.v6, .inr ⟨_, rfl⟩⟩]
  obtain ⟨t', ht'⟩ := Option.isSome_iff_exists.mp (script_isSome_of_declared ht hcmds)
  refine ⟨t', by simp only [loadFile, hparse, hf, commit, ht'], fun family => ?_, fun base hbase family => ?_⟩
  · rw [set_script ht', foldl_append, foldl_flushSets, if_pos rfl, foldl_writeElements, if_pos rfl,
      Option.map_some, nil_append]
  · rw [set_script ht', foldl_append, foldl_flushSets, if_neg hbase, foldl_writeElements, if_neg hbase]

variable {servers : Rules}

theorem entries_ne_nil_of_needed (h : base ∈ neededSets servers) : servers.entries ≠ [] := by
  intro hnil
  simp [neededSets, hnil] at h

theorem mem_neededSets :
    base ∈ neededSets servers ↔ ∃ s rs, servers.lookup s = some rs ∧ base ∈ setsOf rs := by
  simp only [neededSets, mem_dedup, mem_flatMap]
  constructor
  · rintro ⟨⟨s, rs⟩, he, hbase⟩
    exact ⟨s, rs, mem_lookup_iff.mpr he, hbase⟩
  · rintro ⟨s, rs, he, hbase⟩
    exact ⟨⟨s, rs⟩, mem_lookup_iff.mp he, hbase⟩

theorem apply_keeps (exempt : List IpCidr) (f : Faults)
    (hbase : base ∈ neededSets servers) (ht : Declared t base) : Kept base t (apply exempt f servers t).2 := by
  have hne := entries_ne_nil_of_needed hbase
  unfold apply
  cases hf : f.apply with
  | true => exact fun _ => rfl
  | false =>
    obtain ⟨t', ht'⟩ := Option.isSome_iff_exists.mp (renderRuleset_isSome servers exempt
      (staleChains servers (if f.list then [] else t.chains.keys)) t)
    have hruleset : Kept base t t' := by
      intro family
      obtain ⟨entries, hentries⟩ := Option.isSome_iff_exists.mp (ht family)
      rw [set_script ht', hentries]
      simp only [renderRuleset, if_neg hne, foldl_cons, foldl_append, foldl_nil,
        foldl_chainCommands_set, foldl_setDeclarations, if_pos hbase]
      rfl
    simp only [Bool.false_eq_true, if_false, ht', if_neg hne]
    split_ifs
    · exact hruleset
    all_goals
      cases horphans : t'.script ((orphanSets servers _).map .deleteSet) with
      | none => exact hruleset
      | some t'' =>
        refine hruleset.trans fun family => ?_
        rw [Option.getD_some, set_script horphans, foldl_deleteSets]
        simp [orphanSets, hbase]

/-! ## Loading the pending files -/

section Loads

variable {limits : SourceFileLimits} {disk : Disk} {f : Faults} {set : Subpath → SetBase} {files : ServerSourceFiles}
  {wanted : List Subpath}

/-- The recorded file is in its set, with the fingerprint it has on the disk. -/
def Loaded (limits : SourceFileLimits) (disk : Disk) (t : Table) (state : SourceFileState) : Prop :=
  ∃ file entries, disk state.path = some file ∧ streamSourceFile limits file = .ok entries ∧
    Holds t state.set entries ∧ state.fingerprint = some file.fingerprint

variable {state : SourceFileState} {t : Table}

theorem Loaded.declared (h : Loaded limits disk t state) : Declared t state.set := by
  obtain ⟨_, _, _, _, hholds, _⟩ := h
  exact hholds.declared

theorem Loaded.kept {t t' : Table} (h : Loaded limits disk t state)
    (hkept : Kept state.set t t') : Loaded limits disk t' state := by
  obtain ⟨file, entries, hdisk, hparse, hholds, hfp⟩ := h
  exact ⟨file, entries, hdisk, hparse, hkept.holds hholds, hfp⟩

/-- A wanted file, recorded with its set. -/
def Known (set : Subpath → SetBase) (wanted : List Subpath) (state : SourceFileState) :
    Prop := state.path ∈ wanted ∧ state.set = set state.path

/-- A load that will work. -/
structure Loadable (limits : SourceFileLimits) (disk : Disk) (set : Subpath → SetBase)
    (wanted : List Subpath) (t : Table) (load : PendingLoad) : Prop where
  path : load.path ∈ wanted
  file : disk load.path = some load.file
  parses : ∃ entries, streamSourceFile limits load.file = .ok entries
  name : load.set = set load.path
  declared : Declared t load.set

def loadStep (limits : SourceFileLimits) (f : Faults) (acc : ServerSourceFiles × Table)
    (load : PendingLoad) : ServerSourceFiles × Table :=
  (ServerSourceFiles.record acc.1 load (loadFile limits f load acc.2).1, (loadFile limits f load acc.2).2)

theorem mem_record {load : PendingLoad} (h : state ∈ files.record load (.ok ())) : ∃ old ∈ files,
      old.path = load.path ∧ state = { old with fingerprint := some load.file.fingerprint } ∨
      old.path ≠ load.path ∧ state = old := by
  obtain ⟨old, hold, rfl⟩ := mem_map.mp h
  refine ⟨old, hold, ?_⟩
  split_ifs with hpath
  · exact .inl ⟨hpath, rfl⟩
  · exact .inr ⟨hpath, rfl⟩

/-- The rounds one after another: every recorded file ends up in its set, and other sets are kept. -/
theorem foldl_loadStep (hf : ∀ path, f.load path = .none)
    (hinj : ∀ p ∈ wanted, ∀ p' ∈ wanted, set p = set p' → p = p') (loads : List PendingLoad)
    (hloads : ∀ load ∈ loads, Loadable limits disk set wanted t load) (hknown : ∀ state ∈ files, Known set wanted state)
    (hfiles : ∀ state ∈ files, Loaded limits disk t state ∨ ∃ load ∈ loads, load.path = state.path) :
    let res := loads.foldl (loadStep limits f) (files, t)
    (∀ state ∈ res.1, Loaded limits disk res.2 state ∧ Known set wanted state) ∧
      res.1.map (·.path) = files.map (·.path) ∧
      ∀ base, (∀ load ∈ loads, load.set ≠ base) → Kept base t res.2 := by
  induction loads generalizing files t with
  | nil =>
    refine ⟨fun state hstate => ⟨?_, hknown state hstate⟩, rfl, fun _ _ _ => rfl⟩
    exact (hfiles state hstate).resolve_right (by simp)
  | cons load loads ih =>
    have hload := hloads load mem_cons_self
    obtain ⟨entries, hparse⟩ := hload.parses
    obtain ⟨t', ht', hholds, hkept⟩ := loadFile_spec (hf load.path) hparse hload.declared
    have hstep : loadStep limits f (files, t) load = (files.record load (.ok ()), t') := by
      rw [loadStep, ht']
    have hpaths : (files.record load (.ok ())).map (·.path) = files.map (·.path) := by
      rw [ServerSourceFiles.record, map_map]
      refine map_congr_left fun state _ => ?_
      dsimp only [Function.comp]
      split_ifs <;> rfl
    have ih := @ih (files.record load (.ok ())) t' ?_ ?_ ?_
    · rw [foldl_cons, hstep]
      refine ⟨ih.1, ih.2.1.trans hpaths, fun base hbase => ?_⟩
      exact (hkept base (hbase load mem_cons_self).symm).trans
        (ih.2.2 base fun load' hload' => hbase load' (mem_cons_of_mem _ hload'))
    · -- the other loads: their sets are still there
      intro load' hload'
      obtain ⟨hpath, hfile, hparses, hname, hdeclared⟩ := hloads load' (mem_cons_of_mem _ hload')
      refine ⟨hpath, hfile, hparses, hname, ?_⟩
      by_cases hsame : load'.set = load.set
      · rw [hsame]
        exact hholds.declared
      · exact (hkept _ hsame).declared hdeclared
    · intro state hstate
      obtain ⟨old, hold, ⟨_, rfl⟩ | ⟨_, rfl⟩⟩ := mem_record hstate
      exacts [hknown old hold, hknown state hold]
    · intro state hstate
      obtain ⟨old, hold, ⟨hpath, rfl⟩ | ⟨hpath, rfl⟩⟩ := mem_record hstate
      · -- the file that was loaded
        refine .inl ⟨load.file, entries, by rw [← hload.file, ← hpath], hparse, ?_, rfl⟩
        rw [(hknown old hold).2, hpath, ← hload.name]
        exact hholds
      · rcases hfiles state hold with hloaded | ⟨load', hload', hpath'⟩
        · -- a file that was loaded before, in a set of its own
          refine .inl (hloaded.kept (hkept _ fun hsame => hpath ?_))
          rw [(hknown state hold).2, hload.name] at hsame
          exact hinj _ (hknown state hold).1 _ hload.path hsame
        · rcases mem_cons.mp hload' with rfl | hload'
          · exact absurd hpath'.symm hpath
          · exact .inr ⟨load', hload', hpath'⟩

theorem mem_update (h : state ∈ files.update wanted set) : state ∈ files ∧ state.path ∈ wanted ∨
      ∃ path ∈ wanted, state = ⟨path, set path, none⟩ := by
  rcases mem_append.mp h with h | h
  · exact .inl (by simpa using h)
  · obtain ⟨path, hpath, rfl⟩ := mem_map.mp h
    exact .inr ⟨path, (mem_filter.mp hpath).1, rfl⟩

theorem exists_mem_update (set : Subpath → SetBase) (files : ServerSourceFiles)
    {path : Subpath} (h : path ∈ wanted) : path ∈ (files.update wanted set).map (·.path) := by
  by_cases hold : ∃ state ∈ files, state.path = path
  · obtain ⟨state, hstate, rfl⟩ := hold
    exact mem_map_of_mem (mem_append_left _ (mem_filter.mpr ⟨hstate, by simpa using h⟩))
  · refine mem_map.mpr ⟨⟨path, set path, none⟩, mem_append_right _ (mem_map.mpr
      ⟨path, mem_filter.mpr ⟨h, by simpa using hold⟩, rfl⟩), rfl⟩

variable (exempt : List IpCidr)

/-- After `load_changed` all the wanted files are in their sets, and other sets are kept. -/
theorem loadChanged_loaded (hf : ∀ path, f.load path = .none)
    (hinj : ∀ p ∈ wanted, ∀ p' ∈ wanted, set p = set p' → p = p')
    (hparses : ∀ path ∈ wanted, ∃ file entries, disk path = some file ∧ streamSourceFile limits file = .ok entries)
    (hdeclared : ∀ path ∈ wanted, Declared t (set path))
    (hfiles : ∀ state ∈ files, Loaded limits disk t state ∧ state.set = set state.path) :
    let res := loadChanged (nftables limits exempt) f disk (files.update wanted set) t
    (∀ state ∈ res.1, Loaded limits disk res.2 state ∧ Known set wanted state) ∧
      (∀ path ∈ wanted, ∃ state ∈ res.1, state.path = path) ∧
      ∀ base, (∀ path ∈ wanted, set path ≠ base) → Kept base t res.2 := by
  have hknown : ∀ state ∈ files.update wanted set, Known set wanted state := by
    intro state hstate
    rcases mem_update hstate with ⟨hstate, hpath⟩ | ⟨path, hpath, rfl⟩
    · exact ⟨hpath, (hfiles state hstate).2⟩
    · exact ⟨hpath, rfl⟩
  have hclear : (files.update wanted set).clearMissing disk = files.update wanted set := by
    refine (map_congr_left fun state hstate => ?_).trans (map_id _)
    obtain ⟨file, _, hdisk, _⟩ := hparses _ (hknown state hstate).1
    rw [hdisk]
    rfl
  have hpending : ∀ load ∈ (files.update wanted set).pending disk,
      Loadable limits disk set wanted t load := by
    intro load hload
    obtain ⟨state, hstate, hload⟩ := mem_filterMap.mp hload
    obtain ⟨hpath, hset⟩ := hknown state hstate
    obtain ⟨file, entries, hdisk, hparse⟩ := hparses _ hpath
    rw [hdisk] at hload
    dsimp only at hload
    split_ifs at hload
    cases hload
    exact ⟨hpath, hdisk, ⟨entries, hparse⟩, hset, hset ▸ hdeclared _ hpath⟩
  have hstart : ∀ state ∈ files.update wanted set, Loaded limits disk t state ∨
      ∃ load ∈ (files.update wanted set).pending disk, load.path = state.path := by
    intro state hstate
    rcases mem_update hstate with ⟨hold, _⟩ | ⟨path, hpath, rfl⟩
    · exact .inl (hfiles state hold).1
    · obtain ⟨file, entries, hdisk, hparse⟩ := hparses _ hpath
      exact .inr ⟨⟨path, set path, file⟩, mem_filterMap.mpr ⟨_, hstate, by simp [hdisk]⟩, rfl⟩
  obtain ⟨hloaded, hpaths, hkept⟩ := foldl_loadStep hf hinj _ hpending hknown hstart
  have hres : loadChanged (nftables limits exempt) f disk (files.update wanted set) t =
      ((files.update wanted set).pending disk).foldl (loadStep limits f) (files.update wanted set, t) := by
    rw [loadChanged, hclear]
    rfl
  rw [hres]
  refine ⟨hloaded, fun path hpath => ?_, fun base hbase => hkept base fun load hload => ?_⟩
  · have hmem := exists_mem_update set files hpath
    rw [← hpaths] at hmem
    exact mem_map.mp hmem
  · rw [(hpending load hload).name]
    exact hbase _ (hpending load hload).path

/-- What `sync_files` does for a server whose files can all be loaded. -/
structure FilesSynced (digest : Subpath → BitVec 32) (limits : SourceFileLimits) (disk : Disk)
    (spec : Spec) (st st' : State Table) : Prop where
  loaded : ∀ files, st'.files.lookup spec.server = some files → ∀ state ∈ files,
    Loaded limits disk st'.kernel state ∧ Known (setBaseName digest spec.server) (referencedFiles spec) state
  covered : ∀ path ∈ referencedFiles spec,
    ∃ files, st'.files.lookup spec.server = some files ∧ ∃ state ∈ files, state.path = path
  others : ∀ s, s ≠ spec.server → st'.files.lookup s = st.files.lookup s
  kept : ∀ base, (∀ path ∈ referencedFiles spec, setBaseName digest spec.server path ≠ base) →
    Kept base st.kernel st'.kernel

theorem filesSynced_syncFiles {digest : Subpath → BitVec 32} {spec : Spec} {st : State Table}
    (hf : ∀ path, f.load path = .none) (hparses : ∀ path ∈ referencedFiles spec, ∃ file entries, disk path = some file ∧
      streamSourceFile limits file = .ok entries)
    (haccess : referencedFiles spec = [] ∨ spec.files = true ∨ spec.server ∈ st.files)
    (hinj : ∀ p ∈ referencedFiles spec, ∀ p' ∈ referencedFiles spec, digest p = digest p' → p = p')
    (hdeclared : ∀ path ∈ referencedFiles spec, Declared st.kernel (setBaseName digest spec.server path))
    (hfiles : ∀ files, st.files.lookup spec.server = some files → ∀ state ∈ files,
      Loaded limits disk st.kernel state ∧ state.set = setBaseName digest spec.server state.path) :
    FilesSynced digest limits disk spec st (syncFiles digest (nftables limits exempt) f disk spec st) := by
  unfold syncFiles
  by_cases hnil : referencedFiles spec = []
  · rw [if_pos hnil]
    refine ⟨fun files hlookup => ?_, by simp [hnil], fun s hs => lookup_erase_ne hs, fun _ _ _ => rfl⟩
    rw [lookup_erase] at hlookup
    cases hlookup
  have hgo : ¬(st.files.lookup spec.server = none ∧ spec.files = false) := by
    rintro ⟨hnone, hno⟩
    rcases haccess with h | h | h
    · exact hnil h
    · rw [hno] at h
      cases h
    · exact lookup_eq_none.mp hnone h
  rw [if_neg hnil, if_neg hgo, if_pos (show (nftables limits exempt).setsAvailable = true from rfl)]
  have hinj' : ∀ p ∈ referencedFiles spec, ∀ p' ∈ referencedFiles spec,
      setBaseName digest spec.server p = setBaseName digest spec.server p' → p = p' :=
    fun p hp p' hp' h => hinj p hp p' hp' (SetBase.mk.inj h).2
  have hold : ∀ state ∈ (st.files.lookup spec.server).getD [],
      Loaded limits disk st.kernel state ∧ state.set = setBaseName digest spec.server state.path := by
    cases hl : st.files.lookup spec.server with
    | none => simp
    | some files => exact hfiles files hl
  obtain ⟨hloaded, hcovered, hkept⟩ := loadChanged_loaded exempt hf hinj' hparses hdeclared hold
  refine ⟨fun files hlookup => ?_, fun path hpath => ⟨_, lookup_insert _, hcovered path hpath⟩,
    fun s hs => lookup_insert_ne hs, hkept⟩
  rw [lookup_insert] at hlookup
  cases hlookup
  exact hloaded

end Loads

/-! ## Runs -/

section Runs

variable (digest : Subpath → BitVec 32) (limits : SourceFileLimits) (exempt : List IpCidr)
  (disks : Uuid → Disk)

/-- The spec of the last successful `sync` of a server that was not cleared since. -/
def specOf (tr : List (Call Faults × Bool)) (s : Uuid) : Option Spec :=
  tr.foldl (fun o e =>
    match e.1 with
    | .sync spec _ _ => if spec.server = s ∧ e.2 = true then some spec else o
    | .clear server _ => if server = s then none else o) none

/-- No command fails, the disks never change, and every referenced file is there and parses. -/
def Steady (call : Call Faults) : Prop :=
  match call with
  | .sync spec disk f => f = .none ∧ disk = disks spec.server ∧
      ∀ path ∈ referencedFiles spec, ∃ file entries, disk path = some file ∧
        streamSourceFile limits file = .ok entries
  | .clear _ f => f = .none

/-- The condition on a `sync`: there is a rule for each referenced file, the files can be read, and neither the
server's chain nor its sets have the name of another. -/
structure Matched (st : State Table) (spec : Spec) : Prop where
  used : ∀ path ∈ referencedFiles spec, setBaseName digest spec.server path ∈ setsOf (expandRules digest spec)
  access : referencedFiles spec = [] ∨ spec.files = true ∨ spec.server ∈ st.files
  server : ∀ s ∈ st.rules, serverDigits s = serverDigits spec.server → s = spec.server
  names : ∀ p ∈ referencedFiles spec, ∀ p' ∈ referencedFiles spec, digest p = digest p' → p = p'

def Guard (_ : List (Call Faults × Bool)) (st : State Table) (call : Call Faults) : Prop :=
  Steady limits disks call ∧ ∀ spec disk f, call = .sync spec disk f → Matched digest st spec

/-- The invariant of such runs. -/
structure Held (tr : List (Call Faults × Bool)) (st : State Table) : Prop where
  agrees : Agrees Shows st
  declared : ∀ base ∈ neededSets st.rules, Declared st.kernel base
  loaded : ∀ s files, st.files.lookup s = some files → ∀ state ∈ files,
    Loaded limits (disks s) st.kernel state ∧ state.set = setBaseName digest s state.path ∧
      ∃ rs, st.rules.lookup s = some rs ∧ state.set ∈ setsOf rs
  known : ∀ s ∈ st.rules, ∃ spec, specOf tr s = some spec
  spec : ∀ s spec, specOf tr s = some spec → spec.server = s ∧
    st.rules.lookup s = expandedEntry digest spec ∧ ∀ path ∈ referencedFiles spec,
      ∃ files, st.files.lookup s = some files ∧ ∃ state ∈ files, state.path = path

variable {digest limits exempt disks} {tr : List (Call Faults × Bool)} {st : State Table} {spec : Spec} (f : Faults)

variable (s : Uuid)

theorem specOf_concat_sync (spec : Spec) (disk : Disk) :
    specOf (tr ++ [(.sync spec disk f, true)]) s = if spec.server = s then some spec else specOf tr s := by
  simp [specOf, foldl_append]

theorem specOf_concat_failed (spec : Spec) (disk : Disk) :
    specOf (tr ++ [(.sync spec disk f, false)]) s = specOf tr s := by
  simp [specOf, foldl_append]

theorem specOf_concat_clear (server : Uuid) (ok : Bool) :
    specOf (tr ++ [(.clear server f, ok)]) s = if server = s then none else specOf tr s := by
  simp [specOf, foldl_append]

theorem lookup_updatedRules_ne (rules : Rules) (spec : Spec) {s : Uuid} (hs : s ≠ spec.server) :
    (updatedRules digest rules spec).lookup s = rules.lookup s := by
  unfold updatedRules
  split_ifs
  · exact lookup_erase_ne hs
  · exact lookup_insert_ne hs

theorem expandedEntry_of_mem {base : SetBase} (h : base ∈ setsOf (expandRules digest spec)) :
    expandedEntry digest spec = some (expandRules digest spec) := by
  refine if_neg fun hnil => ?_
  rw [hnil] at h
  cases h

section

variable (hst : Held digest limits disks tr st)
include hst

/-- A successful `sync`: the sets of the new rules are declared in `k`, the files are loaded, and applying
the rules keeps the sets. -/
theorem held_of_filesSynced {disk : Disk} {f : Faults} (hdisk : disk = disks spec.server)
    (hmatched : Matched digest st spec) {k : Table} (hk : ∀ base, Declared st.kernel base → Kept base st.kernel k)
    {st₁ st' : State Table} (hfiles : FilesSynced digest limits disk spec { st with kernel := k } st₁)
    (hown : st'.rules.lookup spec.server = expandedEntry digest spec)
    (hothers : ∀ s, s ≠ spec.server → st'.rules.lookup s = st.rules.lookup s)
    (hdeclared : ∀ base ∈ neededSets st'.rules, Declared k base)
    (hkept : ∀ base ∈ neededSets st'.rules, Declared st₁.kernel base → Kept base st₁.kernel st'.kernel)
    (hsame : st'.files = st₁.files) (hagrees : Agrees Shows st') :
    Held digest limits disks (tr ++ [(.sync spec disk f, true)]) st' := by
  subst hdisk
  have hmid : ∀ base ∈ neededSets st'.rules, Declared st₁.kernel base := by
    intro base hbase
    by_cases hpath : ∃ path ∈ referencedFiles spec, setBaseName digest spec.server path = base
    · obtain ⟨path, hpath, rfl⟩ := hpath
      obtain ⟨files, hlookup, state, hstate, rfl⟩ := hfiles.covered path hpath
      obtain ⟨hloaded, _, hset⟩ := hfiles.loaded files hlookup state hstate
      exact hset ▸ hloaded.declared
    · exact (hfiles.kept base fun path hp he => hpath ⟨path, hp, he⟩).declared (hdeclared base hbase)
  refine ⟨hagrees, fun base hbase => (hkept base hbase (hmid base hbase)).declared (hmid base hbase),
    fun s files hlookup state hstate => ?_, fun s hs => ?_, fun s spec' hspec => ?_⟩
  · rw [hsame] at hlookup
    by_cases hs : s = spec.server
    · subst hs
      obtain ⟨hloaded, hpath, hset⟩ := hfiles.loaded files hlookup state hstate
      have hused := hset ▸ hmatched.used _ hpath
      have hrules := hown.trans (expandedEntry_of_mem hused)
      have hneeded := mem_neededSets.mpr ⟨_, _, hrules, hused⟩
      exact ⟨hloaded.kept (hkept _ hneeded hloaded.declared), hset, _, hrules, hused⟩
    · rw [hfiles.others s hs] at hlookup
      obtain ⟨hloaded, hset, rs, hrs, hused⟩ := hst.loaded s files hlookup state hstate
      have hrules := (hothers s hs).trans hrs
      have hneeded := mem_neededSets.mpr ⟨_, _, hrules, hused⟩
      -- the sets of another server have other names than those that were loaded
      have hname : ∀ path ∈ referencedFiles spec, setBaseName digest spec.server path ≠ state.set := by
        intro path _ heq
        rw [hset] at heq
        exact hs (hmatched.server s (lookup_isSome.mp (by rw [hrs]; rfl)) (SetBase.mk.inj heq).1.symm)
      have hloaded₁ := (hloaded.kept (hk _ hloaded.declared)).kept (hfiles.kept _ hname)
      exact ⟨hloaded₁.kept (hkept _ hneeded hloaded₁.declared), hset, rs, hrules, hused⟩
  · rw [specOf_concat_sync]
    split_ifs with hserver
    · exact ⟨spec, rfl⟩
    · rw [← lookup_isSome, hothers s (Ne.symm hserver), lookup_isSome] at hs
      exact hst.known s hs
  · rw [specOf_concat_sync] at hspec
    split_ifs at hspec with hs
    · subst hs
      cases hspec
      rw [hsame]
      exact ⟨rfl, hown, hfiles.covered⟩
    · rw [hothers s (Ne.symm hs), hsame, hfiles.others s (Ne.symm hs)]
      exact hst.spec s spec' hspec

theorem held_failed (spec : Spec) (disk : Disk) (f : Faults) :
    Held digest limits disks (tr ++ [(.sync spec disk f, false)]) st :=
  { hst with
    known := by simpa only [specOf_concat_failed] using hst.known
    spec := by simpa only [specOf_concat_failed] using hst.spec }

theorem held_sync {disk : Disk} {f : Faults}
    (hsteady : Steady limits disks (.sync spec disk f)) (hmatched : Matched digest st spec)
    {res : State Table × Bool} (h : Synced digest (nftables limits exempt) f disk spec st res) :
    Held digest limits disks (tr ++ [(.sync spec disk f, res.2)]) res.1 := by
  obtain ⟨rfl, hdisk, hparses⟩ := hsteady
  have hcalm : Calm digest Safe Clean tr st (.sync spec disk .none) :=
    ⟨hmatched.server, fun hlist => absurd hlist (by decide)⟩
  have hagrees := agrees_sync (truthful_nftables limits exempt) hst.agrees hcalm h
  have hsynced : ∀ (k : Table) (rules : Rules), rules.lookup spec.server = expandedEntry digest spec →
      (∀ base ∈ neededSets rules, Declared k base) → (∀ base, Declared st.kernel base → Kept base st.kernel k) →
      FilesSynced digest limits disk spec { st with kernel := k }
        (syncFiles digest (nftables limits exempt) .none disk spec { st with kernel := k }) := by
    intro k rules hown hdeclared hkept
    refine filesSynced_syncFiles exempt (fun _ => rfl) hparses hmatched.access hmatched.names (fun path hpath => ?_)
      fun files hlookup state hstate => ?_
    · have hused := hmatched.used path hpath
      exact hdeclared _ (mem_neededSets.mpr ⟨_, _, hown.trans (expandedEntry_of_mem hused), hused⟩)
    · obtain ⟨hloaded, hset, _⟩ := hst.loaded _ files hlookup state hstate
      exact ⟨hdisk ▸ hloaded.kept (hkept _ hloaded.declared), hset⟩
  cases h with
  | same hsame =>
    have hown := lookup_of_unchanged hst.agrees.nonempty hsame
    refine held_of_filesSynced hst hdisk hmatched (fun _ _ _ => rfl)
      (hsynced st.kernel st.rules hown hst.declared fun _ _ _ => rfl) ?_ ?_ ?_ (fun _ _ _ _ => rfl) rfl hagrees
    · rw [rules_syncFiles]
      exact hown
    · intro s _
      rw [rules_syncFiles]
    · rw [rules_syncFiles]
      exact hst.declared
  | undeclared => exact held_failed hst spec disk .none
  | applied k st₁ _ hdeclare hst₁ hok =>
    obtain ⟨k', hk', hdeclared, hkept⟩ := declareSets_spec (f := .none) rfl
      (neededSets (updatedRules digest st.rules spec)) st.kernel
    obtain rfl : k' = k := Option.some.inj (hk'.symm.trans hdeclare)
    have hown : (updatedRules digest st.rules spec).lookup spec.server = expandedEntry digest spec :=
      lookup_updatedRules st.rules spec
    have hfiles := hsynced k' _ hown hdeclared hkept
    rw [← hst₁] at hfiles
    exact held_of_filesSynced hst hdisk hmatched hkept hfiles hown
      (fun s hs => lookup_updatedRules_ne st.rules spec hs) hdeclared
      (fun base hbase hbase' => apply_keeps exempt .none hbase hbase') rfl hagrees
  | failed k st₁ hdeclare hst₁ herr =>
    obtain ⟨hf, _⟩ | ⟨_, hok, _⟩ := apply_spec exempt .none (updatedRules digest st.rules spec) st₁.kernel
    · cases hf
    · rw [show ((nftables limits exempt).apply .none (updatedRules digest st.rules spec) st₁.kernel).1 =
        true from hok] at herr
      cases herr

theorem held_clear (server : Uuid) : Held digest limits disks
      (tr ++ [(.clear server .none, (clear (nftables limits exempt) .none server st).2)])
      (clear (nftables limits exempt) .none server st).1 := by
  have hclean : server ∈ st.rules → Clean .none := fun _ => ⟨rfl, rfl⟩
  obtain ⟨hagrees, hnone, hothers⟩ := agrees_clear (truthful_nftables limits exempt) hst.agrees hclean
  have hfiles : (clear (nftables limits exempt) .none server st).1.files = st.files.erase server := by
    simp only [clear]
    split_ifs <;> rfl
  have hsub : ∀ base ∈ neededSets (clear (nftables limits exempt) .none server st).1.rules,
      base ∈ neededSets st.rules := by
    intro base hbase
    obtain ⟨s, rs, hs, hbase⟩ := mem_neededSets.mp hbase
    by_cases hserver : s = server
    · rw [hserver, hnone] at hs
      cases hs
    · exact mem_neededSets.mpr ⟨s, rs, (hothers s hserver) ▸ hs, hbase⟩
  have hkept : ∀ base ∈ neededSets (clear (nftables limits exempt) .none server st).1.rules,
      Kept base st.kernel (clear (nftables limits exempt) .none server st).1.kernel := by
    intro base hbase
    have hbase' := hst.declared base (hsub base hbase)
    revert hbase
    simp only [clear]
    split_ifs
    · exact fun hbase => apply_keeps exempt .none hbase hbase'
    · exact fun _ _ => rfl
  refine ⟨hagrees, fun base hbase => (hkept base hbase).declared (hst.declared base (hsub base hbase)),
    fun s files hlookup state hstate => ?_, fun s hs => ?_, fun s spec hspec => ?_⟩
  · rw [hfiles] at hlookup
    have hs : s ≠ server := by
      rintro rfl
      rw [lookup_erase] at hlookup
      cases hlookup
    rw [lookup_erase_ne hs] at hlookup
    obtain ⟨hloaded, hset, rs, hrs, hused⟩ := hst.loaded s files hlookup state hstate
    have hrules := (hothers s hs).trans hrs
    exact ⟨hloaded.kept (hkept _ (mem_neededSets.mpr ⟨_, _, hrules, hused⟩)), hset, rs, hrules, hused⟩
  · have hserver : s ≠ server := by
      rintro rfl
      exact lookup_eq_none.mp hnone hs
    rw [specOf_concat_clear, if_neg (Ne.symm hserver)]
    rw [← lookup_isSome, hothers s hserver, lookup_isSome] at hs
    exact hst.known s hs
  · rw [specOf_concat_clear] at hspec
    split_ifs at hspec with hs
    rw [hothers s (Ne.symm hs), hfiles, lookup_erase_ne (Ne.symm hs)]
    exact hst.spec s spec hspec

/-- **One call**, in which nothing goes wrong with the kernel or the files. -/
theorem held_step {call : Call Faults} (hguard : Guard digest limits disks tr st call) :
    Held digest limits disks (tr ++ [(call, (step digest (nftables limits exempt) st call).2)])
      (step digest (nftables limits exempt) st call).1 := by
  obtain ⟨hsteady, hmatched⟩ := hguard
  cases call with
  | sync spec disk f => exact held_sync hst hsteady (hmatched spec disk f rfl) (synced_sync f disk spec st)
  | clear server f =>
    obtain rfl : f = .none := hsteady
    exact held_clear hst server

end

theorem held_init {t : Table} (ht : Bare t) : Held digest limits disks [] (.init t) :=
  ⟨⟨shows_of_bare ht, fun s hs => absurd hs (notMem_empty s), nofun⟩, nofun, nofun,
    fun s hs => absurd hs (notMem_empty s), nofun⟩

theorem mem_referencedFiles_of_set {rule : ConcreteRule} (h : rule ∈ expandRules digest spec)
    {name : SetBase} {family : AddressFamily} (hset : rule.source = .set name family) :
    ∃ path ∈ referencedFiles spec, name = setBaseName digest spec.server path := by
  have hsources : ∀ (rule' : Rule) (dst : RuleDst), rule' ∈ spec.rules →
      .set name family ∈ rule'.expandedSources digest spec.server dst →
      ∃ path ∈ referencedFiles spec, name = setBaseName digest spec.server path := by
    intro rule' dst hrule' hmem
    unfold Rule.expandedSources at hmem
    split_ifs at hmem
    · simp at hmem
    · rcases mem_append.mp hmem with hmem | hmem
      · simp at hmem
      · cases hfile : rule'.sourceFile with
        | none => simp [hfile] at hmem
        | some file =>
          simp only [hfile, mem_map, mem_filter, RuleSource.set.injEq] at hmem
          obtain ⟨_, _, rfl, _⟩ := hmem
          refine ⟨sourceFilePath file, ?_, rfl⟩
          exact mem_dedup.mpr (mem_map_of_mem (mem_filterMap.mpr ⟨rule', hrule', hfile⟩))
  obtain ⟨rule', hrule', hmem⟩ := mem_flatMap.mp h
  rcases mem_append.mp hmem with hmem | hmem
  · simp only [mem_flatMap, Rule.expandSources, mem_map] at hmem
    obtain ⟨_, _, _, _, source, hsource, rfl⟩ := hmem
    obtain rfl : source = .set name family := hset
    exact hsources rule' _ hrule' hsource
  · simp only [mem_flatMap, Rule.expandSources, mem_map] at hmem
    obtain ⟨_, _, _, _, _, _, source, hsource, rfl⟩ := hmem
    obtain rfl : source = .set name family := hset
    exact hsources rule' _ hrule' hsource

theorem source_of_saddrSet {rules : List ConcreteRule} {rule : KernelRule} (h : rule ∈ renderChain rules)
    {n : SetName} (hn : .saddrSet n ∈ rule.conditions) :
    ∃ concrete ∈ rules, concrete.source = .set n.base n.family := by
  rcases mem_cons.mp h with rfl | h
  · simp at hn
  · obtain ⟨concrete, hconcrete, rfl⟩ := mem_map.mp h
    refine ⟨concrete, hconcrete, ?_⟩
    rcases mem_append.mp hn with hn | hn
    · cases hdst : concrete.dst <;> simp [renderDst, hdst] at hn
    · cases hsource : concrete.source with
      | set name family =>
        simp only [renderSource, hsource, mem_singleton, Match.saddrSet.injEq] at hn
        rw [hn]
      | _ => simp [renderSource, hsource] at hn

/-- **The sets the kernel's rules match on hold their files**: every chain of a server is that of the last spec
the server was synced with, and each set it matches on has exactly the entries of a file of that spec. -/
theorem source_sets_hold_files {t : Table} (ht : Bare t) {calls : List (Call Faults)}
    (h : Steps (step digest (nftables limits exempt)) (Guard digest limits disks) (.init t) calls)
    {d : BitVec 48} {rules : List KernelRule}
    (hrules : (exec (step digest (nftables limits exempt)) (.init t) calls).kernel.chain (.server d) = some rules) :
    ∃ s spec, serverDigits s = d ∧
      specOf (trace (step digest (nftables limits exempt)) (.init t) calls) s = some spec ∧
      rules = renderChain (expandRules digest spec) ∧
      ∀ rule ∈ rules, ∀ n, .saddrSet n ∈ rule.conditions →
        ∃ path ∈ referencedFiles spec, n.base = setBaseName digest s path ∧
          ∃ file entries, disks s path = some file ∧ streamSourceFile limits file = .ok entries ∧
            (exec (step digest (nftables limits exempt)) (.init t) calls).kernel.set n =
              some (entries.filter (·.family = n.family)) := by
  have hheld := inv_of_steps (held_init ht) (fun _ _ _ hst hguard => held_step hst hguard) h
  obtain ⟨s, hs, rfl⟩ := hheld.agrees.shows.only d (by rw [hrules]; nofun)
  obtain ⟨spec, hspec⟩ := hheld.known s hs
  obtain ⟨rfl, hlookup, hcovered⟩ := hheld.spec s spec hspec
  obtain ⟨rs, hrs⟩ := Option.isSome_iff_exists.mp (lookup_isSome.mpr hs)
  have hexpanded : rs = expandRules digest spec := by
    rw [hlookup, expandedEntry] at hrs
    split_ifs at hrs
    exact (Option.some.inj hrs).symm
  have hchain : rules = renderChain (expandRules digest spec) := by
    rw [← hexpanded]
    exact Option.some.inj (hrules.symm.trans (hheld.agrees.shows.chain _ rs hrs))
  refine ⟨spec.server, spec, rfl, hspec, hchain, fun rule hrule n hn => ?_⟩
  rw [hchain] at hrule
  obtain ⟨concrete, hconcrete, hsource⟩ := source_of_saddrSet hrule hn
  obtain ⟨path, hpath, hbase⟩ := mem_referencedFiles_of_set hconcrete hsource
  obtain ⟨files, hfiles, state, hstate, rfl⟩ := hcovered path hpath
  obtain ⟨⟨file, entries, hdisk, hparse, hholds, _⟩, hset, _⟩ := hheld.loaded _ files hfiles state hstate
  refine ⟨state.path, hpath, hbase, file, entries, hdisk, hparse, ?_⟩
  have hn := hholds n.family
  rw [hset, ← hbase] at hn
  exact hn

end Runs

/-! ## A file of one network -/

def oneNetwork : SourceFile := ⟨⟨1, 0, 0, 11⟩, [⟨10, some (.entry (.v4 0x0A000000 8))⟩]⟩

def listDisk : Disk := fun path => if path = [nameA] then some oneNetwork else none

/-- The networks of the list are denied at these bindings. -/
def deniedList (bindings : List Binding) : Spec where
  server := 1
  bindings := bindings
  containerPorts := []
  containerIps := []
  rules := [⟨.deny, [.tcp], [], none, some [.normal nameA]⟩]
  files := true

/-- A server without rules is cleared after the sync of another. -/
theorem source_sets_hold_files_listed :
    let step := step (fun _ => 7) (nftables smallLimits [])
    let calls := [.sync (deniedList [⟨none, 25565⟩]) listDisk .none, .clear 0x10000000000000000000000000 .none]
    ∃ s spec, serverDigits s = 0 ∧ specOf (trace step (.init .empty) calls) s = some spec ∧
      ∀ rule ∈ renderChain (expandRules (fun _ => 7) (deniedList [⟨none, 25565⟩])), ∀ n, .saddrSet n ∈ rule.conditions →
        ∃ path ∈ referencedFiles spec, n.base = setBaseName (fun _ => 7) s path ∧
          ∃ file entries, listDisk path = some file ∧ streamSourceFile smallLimits file = .ok entries ∧
            (exec step (.init .empty) calls).kernel.set n = some (entries.filter (·.family = n.family)) := by
  intro step calls
  have hfiles : referencedFiles (deniedList [⟨none, 25565⟩]) = [[nameA]] := by decide
  have hmatched : Matched (fun _ => 7) (.init .empty) (deniedList [⟨none, 25565⟩]) := by
    refine ⟨by decide, .inr (.inl rfl), fun s hs => absurd hs (notMem_empty s), ?_⟩
    rw [hfiles]
    simp
  have hsteady : Steady smallLimits (fun _ => listDisk)
      (.sync (deniedList [⟨none, 25565⟩]) listDisk .none) := by
    refine ⟨rfl, rfl, ?_⟩
    rw [hfiles]
    simp only [mem_singleton, forall_eq]
    exact ⟨oneNetwork, [.v4 0x0A000000 8], rfl, rfl⟩
  have hsteps : Steps step (Guard (fun _ => 7) smallLimits fun _ => listDisk) (.init .empty) calls := by
    refine steps_cons.mpr ⟨⟨hsteady, ?_⟩, steps_cons.mpr ⟨⟨rfl, nofun⟩, steps_nil⟩⟩
    rintro _ _ _ ⟨⟩
    exact hmatched
  have hchain : (exec step (.init .empty) calls).kernel.chain (.server 0) =
      some (renderChain (expandRules (fun _ => 7) (deniedList [⟨none, 25565⟩]))) := by decide +kernel
  obtain ⟨s, spec, hs, hspec, _, hall⟩ := source_sets_hold_files (fun _ => rfl) hsteps hchain
  exact ⟨s, spec, hs, hspec, hall⟩

/-- Without a binding no rule matches on the list, so its load fails and is recorded; with a binding the set is
declared, the list is not loaded again, and nothing is denied. -/
theorem set_left_empty : let step := step (fun _ => 7) (nftables smallLimits [])
    let st := (step (.init .empty) (.sync (deniedList []) listDisk .none)).1
    let res := step st (.sync (deniedList [⟨none, 25565⟩]) listDisk .none)
    (step (.init .empty) (.sync (deniedList []) listDisk .none)).2 = true ∧ res.2 = true ∧
      res.1.kernel.chain (serverChainName 1) =
        some (renderChain (expandRules (fun _ => 7) (deniedList [⟨none, 25565⟩]))) ∧
      expandRules (fun _ => 7) (deniedList [⟨none, 25565⟩]) ≠ [] ∧
      (streamSourceFile smallLimits oneNetwork).toOption = some [.v4 0x0A000000 8] ∧
      res.1.kernel.set ⟨setBaseName (fun _ => 7) 1 [nameA], .v4⟩ = some [] := by
  decide +kernel

end Wings.Firewall.Nftables
