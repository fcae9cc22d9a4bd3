import Wings.Firewall.Backend
import Wings.Lib.RuleChains

/-!
# Wings.Firewall.Iptables — the iptables backend

`iptables.rs` on a model of the two `filter` tables and of the ip sets.  A restore file is applied as a whole or not
at all, but each family has its own.

* `renderRestoreFile`, `applyFamily` — the restore file of one family, and what is done with it.
* `iptables` — the backend, and `truthful_iptables`: the chains it leaves are those of the servers it was given.
-/

namespace Wings.Firewall.Iptables

open Lib Server Filesystem Function List AList ChainCommand

/-- A set of one family, or the shadow set it is filled through. -/
structure SetName where
  base : SetBase
  family : AddressFamily
  shadow : Bool
  deriving DecidableEq

inductive Match where
  | protocol (protocol : Protocol)
  | ctStateEstablished
  | ctStateDnat
  | ctStateNotDnat
  | ctOrigDst (ip : IpAddr)
  | ctOrigDstPort (port : BitVec 16)
  | destination (ip : IpAddr)
  | dport (port : BitVec 16)
  | source (source : IpCidr)
  | matchSet (set : SetName)
  deriving DecidableEq

inductive Target where
  | ret
  | drop
  | jump (chain : ChainName)
  deriving DecidableEq

structure KernelRule where
  conditions : List Match
  target : Target
  deriving DecidableEq

/-- The chains that can jump to the dispatching one. -/
inductive Parent where
  | dockerUser
  | forward
  deriving DecidableEq

structure Filter where
  chains : RuleChains ChainName KernelRule
  dockerUser : Bool
  jumps : List Parent

def Filter.chain (t : Filter) (c : ChainName) : Option (List KernelRule) := t.chains.lookup c

structure Kernel where
  filter : AddressFamily → Filter
  sets : AList fun _ : SetName => List IpCidr

def Kernel.setFilter (k : Kernel) (family : AddressFamily) (t : Filter) : Kernel :=
  { k with filter := Function.update k.filter family t }

/-! ## Sets -/

inductive SetCommand where
  | create (set : SetName)
  | flush (set : SetName)
  | add (set : SetName) (entry : IpCidr)
  | swap (set other : SetName)
  | destroy (set : SetName)

def runSet (sets : AList fun _ : SetName => List IpCidr) :
    SetCommand → Option (AList fun _ : SetName => List IpCidr)
  | .create n => some (if n ∈ sets then sets else sets.insert n [])
  | .flush n => if n ∈ sets then some (sets.insert n []) else none
  | .add n entry => do
    let old ← sets.lookup n
    return if entry ∈ old then sets else sets.insert n (old ++ [entry])
  | .swap n n' => do
    let old ← sets.lookup n
    let old' ← sets.lookup n'
    return (sets.insert n old').insert n' old
  | .destroy n => if n ∈ sets then some (sets.erase n) else none

def families : List AddressFamily := [.v4, .v6]

def createSets (base : SetBase) : List SetCommand := families.map fun family => .create ⟨base, family, false⟩

def loadCommands (base : SetBase) (entries : List IpCidr) : List SetCommand :=
  (families.flatMap fun family =>
    [.create ⟨base, family, false⟩, .create ⟨base, family, true⟩, .flush ⟨base, family, true⟩]) ++
  entries.map (fun entry => .add ⟨base, entry.family, true⟩ entry) ++
  families.flatMap fun family =>
    [.swap ⟨base, family, true⟩ ⟨base, family, false⟩, .destroy ⟨base, family, true⟩]

/-! ## The restore file -/

def renderDst : RuleDst → List Match
  | .published ip port => [.ctStateDnat] ++ ip.toList.map .ctOrigDst ++ [.ctOrigDstPort port]
  | .container ip port => [.ctStateNotDnat, .destination ip, .dport port]

def renderSource : RuleSource → List Match
  | .any => []
  | .cidr source => [.source source]
  | .set name family => [.matchSet ⟨name, family, false⟩]

def renderRule (rule : ConcreteRule) : KernelRule where
  conditions := .protocol rule.protocol :: renderDst rule.dst ++ renderSource rule.source
  target := match rule.action with
    | .allow => .ret
    | .deny => .drop

def RuleSource.isSet : RuleSource → Bool
  | .set _ _ => true
  | _ => false

def liveRules (family : AddressFamily) (ipsetAvailable : Bool) (rules : List ConcreteRule) : List ConcreteRule :=
  (rules.filter (·.applies family)).filter fun rule => ipsetAvailable || !RuleSource.isSet rule.source

def renderChain (rules : List ConcreteRule) : List KernelRule :=
  ⟨[.ctStateEstablished], .ret⟩ :: rules.map renderRule

/-- The servers with a chain, and its rules. -/
def live (servers : Rules) (family : AddressFamily) (ipsetAvailable : Bool) :
    List (ChainName × List ConcreteRule) :=
  servers.entries.filterMap fun e =>
    if liveRules family ipsetAvailable e.2 = [] then none
    else some (serverChainName e.1, liveRules family ipsetAvailable e.2)

/-- `:chain - [0:0]` with `-n`: a new chain, or an old one emptied. -/
def declare (c : ChainName) : List (ChainCommand ChainName KernelRule) := [.add c, .flush c]

def dispatchRules (exemptSources : List IpCidr) (family : AddressFamily)
    (live : List (ChainName × List ConcreteRule)) : List KernelRule :=
  (if live = [] then [] else (exemptSources.filter fun source => source.family = family).map
    fun source => ⟨[.source source], .ret⟩) ++
  live.map fun e => ⟨[], .jump e.1⟩

/-- The stale chains that are not needed again. -/
def gone (live : List (ChainName × List ConcreteRule)) (staleChains : List ChainName) : List ChainName :=
  staleChains.filter fun c => ∀ e ∈ live, e.1 ≠ c

/-- `render_restore_file` for the servers with a chain. -/
def restoreCommands (exemptSources : List IpCidr) (family : AddressFamily)
    (live : List (ChainName × List ConcreteRule)) (staleChains : List ChainName) :
    List (ChainCommand ChainName KernelRule) :=
  declare .dispatch ++ (live.map Prod.fst).flatMap declare ++ (gone live staleChains).flatMap declare ++
    ChainCommand.refill .dispatch (dispatchRules exemptSources family live) ++
    live.flatMap (fun e => ChainCommand.refill e.1 (renderChain e.2)) ++
    (gone live staleChains).flatMap fun c => [.flush c, .delete c]

def renderRestoreFile (servers : Rules) (exemptSources : List IpCidr) (staleChains : List ChainName)
    (family : AddressFamily) (ipsetAvailable : Bool) : List (ChainCommand ChainName KernelRule) :=
  restoreCommands exemptSources family (live servers family ipsetAvailable) staleChains

/-! ## The backend -/

structure FamilyFaults where
  save : Bool
  restore : Bool
  check : Parent → Bool
  listUser : Bool
  insert : Bool

structure Faults where
  declare : Bool
  load : Subpath → Bool
  listSets : Bool
  destroy : SetName → Bool
  family : AddressFamily → FamilyFaults

def hasJump (f : FamilyFaults) (t : Filter) : Bool :=
  [.dockerUser, .forward].any fun parent => !f.check parent && parent ∈ t.jumps

def ensureJump (f : FamilyFaults) (t : Filter) : Bool × Filter :=
  if hasJump f t then (true, t)
  else
    let parent := if !f.listUser && t.dockerUser then .dockerUser else .forward
    if f.insert then (false, t) else (true, { t with jumps := parent :: t.jumps })

def familyNeeded (servers : Rules) (family : AddressFamily) : Bool :=
  servers.entries.any fun e => e.2.any (·.applies family)

/-- The second part of `parse_existing_chains`. -/
def existingChains (t : Filter) : List ChainName := t.chains.keys.filter (· ≠ .dispatch)

section Backend

variable (limits : SourceFileLimits) (exemptSources : List IpCidr) (ipsetAvailable : Bool)

def applyFamily (f : FamilyFaults) (servers : Rules) (family : AddressFamily) (t : Filter) : Bool × Filter :=
  let needed := familyNeeded servers family
  if f.save then (!needed, t)
  else if !needed && .dispatch ∉ t.chains && existingChains t = [] then (true, t)
  else if f.restore then (false, t)
  else
    let t := { t with
      chains := ChainCommand.runAll t.chains
        (renderRestoreFile servers exemptSources (existingChains t) family ipsetAvailable) }
    if needed then ensureJump f t else (true, t)

/-- `destroy_orphan_sets`, over the sets of the listing. -/
def destroyOrphanSets (f : Faults) (servers : Rules) (k : Kernel) : Kernel :=
  if !ipsetAvailable then k
  else
    let existing := if f.listSets then [] else k.sets.keys
    let orphans := existing.filter fun n => n.shadow ∨ n.base ∉ neededSets servers
    { k with sets := orphans.foldl (fun sets n => if f.destroy n then sets else sets.erase n) k.sets }

def apply (f : Faults) (servers : Rules) (k : Kernel) : Bool × Kernel :=
  let (ok, t) := applyFamily exemptSources ipsetAvailable (f.family .v4) servers .v4 (k.filter .v4)
  let k := k.setFilter .v4 t
  if !ok then (false, k)
  else
    let (ok, t) := applyFamily exemptSources ipsetAvailable (f.family .v6) servers .v6 (k.filter .v6)
    let k := k.setFilter .v6 t
    if !ok then (false, k) else (true, destroyOrphanSets ipsetAvailable f servers k)

def declareSets (f : Faults) (bases : List SetBase) (k : Kernel) : Option Kernel :=
  if bases = [] ∨ ipsetAvailable = false then some k
  else if f.declare then none
  else ((bases.flatMap createSets).foldlM runSet k.sets).map fun sets => { k with sets }

/-- `load_file`; a command that is aborted changes no set that a rule matches on. -/
def loadFile (f : Faults) (load : PendingLoad) (k : Kernel) : Except LoadError Unit × Kernel :=
  if !ipsetAvailable then (.error .command, k)
  else
    match streamSourceFile limits load.file with
    | .error err => (.error err, k)
    | .ok entries =>
      if f.load load.path then (.error .command, k)
      else
        match (loadCommands load.set entries).foldlM runSet k.sets with
        | none => (.error .command, k)
        | some sets => (.ok (), { k with sets })

def iptables : Backend Kernel Faults where
  setsAvailable := ipsetAvailable
  declareSets := declareSets ipsetAvailable
  loadFile := loadFile limits ipsetAvailable
  apply := apply exemptSources ipsetAvailable

end Backend

/-! ## What a restore file leaves of a chain -/

variable (o : Option (List KernelRule)) (names : List ChainName)

theorem foldl_declare {c : ChainName} :
    (names.flatMap declare).foldl (effect c) o = if c ∈ names then some [] else o := by
  induction names generalizing o with
  | nil => rfl
  | cons c' names ih =>
    rw [flatMap_cons, foldl_append, ih]
    by_cases hc : c' = c
    · subst hc
      simp [declare, effect, name, change]
    · simp [declare, effect, name, hc, Ne.symm hc]

theorem foldl_remove {c : ChainName} :
    (names.flatMap fun c => [.flush c, .delete c]).foldl (effect c) o = if c ∈ names then none else o := by
  induction names generalizing o with
  | nil => rfl
  | cons c' names ih =>
    rw [flatMap_cons, foldl_append, ih]
    by_cases hc : c' = c
    · subst hc
      simp [effect, name, change]
    · simp [effect, name, hc, Ne.symm hc]

section Restore

variable {exempt : List IpCidr} {family : AddressFamily} {l : List (ChainName × List ConcreteRule)}
  {stale : List ChainName}

variable {c : ChainName}

theorem foldl_refills_of_ne (h : ∀ e ∈ l, e.1 ≠ c) (o : Option (List KernelRule)) :
    (l.flatMap fun e => refill e.1 (renderChain e.2)).foldl (effect c) o =
      o := by
  refine foldl_effect_of_ne (fun cmd hcmd => ?_) o
  obtain ⟨e, he, hcmd⟩ := mem_flatMap.mp hcmd
  rw [name_refill hcmd]
  exact h e he

variable {rules : List ConcreteRule}

theorem foldl_refills (hmem : (c, rules) ∈ l) (hl : ∀ e ∈ l, e.1 = c → e.2 = rules) (old : List KernelRule) :
    (l.flatMap fun e => refill e.1 (renderChain e.2)).foldl (effect c) (some old) = some (renderChain rules) := by
  rw [foldl_flatMap]
  have hown : ∀ e ∈ l, e.1 = c → ∀ o : Option (List KernelRule), (∃ old, o = some old) →
      (refill e.1 (renderChain e.2)).foldl (effect c) o = some (renderChain rules) := by
    rintro e he rfl _ ⟨o, rfl⟩
    rw [← hl e he rfl]
    exact foldl_refill _ _
  have hother : ∀ e ∈ l, ¬e.1 = c → ∀ o : Option (List KernelRule),
      (refill e.1 (renderChain e.2)).foldl (effect c) o = o := by
    intro e he hc o
    refine foldl_effect_of_ne (fun cmd hcmd => ?_) o
    rw [name_refill hcmd]
    exact hc
  rcases foldl_writers hown hother ⟨_, rfl⟩ ⟨old, rfl⟩ with ⟨_, h⟩ | ⟨hno, _⟩
  · exact h
  · exact absurd rfl (hno (c, rules) hmem)

theorem mem_gone : c ∈ gone l stale ↔ c ∈ stale ∧ ∀ e ∈ l, e.1 ≠ c := by
  simp [gone]

theorem foldl_dispatch (d : BitVec 48) (rules : List KernelRule) (o : Option (List KernelRule)) :
    (refill ChainName.dispatch rules).foldl (effect (ChainName.server d)) o = o := by
  refine foldl_effect_of_ne (fun cmd hcmd => ?_) o
  rw [name_refill hcmd]
  nofun

theorem foldl_restore_live {d : BitVec 48} (hmem : (.server d, rules) ∈ l)
    (hl : ∀ e ∈ l, e.1 = .server d → e.2 = rules) (o : Option (List KernelRule)) :
    (restoreCommands exempt family l stale).foldl (effect (.server d)) o = some (renderChain rules) := by
  have hgone : .server d ∉ gone l stale := fun h => (mem_gone.mp h).2 _ hmem rfl
  have hnames : .server d ∈ l.map Prod.fst := mem_map_of_mem hmem
  simp only [restoreCommands, foldl_append]
  rw [foldl_remove, if_neg hgone, foldl_dispatch, foldl_declare, if_neg hgone, foldl_declare, if_pos hnames]
  exact foldl_refills hmem hl []

theorem foldl_restore_other {d : BitVec 48} (hl : ∀ e ∈ l, e.1 ≠ .server d) (o : Option (List KernelRule)) :
    (restoreCommands exempt family l stale).foldl (effect (.server d)) o =
      if .server d ∈ stale then none else o := by
  have hnames : .server d ∉ l.map Prod.fst := by
    intro h
    obtain ⟨e, he, hname⟩ := mem_map.mp h
    exact hl e he hname
  have hgone : .server d ∈ gone l stale ↔ .server d ∈ stale := by
    rw [mem_gone]
    exact ⟨fun h => h.1, fun h => ⟨h, hl⟩⟩
  simp only [restoreCommands, foldl_append]
  rw [foldl_remove, foldl_refills_of_ne hl, foldl_dispatch, foldl_declare, foldl_declare]
  simp only [hgone]
  split_ifs
  · rfl
  · exact foldl_effect_of_ne (by simp [declare, name]) o

theorem foldl_restore_dispatch (hl : ∀ e ∈ l, e.1 ≠ .dispatch) (hstale : .dispatch ∉ stale)
    (o : Option (List KernelRule)) :
    (restoreCommands exempt family l stale).foldl (effect .dispatch) o = some (dispatchRules exempt family l) := by
  have hgone : .dispatch ∉ gone l stale := fun h => hstale (mem_gone.mp h).1
  have hnames : .dispatch ∉ l.map Prod.fst := by
    intro h
    obtain ⟨e, he, hname⟩ := mem_map.mp h
    exact hl e he hname
  simp only [restoreCommands, foldl_append]
  rw [foldl_remove, if_neg hgone, foldl_refills_of_ne hl, foldl_declare, if_neg hgone, foldl_declare, if_neg hnames]
  exact foldl_refill _ _

end Restore

/-! ## The promises of the backend -/

section Promises

variable {exempt : List IpCidr} {ipsetAvailable : Bool} {family : AddressFamily} {servers : Rules}

/-- The rules of a server in the kernel: its chain with a way to it, or no chain. -/
structure FamilyShows (ipsetAvailable : Bool) (family : AddressFamily) (rules : Rules) (t : Filter) :
    Prop where
  chain : ∀ s rs, rules.lookup s = some rs → liveRules family ipsetAvailable rs ≠ [] →
    t.chain (serverChainName s) = some (renderChain (liveRules family ipsetAvailable rs))
  jump : ∀ s rs, rules.lookup s = some rs → liveRules family ipsetAvailable rs ≠ [] →
    (∃ top, t.chain .dispatch = some top ∧ ⟨[], .jump (serverChainName s)⟩ ∈ top) ∧ t.jumps ≠ []
  only : ∀ d, t.chain (.server d) ≠ none →
    ∃ s rs, rules.lookup s = some rs ∧ serverDigits s = d ∧ liveRules family ipsetAvailable rs ≠ []

def Shows (ipsetAvailable : Bool) (rules : Rules) (k : Kernel) : Prop :=
  ∀ family, FamilyShows ipsetAvailable family rules (k.filter family)

/-- No failure of a command that reads or writes the chains. -/
def Quiet (f : Faults) : Prop :=
  ∀ family, (f.family family).save = false ∧ (f.family family).restore = false ∧ (f.family family).insert = false

/-- Such a failure is safe before anything is written. -/
def Safe (f : Faults) (_ rules' : Rules) : Prop :=
  Quiet f ∨ familyNeeded rules' .v4 = true ∧ ((f.family .v4).save = true ∨ (f.family .v4).restore = true)

variable {rs : List ConcreteRule}

theorem mem_live {c : ChainName} :
    (c, rs) ∈ live servers family ipsetAvailable ↔ ∃ s rules, servers.lookup s = some rules ∧
      serverChainName s = c ∧ liveRules family ipsetAvailable rules = rs ∧ rs ≠ [] := by
  simp only [live, mem_filterMap]
  constructor
  · rintro ⟨⟨s, rules⟩, he, h⟩
    split_ifs at h with hne
    cases h
    exact ⟨s, rules, mem_lookup_iff.mpr he, rfl, rfl, hne⟩
  · rintro ⟨s, rules, he, rfl, rfl, hne⟩
    exact ⟨⟨s, rules⟩, mem_lookup_iff.mp he, if_neg hne⟩

theorem familyNeeded_of_live {s : Uuid} {rules : List ConcreteRule}
    (hs : servers.lookup s = some rules) (hne : liveRules family ipsetAvailable rules ≠ []) :
    familyNeeded servers family = true := by
  obtain ⟨rule, hrule⟩ := exists_mem_of_ne_nil _ hne
  obtain ⟨hrule, happlies⟩ := mem_filter.mp (mem_filter.mp hrule).1
  exact any_eq_true.mpr ⟨⟨s, rules⟩, mem_lookup_iff.mp hs, any_eq_true.mpr ⟨rule, hrule, happlies⟩⟩

theorem lookup_restore_live (hdistinct : Distinct servers) (chains : RuleChains ChainName KernelRule)
    (stale : List ChainName) {c : ChainName} (hlive : (c, rs) ∈ live servers family ipsetAvailable) :
    (runAll chains (renderRestoreFile servers exempt stale family ipsetAvailable)).lookup c =
      some (renderChain rs) := by
  obtain ⟨s, rules, hs, rfl, rfl, hne⟩ := mem_live.mp hlive
  rw [lookup_runAll]
  refine foldl_restore_live hlive (fun e he hname => ?_) _
  obtain ⟨s', rs', hs', hname', hrs', _⟩ := mem_live.mp he
  have hsame : s' = s := hdistinct s' (lookup_isSome.mp (by rw [hs']; rfl)) s
    (lookup_isSome.mp (by rw [hs]; rfl)) (ChainName.server.inj (hname'.trans hname))
  rw [hsame, hs] at hs'
  rw [← hrs', Option.some.inj hs']

theorem lookup_restore_dispatch (servers : Rules) (chains : RuleChains ChainName KernelRule) {stale : List ChainName}
    (hstale : .dispatch ∉ stale) :
    (runAll chains (renderRestoreFile servers exempt stale family ipsetAvailable)).lookup .dispatch =
      some (dispatchRules exempt family (live servers family ipsetAvailable)) := by
  rw [lookup_runAll]
  refine foldl_restore_dispatch (fun e he hname => ?_) hstale _
  obtain ⟨s', _, _, hname', _⟩ := mem_live.mp he
  exact ChainName.noConfusion (hname'.trans hname)

theorem shows_of_restore (hdistinct : Distinct servers) {t t' : Filter}
    (hchains : t'.chains = runAll t.chains
      (renderRestoreFile servers exempt (existingChains t) family ipsetAvailable))
    (hjumps : familyNeeded servers family = true → t'.jumps ≠ []) :
    FamilyShows ipsetAvailable family servers t' := by
  refine ⟨fun s rs hs hne => ?_, fun s rs hs hne => ?_, fun d hd => ?_⟩
  · rw [Filter.chain, hchains]
    exact lookup_restore_live hdistinct _ _ (mem_live.mpr ⟨s, rs, hs, rfl, rfl, hne⟩)
  · refine ⟨⟨dispatchRules exempt family (live servers family ipsetAvailable), ?_,
      mem_append_right _ (mem_map.mpr ⟨_, mem_live.mpr ⟨s, rs, hs, rfl, rfl, hne⟩, rfl⟩)⟩,
      hjumps (familyNeeded_of_live hs hne)⟩
    rw [Filter.chain, hchains]
    exact lookup_restore_dispatch servers _ (by simp [existingChains])
  · -- a chain that is left belongs to a live server: the others were all in the listing
    by_contra hno
    have hother : ∀ e ∈ live servers family ipsetAvailable, e.1 ≠ .server d := by
      intro e he hname
      obtain ⟨s, rs, hs, hname', hrs, hne⟩ := mem_live.mp he
      exact hno ⟨s, rs, hs, ChainName.server.inj (hname'.trans hname), hrs ▸ hne⟩
    rw [Filter.chain, hchains, lookup_runAll, renderRestoreFile, foldl_restore_other hother] at hd
    split_ifs at hd with hmem
    · exact hd rfl
    · refine hmem (mem_filter.mpr ⟨?_, by simp⟩)
      by_contra habsent
      exact hd (lookup_eq_none.mpr habsent)

variable {f : FamilyFaults}

theorem ensureJump_spec (hf : f.insert = false) (t : Filter) :
    (ensureJump f t).1 = true ∧ (ensureJump f t).2.chains = t.chains ∧ (ensureJump f t).2.jumps ≠ [] := by
  simp only [ensureJump, hf, Bool.false_eq_true, if_false]
  by_cases hjump : hasJump f t = true
  · rw [if_pos hjump]
    refine ⟨rfl, rfl, fun hnil => ?_⟩
    have hnil : t.jumps = [] := hnil
    simp [hasJump, hnil] at hjump
  · rw [if_neg hjump]
    exact ⟨rfl, rfl, cons_ne_nil _ _⟩

theorem applyFamily_quiet (hsave : f.save = false) (hrestore : f.restore = false)
    (hinsert : f.insert = false) (hdistinct : Distinct servers) (t : Filter) :
    (applyFamily exempt ipsetAvailable f servers family t).1 = true ∧
      FamilyShows ipsetAvailable family servers (applyFamily exempt ipsetAvailable f servers family t).2 := by
  simp only [applyFamily, hsave, hrestore, Bool.false_eq_true, if_false]
  split_ifs with hnone hneeded
  · simp only [Bool.and_eq_true, Bool.not_eq_true', decide_eq_true_eq] at hnone
    have hnever : ∀ s rs, servers.lookup s = some rs → liveRules family ipsetAvailable rs = [] := by
      intro s rs hs
      by_contra hne
      rw [familyNeeded_of_live hs hne] at hnone
      exact Bool.noConfusion hnone.1.1
    refine ⟨rfl, fun s rs hs hne => absurd (hnever s rs hs) hne,
      fun s rs hs hne => absurd (hnever s rs hs) hne, fun d hd => absurd hnone.2 ?_⟩
    refine ne_nil_of_mem (a := .server d) (mem_filter.mpr ⟨?_, by simp⟩)
    rw [← AList.mem_keys, ← lookup_isSome, Option.isSome_iff_ne_none]
    exact hd
  · obtain ⟨hok, hchains, hjumps⟩ := ensureJump_spec hinsert { t with
      chains := runAll t.chains (renderRestoreFile servers exempt (existingChains t) family ipsetAvailable) }
    exact ⟨hok, shows_of_restore hdistinct hchains fun _ => hjumps⟩
  · exact ⟨rfl, shows_of_restore hdistinct rfl fun h => absurd h hneeded⟩

theorem applyFamily_fails (hf : f.save = true ∨ f.restore = true)
    (hneeded : familyNeeded servers family = true) (t : Filter) :
    applyFamily exempt ipsetAvailable f servers family t = (false, t) := by
  simp only [applyFamily, hneeded]
  cases hsave : f.save with
  | true => rfl
  | false => simp [hf.resolve_left (by simp [hsave])]

theorem filter_destroyOrphanSets (f : Faults) (servers : Rules) (k : Kernel) :
    (destroyOrphanSets ipsetAvailable f servers k).filter = k.filter := by
  simp only [destroyOrphanSets]
  split_ifs <;> rfl

variable {f : Faults}

theorem apply_quiet (hf : Quiet f) (hdistinct : Distinct servers)
    (k : Kernel) : (apply exempt ipsetAvailable f servers k).1 = true ∧
      Shows ipsetAvailable servers (apply exempt ipsetAvailable f servers k).2 := by
  have hquiet : ∀ (family : AddressFamily) (t : Filter),
      (applyFamily exempt ipsetAvailable (f.family family) servers family t).1 = true ∧
        FamilyShows ipsetAvailable family servers
          (applyFamily exempt ipsetAvailable (f.family family) servers family t).2 :=
    fun family t => applyFamily_quiet (hf family).1 (hf family).2.1 (hf family).2.2 hdistinct t
  simp only [apply, (hquiet .v4 _).1, (hquiet .v6 _).1, Bool.not_true, Bool.false_eq_true, if_false, true_and]
  intro family
  rw [filter_destroyOrphanSets]
  cases family with
  | v4 =>
    exact (hquiet .v4 _).2
  | v6 =>
    exact (hquiet .v6 _).2

theorem filter_declareSets {bases : List SetBase} {k k' : Kernel}
    (h : declareSets ipsetAvailable f bases k = some k') : k'.filter = k.filter := by
  unfold declareSets at h
  split_ifs at h
  · cases h; rfl
  · obtain ⟨sets, _, rfl⟩ := Option.map_eq_some_iff.mp h
    rfl

variable (limits : SourceFileLimits)

theorem filter_loadFile (f : Faults) (load : PendingLoad) (k : Kernel) :
    (loadFile limits ipsetAvailable f load k).2.filter = k.filter := by
  unfold loadFile
  repeat' split
  all_goals rfl

theorem truthful_iptables (exempt : List IpCidr) (ipsetAvailable : Bool) :
    Truthful (iptables limits exempt ipsetAvailable) (Shows ipsetAvailable) Safe Quiet := by
  refine truthful_of_apply (fun hshows hdeclare => ?_)
    (fun {f load r k} hshows => ?_) fun {f r r' k} hshows hdistinct hsafe => ?_
  · rw [Shows, filter_declareSets hdeclare]
    exact hshows
  · rw [Shows, show ((iptables limits exempt ipsetAvailable).loadFile f load k).2.filter = k.filter from
      filter_loadFile limits f load k]
    exact hshows
  · by_cases hquiet : Quiet f
    · exact .inr (apply_quiet hquiet hdistinct k)
    · obtain ⟨hneeded, hf⟩ := (hsafe.resolve_right hquiet).resolve_left hquiet
      refine .inl ⟨hquiet, ?_⟩
      simp only [iptables, apply, applyFamily_fails hf hneeded, Bool.not_false, if_true, Kernel.setFilter, update_eq_self]

/-! ## Installed rules -/

def Bare (k : Kernel) : Prop := ∀ family d, (k.filter family).chain (.server d) = none

/-- In each family the chain of the server has those of the rules that the family has, and packets get to it;
without such rules there is no chain. -/
def Installed (ipsetAvailable : Bool) (k : Kernel) (server : Uuid) (rules : List ConcreteRule) : Prop :=
  ∀ family,
    if liveRules family ipsetAvailable rules = [] then
      (k.filter family).chain (serverChainName server) = none
    else
      (k.filter family).chain (serverChainName server) =
          some (renderChain (liveRules family ipsetAvailable rules)) ∧
        (∃ top, (k.filter family).chain .dispatch = some top ∧
          ⟨[], .jump (serverChainName server)⟩ ∈ top) ∧ (k.filter family).jumps ≠ []

theorem shows_of_bare {k : Kernel} (h : Bare k) : Shows ipsetAvailable ∅ k :=
  fun family => ⟨nofun, nofun, fun d hd => absurd (h family d) hd⟩

theorem installed_of_shows {rules : Rules} {k : Kernel} {server : Uuid} (h : Shows ipsetAvailable rules k)
    (hserver : ∀ s ∈ rules, serverDigits s = serverDigits server → s = server) :
    Installed ipsetAvailable k server ((rules.lookup server).getD []) := by
  intro family
  split_ifs with hlive
  · by_contra hchain
    obtain ⟨s, rs, hs, hdigits, hne⟩ := (h family).only _ hchain
    rw [hserver s (lookup_isSome.mp (by rw [hs]; rfl)) hdigits] at hs
    rw [hs] at hlive
    exact hne hlive
  · cases hl : rules.lookup server with
    | none =>
      rw [hl] at hlive
      exact absurd rfl hlive
    | some rs =>
      rw [hl] at hlive
      exact ⟨(h family).chain server rs hl hlive, (h family).jump server rs hl hlive⟩

end Promises

end Wings.Firewall.Iptables
