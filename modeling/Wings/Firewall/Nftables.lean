import Wings.Firewall.Backend
import Wings.Lib.RuleChains

/-!
# Wings.Firewall.Nftables — the nftables backend

`nftables.rs` on a model of the kernel's `inet wings` table.  A script of commands is applied as a whole or not at
all.

* `renderRuleset` — the script that rebuilds the chains.
* `nftables` — the backend, and `truthful_nftables`: the chains it leaves are those of the servers it was given.
-/

namespace Wings.Firewall.Nftables

open Lib Server Filesystem List

structure SetName where
  base : SetBase
  family : AddressFamily
  deriving DecidableEq

inductive Match where
  | ctStateEstablished
  | ctStatusDnat
  | ctStatusNotDnat
  | l4proto (protocol : Protocol)
  | ctOriginalDaddr (ip : IpAddr)
  | ctOriginalProtoDst (port : BitVec 16)
  | daddr (ip : IpAddr)
  | thDport (port : BitVec 16)
  | saddr (source : IpCidr)
  | saddrSet (set : SetName)
  deriving DecidableEq

inductive Verdict where
  | ret
  | drop
  | jump (chain : ChainName)
  deriving DecidableEq

structure KernelRule where
  conditions : List Match
  verdict : Verdict
  deriving DecidableEq

/-- The table; without chains and sets it is the absent one. -/
structure Table where
  chains : RuleChains ChainName KernelRule
  sets : AList fun _ : SetName => List IpCidr

def Table.empty : Table := ⟨∅, ∅⟩

inductive Command where
  | addTable
  | deleteTable
  | chain (cmd : ChainCommand ChainName KernelRule)
  | addSet (set : SetName)
  | flushSet (set : SetName)
  | addElement (set : SetName) (entries : List IpCidr)
  | deleteSet (set : SetName)

/-- One command.  A set has to be there to be flushed or filled; the scripts below add a chain before they use it,
and delete chains and sets they saw and nothing refers to. -/
def Table.run (t : Table) : Command → Option Table
  | .addTable => some t
  | .deleteTable => some .empty
  | .chain cmd => some { t with chains := cmd.run t.chains }
  | .addSet n => some (if n ∈ t.sets then t else { t with sets := t.sets.insert n [] })
  | .flushSet n => if n ∈ t.sets then some { t with sets := t.sets.insert n [] } else none
  | .addElement n entries =>
    match t.sets.lookup n with
    | none => none
    | some old => some { t with sets := t.sets.insert n (old ++ entries) }
  | .deleteSet n => some { t with sets := t.sets.erase n }

def Table.script (t : Table) (cmds : List Command) : Option Table := cmds.foldlM Table.run t

/-! ## Scripts -/

def setNames (base : SetBase) : List SetName := [⟨base, .v4⟩, ⟨base, .v6⟩]

def flushSets (base : SetBase) : List Command := (setNames base).map .flushSet

def setDeclaration (base : SetBase) : List Command := (setNames base).map .addSet

/-- `write_elements`; entries go to the set of their family. -/
def writeElements (base : SetBase) (entries : List IpCidr) : List Command :=
  (setNames base).filterMap fun n =>
    let own := entries.filter fun e => e.family = n.family
    if own = [] then none else some (.addElement n own)

def renderDst : RuleDst → Protocol → List Match
  | .published ip port, protocol =>
    [.ctStatusDnat, .l4proto protocol] ++ ip.toList.map .ctOriginalDaddr ++ [.ctOriginalProtoDst port]
  | .container ip port, protocol => [.ctStatusNotDnat, .l4proto protocol, .daddr ip, .thDport port]

def renderSource : RuleSource → List Match
  | .any => []
  | .cidr source => [.saddr source]
  | .set name family => [.saddrSet ⟨name, family⟩]

def renderRule (rule : ConcreteRule) : KernelRule where
  conditions := renderDst rule.dst rule.protocol ++ renderSource rule.source
  verdict := match rule.action with
    | .allow => .ret
    | .deny => .drop

def renderChain (rules : List ConcreteRule) : List KernelRule :=
  ⟨[.ctStateEstablished], .ret⟩ :: rules.map renderRule

def serverCommands (e : (_ : Uuid) × List ConcreteRule) : List (ChainCommand ChainName KernelRule) :=
  .add (serverChainName e.1) :: ChainCommand.refill (serverChainName e.1) (renderChain e.2)

def dispatchRules (servers : Rules) (exemptSources : List IpCidr) : List KernelRule :=
  exemptSources.map (fun source => ⟨[.saddr source], .ret⟩) ++
    servers.keys.map fun server => ⟨[], .jump (serverChainName server)⟩

/-- The part of the ruleset after the declarations of the sets. -/
def chainCommands (servers : Rules) (exemptSources : List IpCidr) (staleChains : List ChainName) :
    List (ChainCommand ChainName KernelRule) :=
  servers.entries.flatMap serverCommands ++
    (dispatchRules servers exemptSources).map (.append .dispatch) ++ staleChains.map .delete

def renderRuleset (servers : Rules) (exemptSources : List IpCidr) (staleChains : List ChainName) : List Command :=
  .addTable ::
    if servers.entries = [] then [.deleteTable]
    else
      [.chain (.add .dispatch), .chain (.flush .dispatch)] ++
        (neededSets servers).flatMap setDeclaration ++
        (chainCommands servers exemptSources staleChains).map .chain

/-! ## The backend -/

/-- How loading a file fails: not, with the command, or because of an interval conflict; then the
flush or the second attempt may fail in turn. -/
inductive LoadFault where
  | none
  | command
  | conflict (flush reload : Bool)

structure Faults where
  declare : Bool
  list : Bool
  apply : Bool
  orphans : Bool
  load : Subpath → LoadFault

section Backend

variable (limits : SourceFileLimits) (exemptSources : List IpCidr)

def declareSets (f : Faults) (bases : List SetBase) (t : Table) : Option Table :=
  if bases = [] then some t
  else if f.declare then none
  else t.script (.addTable :: bases.flatMap setDeclaration)

/-- A command that did not fail by itself fails when its script does. -/
def commit (t : Table) (cmds : List Command) : Except LoadError Unit × Table :=
  match t.script cmds with
  | none => (.error .command, t)
  | some t' => (.ok (), t')

def loadFile (f : Faults) (load : PendingLoad) (t : Table) : Except LoadError Unit × Table :=
  match streamSourceFile limits load.file with
  | .error err => (.error err, t)
  | .ok entries =>
    match f.load load.path with
    | .none => commit t (flushSets load.set ++ writeElements load.set entries)
    | .command => (.error .command, t)
    | .conflict flush reload =>
      -- the flush has to be committed on its own before the second attempt
      if flush then (.error .command, t)
      else
        match commit t (flushSets load.set) with
        | (.error err, t) => (.error err, t)
        | (.ok _, t) =>
          if reload then (.error (.cleared .command), t)
          else
            match commit t (writeElements load.set entries) with
            | (.error err, t) => (.error (.cleared err), t)
            | (.ok _, t) => (.ok (), t)

/-- The chains of a listing that belong to no server. -/
def staleChains (servers : Rules) (existing : List ChainName) : List ChainName :=
  existing.filter fun c => c ≠ .dispatch ∧ ∀ s ∈ servers.keys, serverChainName s ≠ c

/-- The sets of a listing that no rule matches on. -/
def orphanSets (servers : Rules) (existing : List SetName) : List SetName :=
  existing.filter fun n => n.base ∉ neededSets servers

def apply (f : Faults) (servers : Rules) (t : Table) : Bool × Table :=
  let existingChains := if f.list then [] else t.chains.keys
  let existingSets := if f.list then [] else t.sets.keys
  if f.apply then (false, t)
  else
    match t.script (renderRuleset servers exemptSources (staleChains servers existingChains)) with
    | none => (false, t)
    | some t' =>
      if servers.entries = [] then (true, t')
      else if f.orphans then (true, t')
      else (true, (t'.script ((orphanSets servers existingSets).map .deleteSet)).getD t')

def nftables : Backend Table Faults where
  setsAvailable := true
  declareSets := declareSets
  loadFile := loadFile limits
  apply := apply exemptSources

end Backend

/-! ## What a script leaves of a chain -/

def Table.chain (t : Table) (c : ChainName) : Option (List KernelRule) := t.chains.lookup c

def chainAfter (c : ChainName) (o : Option (List KernelRule)) : Command → Option (List KernelRule)
  | .deleteTable => none
  | .chain cmd => cmd.effect c o
  | _ => o

variable {t t' : Table} {servers : Rules} {cmds : List Command} {stale : List ChainName} {exempt : List IpCidr}

open ChainCommand

variable {cmd : Command}

theorem chain_run (h : t.run cmd = some t') (c : ChainName) :
    t'.chain c = chainAfter c (t.chain c) cmd := by
  cases cmd with
  | chain cmd => cases h; exact lookup_run _ _ _
  | addSet n =>
    obtain rfl := Option.some.inj h
    split_ifs <;> rfl
  | flushSet n =>
    simp only [Table.run] at h
    split_ifs at h
    cases h
    rfl
  | addElement n entries =>
    simp only [Table.run] at h
    split at h <;> cases h
    rfl
  | _ => cases h; rfl

theorem chain_script (h : t.script cmds = some t')
    (c : ChainName) : t'.chain c = cmds.foldl (chainAfter c) (t.chain c) := by
  induction cmds generalizing t with
  | nil => cases h; rfl
  | cons cmd cmds ih =>
    obtain ⟨t₁, hrun, hrest⟩ := Option.bind_eq_some_iff.mp h
    rw [foldl_cons, ← chain_run hrun c]
    exact ih hrest

variable {c : ChainName}

theorem foldl_chainAfter_of_forall (h : ∀ cmd ∈ cmds, ∀ o, chainAfter c o cmd = o) (o : Option (List KernelRule)) :
    cmds.foldl (chainAfter c) o = o := by
  induction cmds with
  | nil => rfl
  | cons cmd cmds ih =>
    rw [foldl_cons, h cmd mem_cons_self]
    exact ih fun cmd' hcmd' => h cmd' (mem_cons_of_mem _ hcmd')

variable {bases : List SetBase}

theorem chainAfter_setDeclaration (o : Option (List KernelRule)) :
    (bases.flatMap setDeclaration).foldl (chainAfter c) o = o := by
  refine foldl_chainAfter_of_forall (fun cmd hcmd o => ?_) o
  simp only [mem_flatMap, setDeclaration, mem_map] at hcmd
  obtain ⟨_, _, _, _, rfl⟩ := hcmd
  rfl

theorem foldl_renderRuleset (hne : servers.entries ≠ []) (exempt : List IpCidr)
    (stale : List ChainName) (c : ChainName) (o : Option (List KernelRule)) :
    (renderRuleset servers exempt stale).foldl (chainAfter c) o =
      (chainCommands servers exempt stale).foldl (effect c) (if c = .dispatch then some [] else o) := by
  have hdispatch : chainAfter c (chainAfter c o (.chain (.add .dispatch))) (.chain (.flush .dispatch)) =
      if c = .dispatch then some [] else o := by
    simp only [chainAfter, effect, name, change, eq_comm (a := ChainName.dispatch)]
    split_ifs <;> rfl
  simp only [renderRuleset, if_neg hne, foldl_cons, foldl_append, foldl_nil, foldl_map]
  rw [show chainAfter c o .addTable = o from rfl, hdispatch, chainAfter_setDeclaration]
  rfl

/-- The commands of the servers write the chain of a name if it is the chain of one of them. -/
theorem foldl_servers (rules : List ConcreteRule) {l : List ((_ : Uuid) × List ConcreteRule)}
    (hl : ∀ e ∈ l, serverChainName e.1 = c → e.2 = rules) (o : Option (List KernelRule)) :
    (∃ e ∈ l, serverChainName e.1 = c) ∧
        (l.flatMap serverCommands).foldl (effect c) o = some (renderChain rules) ∨
      (∀ e ∈ l, serverChainName e.1 ≠ c) ∧ (l.flatMap serverCommands).foldl (effect c) o = o := by
  rw [foldl_flatMap]
  refine foldl_writers (P := fun _ => True) (fun e he hc o _ => ?_) (fun e he hc o => ?_) trivial trivial
  · rw [← hl e he hc, serverCommands, foldl_cons, hc]
    simp only [effect, name, if_true, change]
    exact foldl_refill _ _
  · refine foldl_effect_of_ne (fun cmd hcmd => ?_) o
    rcases mem_cons.mp hcmd with rfl | hcmd
    · exact hc
    · rw [name_refill hcmd]
      exact hc

theorem foldl_chainCommands (servers : Rules) (exempt : List IpCidr) (stale : List ChainName)
    (d : BitVec 48) (o : Option (List KernelRule)) :
    (chainCommands servers exempt stale).foldl (effect (.server d)) o =
      if .server d ∈ stale then none
      else (servers.entries.flatMap serverCommands).foldl (effect (.server d)) o := by
  rw [chainCommands, foldl_append, foldl_append, foldl_delete, foldl_effect_of_ne fun cmd hcmd => ?_]
  obtain ⟨_, _, rfl⟩ := mem_map.mp hcmd
  simp [name]

theorem foldl_chainCommands_dispatch (servers : Rules) (exempt : List IpCidr) (hstale : .dispatch ∉ stale) :
    (chainCommands servers exempt stale).foldl (effect .dispatch) (some []) =
      some (dispatchRules servers exempt) := by
  have hservers : (servers.entries.flatMap serverCommands).foldl (effect .dispatch)
      (some []) = some [] := by
    rcases foldl_servers (c := .dispatch) [] (fun e _ he => by cases he)
      (some []) with ⟨⟨e, _, he⟩, _⟩ | ⟨_, h⟩
    · cases he
    · exact h
  rw [chainCommands, foldl_append, foldl_append, foldl_delete, if_neg hstale,
    hservers, ChainCommand.foldl_append, nil_append]

/-! ## The promises of the backend -/

/-- The kernel shows the rules: the chain of each server with a jump to it, and no other server chain. -/
structure Shows (rules : Rules) (t : Table) : Prop where
  chain : ∀ s rs, rules.lookup s = some rs → t.chain (serverChainName s) = some (renderChain rs)
  jump : ∀ s ∈ rules, ∃ top, t.chain .dispatch = some top ∧ ⟨[], .jump (serverChainName s)⟩ ∈ top
  only : ∀ d, t.chain (.server d) ≠ none → ∃ s ∈ rules, serverDigits s = d

/-- A failed listing hides the chains to delete, so it is safe only when no server goes. -/
def Safe (f : Faults) (rules rules' : Rules) : Prop := f.list = true → ∀ s ∈ rules, s ∈ rules'

def Clean (f : Faults) : Prop := f.list = false ∧ f.apply = false

theorem Shows.of_chain {rules : Rules} (h : Shows rules t) (hc : ∀ c, t'.chain c = t.chain c) : Shows rules t' :=
  ⟨fun s rs hs => (hc _).trans (h.chain s rs hs), fun s hs => by rw [hc]; exact h.jump s hs,
    fun d hd => h.only d (hc _ ▸ hd)⟩

theorem chain_script_of_sets (h : t.script cmds = some t')
    (hsets : ∀ cmd ∈ cmds, ∀ c o, chainAfter c o cmd = o) (c : ChainName) : t'.chain c = t.chain c := by
  rw [chain_script h, foldl_chainAfter_of_forall fun cmd hcmd o => hsets cmd hcmd c o]

theorem chainAfter_flushSets {base : SetBase} (h : cmd ∈ flushSets base) (c : ChainName)
    (o : Option (List KernelRule)) : chainAfter c o cmd = o := by
  obtain ⟨_, _, rfl⟩ := mem_map.mp h
  rfl

theorem chainAfter_writeElements {base : SetBase} {entries : List IpCidr}
    (h : cmd ∈ writeElements base entries) (c : ChainName) (o : Option (List KernelRule)) :
    chainAfter c o cmd = o := by
  obtain ⟨n, _, hn⟩ := mem_filterMap.mp h
  dsimp only at hn
  split_ifs at hn
  cases hn
  rfl

theorem chain_commit (hsets : ∀ cmd ∈ cmds, ∀ c o, chainAfter c o cmd = o) (c : ChainName) :
    (commit t cmds).2.chain c = t.chain c := by
  unfold commit
  split
  · rfl
  · exact chain_script_of_sets ‹_› hsets c

theorem chain_loadFile {limits : SourceFileLimits} {f : Faults} {load : PendingLoad}
    (c : ChainName) : (loadFile limits f load t).2.chain c = t.chain c := by
  unfold loadFile
  split
  · rfl
  rename_i entries _
  have hflush : (commit t (flushSets load.set)).2.chain c = t.chain c :=
    chain_commit (fun cmd hcmd => chainAfter_flushSets hcmd) c
  have hwrite : ∀ t, (commit t (writeElements load.set entries)).2.chain c = t.chain c :=
    fun t => chain_commit (fun cmd hcmd => chainAfter_writeElements hcmd) c
  split
  · refine chain_commit (fun cmd hcmd => ?_) c
    exact (mem_append.mp hcmd).elim chainAfter_flushSets chainAfter_writeElements
  · rfl
  · split_ifs
    · rfl
    all_goals
      generalize commit t (flushSets load.set) = res at hflush ⊢
      obtain ⟨_ | _, t₁⟩ := res
      · exact hflush
    · exact hflush
    · have hwrite₁ := hwrite t₁
      dsimp only
      generalize commit t₁ (writeElements load.set entries) = res at hwrite₁ ⊢
      obtain ⟨_ | _, t₂⟩ := res <;> exact hwrite₁.trans hflush

theorem chain_declareSets {f : Faults}
    (h : declareSets f bases t = some t') (c : ChainName) : t'.chain c = t.chain c := by
  unfold declareSets at h
  split_ifs at h
  · cases h; rfl
  · rw [chain_script h, foldl_cons, chainAfter_setDeclaration]
    rfl

def Command.total : Command → Bool
  | .flushSet _ => false
  | .addElement _ _ => false
  | _ => true

theorem script_isSome (h : cmds.all Command.total = true) : (t.script cmds).isSome := by
  induction cmds generalizing t with
  | nil => rfl
  | cons cmd cmds ih =>
    rw [all_cons, Bool.and_eq_true] at h
    have hrun : ∃ t', t.run cmd = some t' := by
      cases cmd <;> first | exact ⟨_, rfl⟩ | cases h.1
    obtain ⟨t', ht'⟩ := hrun
    rw [Table.script, foldlM_cons, ht']
    exact ih h.2

theorem renderRuleset_isSome (servers : Rules) (exempt : List IpCidr) (stale : List ChainName)
    (t : Table) : (t.script (renderRuleset servers exempt stale)).isSome := by
  refine script_isSome ?_
  unfold renderRuleset
  split_ifs
  · rfl
  · simp [setDeclaration, setNames, Command.total]

theorem chain_deleteSets (t : Table) (names : List SetName) (c : ChainName) :
    ((t.script (names.map .deleteSet)).getD t).chain c = t.chain c := by
  cases hs : t.script (names.map .deleteSet) with
  | none => rfl
  | some t' =>
    refine chain_script_of_sets hs (fun cmd hcmd c o => ?_) c
    obtain ⟨_, _, rfl⟩ := mem_map.mp hcmd
    rfl

theorem apply_spec (exempt : List IpCidr) (f : Faults) (servers : Rules) (t : Table) :
    f.apply = true ∧ apply exempt f servers t = (false, t) ∨
      f.apply = false ∧ (apply exempt f servers t).1 = true ∧
        ∃ t', t.script (renderRuleset servers exempt
            (staleChains servers (if f.list then [] else t.chains.keys))) = some t' ∧
          ∀ c, (apply exempt f servers t).2.chain c = t'.chain c := by
  obtain ⟨t', ht'⟩ := Option.isSome_iff_exists.mp (renderRuleset_isSome servers exempt
    (staleChains servers (if f.list then [] else t.chains.keys)) t)
  unfold apply
  cases hf : f.apply with
  | true => exact .inl ⟨rfl, rfl⟩
  | false =>
    refine .inr ⟨rfl, ?_⟩
    simp only [Bool.false_eq_true, if_false, ht']
    split_ifs
    · exact ⟨rfl, t', rfl, fun c => rfl⟩
    · exact ⟨rfl, t', rfl, fun c => rfl⟩
    all_goals exact ⟨rfl, t', rfl, fun c => chain_deleteSets t' _ c⟩

theorem mem_of_mem_entries {e : (_ : Uuid) × List ConcreteRule} (he : e ∈ servers.entries) :
    e.1 ∈ servers := AList.mem_keys.mpr (mem_map_of_mem he)

theorem chain_renderRuleset (hdistinct : Distinct servers)
    (h : t.script (renderRuleset servers exempt stale) = some t')
    {s : Uuid} {rs : List ConcreteRule} (hs : servers.lookup s = some rs) (hstale : serverChainName s ∉ stale) :
    t'.chain (serverChainName s) = some (renderChain rs) := by
  have hentry : ⟨s, rs⟩ ∈ servers.entries := AList.mem_lookup_iff.mp hs
  have hown : ∀ e ∈ servers.entries, serverChainName e.1 = .server (serverDigits s) → e.2 = rs := by
    intro e he hname
    have hes : e.1 = s := hdistinct e.1 (mem_of_mem_entries he) s (mem_of_mem_entries hentry) (ChainName.server.inj hname)
    have hlookup : servers.lookup e.1 = some e.2 := AList.mem_lookup_iff.mpr he
    rw [hes, hs] at hlookup
    exact (Option.some.inj hlookup).symm
  rw [serverChainName] at hstale ⊢
  rw [chain_script h, foldl_renderRuleset (ne_nil_of_mem hentry), foldl_chainCommands, if_neg hstale]
  rcases foldl_servers rs hown (t.chain (.server (serverDigits s))) with ⟨_, h⟩ | ⟨hno, _⟩
  · exact h
  · exact absurd rfl (hno ⟨s, rs⟩ hentry)

theorem dispatch_renderRuleset (hne : servers.entries ≠ [])
    (h : t.script (renderRuleset servers exempt stale) = some t')
    (hdispatch : .dispatch ∉ stale) : t'.chain .dispatch = some (dispatchRules servers exempt) := by
  rw [chain_script h, foldl_renderRuleset hne, if_pos rfl, foldl_chainCommands_dispatch servers exempt hdispatch]

/-- The chains after a ruleset that was applied with the right chains to delete. -/
theorem shows_of_renderRuleset (hdistinct : Distinct servers)
    (h : t.script (renderRuleset servers exempt stale) = some t')
    (hstale : ∀ d, .server d ∈ stale ↔ t.chain (.server d) ≠ none ∧ ∀ s ∈ servers, serverDigits s ≠ d)
    (hdispatch : .dispatch ∉ stale) : Shows servers t' := by
  by_cases hne : servers.entries = []
  · have hnone : ∀ s, s ∉ servers := by
      intro s hs
      rw [AList.mem_keys, AList.keys, hne] at hs
      cases hs
    refine ⟨fun s rs hs => ?_, fun s hs => absurd hs (hnone s), fun d hd => ?_⟩
    · exact absurd (AList.lookup_isSome.mp (by rw [hs]; rfl)) (hnone s)
    · rw [chain_script h, renderRuleset, if_pos hne] at hd
      exact absurd rfl hd
  · refine ⟨fun s rs hs => ?_, fun s hs => ?_, fun d hd => ?_⟩
    · refine chain_renderRuleset hdistinct h hs fun hd => ((hstale _).mp hd).2 s ?_ rfl
      exact AList.lookup_isSome.mp (by rw [hs]; rfl)
    · refine ⟨dispatchRules servers exempt, dispatch_renderRuleset hne h hdispatch, mem_append_right _ ?_⟩
      exact mem_map_of_mem (AList.mem_keys.mp hs)
    · -- a chain that is left was written, or is neither stale nor new
      by_contra hno
      simp only [not_exists, not_and] at hno
      have hother : ∀ e ∈ servers.entries, serverChainName e.1 ≠ .server d :=
        fun e he hname => hno e.1 (mem_of_mem_entries he) (ChainName.server.inj hname)
      rw [chain_script h, foldl_renderRuleset hne, if_neg nofun, foldl_chainCommands] at hd
      split_ifs at hd with hmem'
      · exact hd rfl
      · rcases foldl_servers [] (fun e he hname => absurd hname (hother e he))
          (t.chain (.server d)) with ⟨⟨e, he, hname⟩, _⟩ | ⟨_, h⟩
        · exact hother e he hname
        · rw [h] at hd
          exact hmem' ((hstale d).mpr ⟨hd, hno⟩)

theorem mem_staleChains {existing : List ChainName} {d : BitVec 48} :
    .server d ∈ staleChains servers existing ↔ .server d ∈ existing ∧ ∀ s ∈ servers, serverDigits s ≠ d := by
  simp [staleChains, serverChainName, AList.mem_keys]

theorem truthful_nftables (limits : SourceFileLimits) (exempt : List IpCidr) :
    Truthful (nftables limits exempt) Shows Safe Clean := by
  refine truthful_of_apply (fun hshows hdeclare => hshows.of_chain (chain_declareSets hdeclare))
    (fun hshows => hshows.of_chain chain_loadFile) fun {f r r' t} hshows hdistinct hsafe => ?_
  obtain ⟨hf, happ⟩ | ⟨hf, hok, t', ht', hchain⟩ := apply_spec exempt f r' t
  · exact .inl ⟨fun hclean => absurd (hclean.2.symm.trans hf) Bool.false_ne_true, happ⟩
  refine .inr ⟨hok, (shows_of_renderRuleset hdistinct ht' (fun d => ?_) (by simp [staleChains])).of_chain hchain⟩
  rw [mem_staleChains]
  refine and_congr_left fun hd => ?_
  cases hlist : f.list with
  | false => simp [Table.chain, AList.lookup_eq_none, AList.mem_keys]
  | true =>
    simp only [if_true, not_mem_nil, false_iff, not_not]
    by_contra hne
    obtain ⟨s, hs, hsd⟩ := hshows.only d hne
    rcases hsafe with hsafe | hclean
    · exact hd s (hsafe hlist s hs) hsd
    · rw [hclean.1] at hlist
      cases hlist

/-! ## Installed rules -/

def Bare (t : Table) : Prop := ∀ d, t.chain (.server d) = none

/-- The chain of the server has these rules and packets get to it; without rules there is no chain. -/
def Installed (t : Table) (server : Uuid) (rules : List ConcreteRule) : Prop :=
  if rules = [] then t.chain (serverChainName server) = none
  else t.chain (serverChainName server) = some (renderChain rules) ∧
    ∃ top, t.chain .dispatch = some top ∧ ⟨[], .jump (serverChainName server)⟩ ∈ top

theorem shows_of_bare (h : Bare t) : Shows ∅ t :=
  ⟨nofun, fun s hs => absurd hs (AList.notMem_empty s), fun d hd => absurd (h d) hd⟩

theorem installed_of_shows {rules : Rules} {server : Uuid} (h : Shows rules t)
    (hserver : ∀ s ∈ rules, serverDigits s = serverDigits server → s = server)
    (hne : rules.lookup server ≠ some []) : Installed t server ((rules.lookup server).getD []) := by
  cases hl : rules.lookup server with
  | none =>
    by_contra hchain
    obtain ⟨s, hs, hdigits⟩ := h.only _ hchain
    rw [hserver s hs hdigits] at hs
    exact AList.lookup_eq_none.mp hl hs
  | some rs =>
    have hrs : rs ≠ [] := fun hnil => hne (by rw [hl, hnil])
    rw [Option.getD_some, Installed, if_neg hrs]
    exact ⟨h.chain server rs hl, h.jump server (AList.lookup_isSome.mp (by rw [hl]; rfl))⟩

end Wings.Firewall.Nftables
