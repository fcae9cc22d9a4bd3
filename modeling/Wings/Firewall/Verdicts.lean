import Wings.Firewall.Iptables
import Wings.Firewall.Nftables
import Wings.Lib.PacketFilter

/-!
# Wings.Firewall.Verdicts — what the rules of both backends do to a packet

The ruleset of nftables holds the rules of both families in one table; iptables has a restore file for each family,
with the rules of that family only.

* `Nftables.dropped`, `Iptables.dropped` — a packet in the chains of a backend.
* **`backends_same_verdict`**
-/

namespace Wings.Firewall

open Lib Server Filesystem PacketFilter

/-! ## Packets -/

def IpAddr.family : IpAddr → AddressFamily
  | .v4 _ => .v4
  | .v6 _ => .v6

/-- The network part of the address is that of the network. -/
def IpCidr.contains : IpCidr → IpAddr → Bool
  | .v4 addr len, .v4 ip => addr >>> (32 - len) = ip >>> (32 - len)
  | .v6 addr len, .v6 ip => addr >>> (128 - len) = ip >>> (128 - len)
  | _, _ => false

/-- A packet with its connection; of the protocols other than TCP and UDP nothing is matched. -/
structure Packet where
  family : AddressFamily
  protocol : Option Protocol
  source : IpAddr
  destination : IpAddr
  port : BitVec 16
  originalDestination : IpAddr
  originalPort : BitVec 16
  dnat : Bool
  established : Bool
  source_family : source.family = family
  destination_family : destination.family = family
  original_family : originalDestination.family = family

abbrev Contents := SetBase → AddressFamily → List IpCidr

section Concrete

variable (contents : Contents) (packet : Packet)

def RuleDst.matches : RuleDst → Bool
  | .published ip port => packet.dnat && ip.all (· = packet.originalDestination) && port = packet.originalPort
  | .container ip port => !packet.dnat && ip = packet.destination && port = packet.port

def inSet (name : SetBase) (family : AddressFamily) : Bool :=
  family = packet.family && (contents name family).any (·.contains packet.source)

def RuleSource.matches : RuleSource → Bool
  | .any => true
  | .cidr source => source.contains packet.source
  | .set name family => inSet contents packet name family

def ConcreteRule.matches (rule : ConcreteRule) : Bool :=
  packet.protocol = some rule.protocol && rule.dst.matches packet && rule.source.matches contents packet

end Concrete

/-! ## Chains of a backend -/

namespace Nftables

variable (contents : Contents) (packet : Packet)

def Match.holds : Match → Bool
  | .ctStateEstablished => packet.established
  | .ctStatusDnat => packet.dnat
  | .ctStatusNotDnat => !packet.dnat
  | .l4proto protocol => packet.protocol = some protocol
  | .ctOriginalDaddr ip => ip = packet.originalDestination
  | .ctOriginalProtoDst port => port = packet.originalPort
  | .daddr ip => ip = packet.destination
  | .thDport port => port = packet.port
  | .saddr source => source.contains packet.source
  | .saddrSet set => inSet contents packet set.base set.family

def KernelRule.applies (rule : KernelRule) : Bool := rule.conditions.all (·.holds contents packet)

def KernelRule.target (rule : KernelRule) : Target ChainName :=
  match rule.verdict with
  | .ret => .ret
  | .drop => .drop
  | .jump chain => .jump chain

def dropped (t : Table) (depth : ℕ) : Bool :=
  PacketFilter.drops (KernelRule.applies contents packet) KernelRule.target t.chain depth .dispatch

end Nftables

namespace Iptables

variable (contents : Contents) (packet : Packet)

/-- A rule names no shadow set. -/
def Match.holds : Match → Bool
  | .protocol p => packet.protocol = some p
  | .ctStateEstablished => packet.established
  | .ctStateDnat => packet.dnat
  | .ctStateNotDnat => !packet.dnat
  | .ctOrigDst ip => ip = packet.originalDestination
  | .ctOrigDstPort port => port = packet.originalPort
  | .destination ip => ip = packet.destination
  | .dport port => port = packet.port
  | .source s => s.contains packet.source
  | .matchSet set => inSet contents packet set.base set.family

def KernelRule.applies (rule : KernelRule) : Bool := rule.conditions.all (·.holds contents packet)

def KernelRule.verdict (rule : KernelRule) : Lib.Target ChainName :=
  match rule.target with
  | .ret => .ret
  | .drop => .drop
  | .jump chain => .jump chain

/-- Whether the chains of the family of a packet drop it, from the dispatching chain on. -/
def dropped (chains : RuleChains ChainName KernelRule) (depth : ℕ) : Bool :=
  PacketFilter.drops (KernelRule.applies contents packet) KernelRule.verdict chains.lookup depth .dispatch

end Iptables

/-! ## What the rules say -/

section Spec

variable (entries : Subpath → List IpCidr) (packet : Packet)

/-- The source is one of the sources, or in the source file; a rule with neither matches every source. -/
def Rule.SourceMatches (rule : Rule) : Prop :=
  (rule.sources = [] ∧ rule.sourceFile = none) ∨ (∃ source ∈ rule.sources, source.contains packet.source = true) ∨
    ∃ file, rule.sourceFile = some file ∧ ∃ source ∈ entries (sourceFilePath file), source.contains packet.source = true

/-- A rule matches a packet by protocol, port, a binding or a container address, and sources or source file. -/
structure Rule.Matches (spec : Spec) (rule : Rule) : Prop where
  protocol : ∃ protocol, packet.protocol = some protocol ∧ (rule.protocols = [] ∨ protocol ∈ rule.protocols)
  destination :
    (packet.dnat = true ∧ ∃ binding ∈ spec.bindings, rule.matchesPort binding.port = true ∧
        (binding.ip = none ∨ binding.ip = some packet.originalDestination) ∧ binding.port = packet.originalPort) ∨
      (packet.dnat = false ∧ packet.port ∈ spec.containerPorts ∧ rule.matchesPort packet.port = true ∧
        packet.destination ∈ spec.containerIps)
  source : rule.SourceMatches entries packet

end Spec

/-- The first rule that matches denies the packet. -/
def Denies (entries : Subpath → List IpCidr) (packet : Packet) (spec : Spec) : Prop :=
  ∃ before rule after, spec.rules = before ++ rule :: after ∧ rule.Matches entries packet spec ∧ rule.action = .deny ∧
    ∀ earlier ∈ before, ¬ earlier.Matches entries packet spec

/-! ## One rule -/

open List

section Rules

variable {contents : Contents} {packet : Packet} (rule : ConcreteRule)

def RuleAction.isDeny : RuleAction → Bool
  | .deny => true
  | .allow => false

theorem Nftables.applies_renderRule : (renderRule rule).applies contents packet = rule.matches contents packet := by
  obtain ⟨protocol, dst, source, action⟩ := rule
  have hdst : (renderDst dst protocol).all (·.holds contents packet) =
      (decide (packet.protocol = some protocol) && dst.matches packet) := by
    cases dst with
    | published ip port => cases ip <;> simp [renderDst, Match.holds, RuleDst.matches] <;> ac_rfl
    | container ip port => simp [renderDst, Match.holds, RuleDst.matches]; ac_rfl
  have hsource : (renderSource source).all (·.holds contents packet) = source.matches contents packet := by
    cases source <;> simp [renderSource, Match.holds, RuleSource.matches]
  rw [KernelRule.applies, renderRule, all_append, hdst, hsource, ConcreteRule.matches]

theorem Nftables.target_renderRule : (renderRule rule).target = if rule.action.isDeny then .drop else .ret := by
  obtain ⟨_, _, _, _ | _⟩ := rule <;> rfl

theorem Iptables.applies_renderRule : (renderRule rule).applies contents packet = rule.matches contents packet := by
  obtain ⟨protocol, dst, source, action⟩ := rule
  have hdst : (renderDst dst).all (·.holds contents packet) = dst.matches packet := by
    cases dst with
    | published ip port =>
      cases ip <;> simp [renderDst, Match.holds, RuleDst.matches]
      ac_rfl
    | container ip port => simp [renderDst, Match.holds, RuleDst.matches]; ac_rfl
  have hsource : (renderSource source).all (·.holds contents packet) = source.matches contents packet := by
    cases source <;> simp [renderSource, Match.holds, RuleSource.matches]
  rw [KernelRule.applies, renderRule, all_append, all_cons, hdst, hsource]
  rfl

theorem Iptables.verdict_renderRule : (renderRule rule).verdict = if rule.action.isDeny then .drop else .ret := by
  obtain ⟨_, _, _, _ | _⟩ := rule <;> rfl

theorem familyMatches_family (ip : IpAddr) : familyMatches ip.family (some ip) = true := by cases ip <;> rfl

theorem IpCidr.family_of_contains {source : IpCidr} {ip : IpAddr} (h : source.contains ip = true) :
    source.family = ip.family := by
  cases source <;> cases ip <;> first | rfl | cases h

theorem familyMatches_of_matches {dst : RuleDst} (h : dst.matches packet = true) :
    familyMatches packet.family dst.ip = true := by
  cases dst with
  | published ip port =>
    cases ip with
    | none => rfl
    | some ip =>
      simp only [RuleDst.matches, Option.all_some, Bool.and_eq_true, decide_eq_true_eq] at h
      rw [← packet.original_family, ← h.1.2]
      exact familyMatches_family ip
  | container ip port =>
    simp only [RuleDst.matches, Bool.and_eq_true, decide_eq_true_eq] at h
    rw [← packet.destination_family, ← h.1.2]
    exact familyMatches_family ip

theorem ConcreteRule.applies_of_matches {rule : ConcreteRule} (h : rule.matches contents packet = true) :
    rule.applies packet.family = true := by
  obtain ⟨protocol, dst, source, action⟩ := rule
  rw [ConcreteRule.matches, Bool.and_eq_true, Bool.and_eq_true] at h
  obtain ⟨⟨-, hdst⟩, hsource⟩ := h
  rw [applies, Bool.and_eq_true]
  refine ⟨familyMatches_of_matches hdst, ?_⟩
  cases source with
  | any => rfl
  | cidr source => exact decide_eq_true ((IpCidr.family_of_contains hsource).trans packet.source_family)
  | set name family => exact (Bool.and_eq_true_iff.mp hsource).1

end Rules

/-! ## Chains -/

section Chains

variable {contents : Contents} {packet : Packet}

/-- What the concrete rules of a server do to a packet that is not established. -/
def deniedBy (contents : Contents) (packet : Packet) (rules : List ConcreteRule) : Bool :=
  (rules.find? (·.matches contents packet)).any (·.action.isDeny)

theorem Iptables.deniedBy_liveRules (rules : List ConcreteRule) :
    deniedBy contents packet (liveRules packet.family true rules) = deniedBy contents packet rules := by
  have hlive : liveRules packet.family true rules = rules.filter (·.applies packet.family) :=
    filter_eq_self.mpr fun _ _ => rfl
  rw [deniedBy, hlive, find?_filter]
  refine congrArg (fun p => (find? p rules).any _) (funext fun rule => ?_)
  cases hmatch : rule.matches contents packet with
  | false => simp
  | true => simp [ConcreteRule.applies_of_matches hmatch]

def isExempt (exemptSources : List IpCidr) (packet : Packet) : Bool := exemptSources.any (·.contains packet.source)

/-- What both backends come to: some server denies the packet. -/
def deniedByServers (contents : Contents) (packet : Packet) (servers : Rules) (exemptSources : List IpCidr) : Bool :=
  !isExempt exemptSources packet && !packet.established && servers.entries.any fun e => deniedBy contents packet e.2

variable {exemptSources : List IpCidr}

theorem Nftables.dropped_eq {t : Table} {servers : Rules} {depth : ℕ}
    (hdispatch : t.chain .dispatch = some (dispatchRules servers exemptSources))
    (hchain : ∀ e ∈ servers.entries, t.chain (serverChainName e.1) = some (renderChain e.2)) (hdepth : 2 ≤ depth) :
    dropped contents packet t depth = deniedByServers contents packet servers exemptSources := by
  rw [dispatchRules, AList.keys, keys, map_map] at hdispatch
  rw [dropped, drops_dispatch applies_renderRule target_renderRule rfl hdispatch (forall_mem_map.mpr fun _ _ => rfl)
    (fun _ => rfl) (fun _ => rfl) hchain hdepth, any_map, deniedByServers]
  simp [isExempt, deniedBy, Function.comp_def, KernelRule.applies, Match.holds]

theorem Iptables.any_live (servers : Rules) :
    ((live servers packet.family true).any fun e => deniedBy contents packet e.2) =
      servers.entries.any fun e => deniedBy contents packet e.2 := by
  rw [live, any_filterMap]
  refine congrArg servers.entries.any (funext fun e => ?_)
  rw [← deniedBy_liveRules e.2]
  split
  next hlive =>
    split_ifs at hlive
    rw [← Option.some.inj hlive]
  next hlive =>
    split_ifs at hlive with hnil
    rw [hnil]
    rfl

theorem Iptables.any_exempt (exemptSources : List IpCidr) :
    ((exemptSources.filter fun source => source.family = packet.family).any fun source => source.contains packet.source) =
      isExempt exemptSources packet := by
  rw [any_filter]
  refine congrArg exemptSources.any (funext fun source => ?_)
  cases hcontains : source.contains packet.source with
  | false => exact Bool.and_false _
  | true =>
    rw [Bool.and_true]
    exact decide_eq_true ((IpCidr.family_of_contains hcontains).trans packet.source_family)

theorem Iptables.dropped_eq {chains : RuleChains ChainName KernelRule} {servers : Rules}
    {depth : ℕ} (hdispatch : chains.lookup .dispatch =
      some (dispatchRules exemptSources packet.family (live servers packet.family true)))
    (hchain : ∀ e ∈ live servers packet.family true, chains.lookup e.1 = some (renderChain e.2)) (hdepth : 2 ≤ depth) :
    dropped contents packet chains depth = deniedByServers contents packet servers exemptSources := by
  rw [dropped, drops_dispatch applies_renderRule verdict_renderRule rfl hdispatch ?_ (fun _ => rfl)
    (fun _ => rfl) hchain hdepth,
    deniedByServers, ← any_live, ← any_exempt]
  · split_ifs with hlive
    · simp [hlive]
    · simp [deniedBy, Function.comp_def, KernelRule.applies, Match.holds]
  · split_ifs
    · exact forall_mem_nil _
    · exact forall_mem_map.mpr fun _ _ => rfl

end Chains

/-! ## The rules of a user -/

section Expansion

variable {digest : Subpath → BitVec 32} {contents : Contents} {entries : Subpath → List IpCidr} {packet : Packet}
  {server : Uuid} {spec : Spec} {rule : Rule}

/-- The sets of the source file of a rule hold the entries of the file, by their family. -/
def SetsHold (digest : Subpath → BitVec 32) (contents : Contents) (entries : Subpath → List IpCidr)
    (server : Uuid) (rule : Rule) : Prop :=
  ∀ file, rule.sourceFile = some file → ∀ family,
    contents (setBaseName digest server (sourceFilePath file)) family =
      (entries (sourceFilePath file)).filter fun entry => entry.family = family

section

variable (hsets : SetsHold digest contents entries server rule)
include hsets

theorem inSet_iff {file : Path} (hfile : rule.sourceFile = some file) :
    inSet contents packet (setBaseName digest server (sourceFilePath file)) packet.family = true ↔
      ∃ source ∈ entries (sourceFilePath file), source.contains packet.source = true := by
  rw [inSet, decide_eq_true rfl, Bool.true_and, hsets file hfile, any_filter, any_eq_true]
  refine exists_congr fun source => and_congr_right fun _ => ?_
  rw [Bool.and_eq_true, decide_eq_true_eq]
  exact and_iff_right_of_imp fun h => (IpCidr.family_of_contains h).trans packet.source_family

theorem exists_expandedSources {dst : RuleDst} (hdst : dst.matches packet = true) :
    (∃ source ∈ rule.expandedSources digest server dst, source.matches contents packet = true) ↔
      rule.SourceMatches entries packet := by
  have hfamily := familyMatches_of_matches hdst
  rw [Rule.expandedSources]
  split
  next hany => exact iff_of_true ⟨.any, mem_singleton_self _, rfl⟩ (.inl hany)
  next hany =>
    have hcidr : (∃ source ∈ (rule.sources.filter fun source => familyMatches source.family dst.ip).map RuleSource.cidr,
        source.matches contents packet = true) ↔ ∃ source ∈ rule.sources, source.contains packet.source = true := by
      simp only [mem_map, exists_exists_and_eq_and]
      refine exists_congr fun source => ?_
      rw [mem_filter, and_assoc]
      refine and_congr_right fun _ => and_iff_right_of_imp fun h => ?_
      rw [(IpCidr.family_of_contains h).trans packet.source_family]
      exact hfamily
    simp only [mem_append, or_and_right, exists_or, hcidr]
    rw [Rule.SourceMatches, or_iff_right hany]
    refine or_congr_right ?_
    cases hfile : rule.sourceFile with
    | none => exact iff_of_false (by simp) (by simp)
    | some file =>
      simp only [mem_map, exists_exists_and_eq_and]
      constructor
      · rintro ⟨family, -, hmatch⟩
        obtain rfl : family = packet.family := of_decide_eq_true (Bool.and_eq_true_iff.mp hmatch).1
        exact ⟨file, rfl, (inSet_iff hsets hfile).mp hmatch⟩
      · rintro ⟨file', hfile', hentry⟩
        obtain rfl := Option.some.inj hfile'
        refine ⟨packet.family, mem_filter.mpr ⟨?_, hfamily⟩, (inSet_iff hsets hfile).mpr hentry⟩
        cases packet.family <;> simp

end

theorem published_matches_iff {ip : Option IpAddr} {port : BitVec 16} :
    (RuleDst.published ip port).matches packet = true ↔
      packet.dnat = true ∧ (ip = none ∨ ip = some packet.originalDestination) ∧ port = packet.originalPort := by
  cases ip <;> simp [RuleDst.matches, and_assoc]

theorem container_matches_iff {ip : IpAddr} {port : BitVec 16} :
    (RuleDst.container ip port).matches packet = true ↔
      packet.dnat = false ∧ ip = packet.destination ∧ port = packet.port := by
  simp [RuleDst.matches, and_assoc]

theorem mem_expandedProtocols {protocol : Protocol} :
    protocol ∈ rule.expandedProtocols ↔ rule.protocols = [] ∨ protocol ∈ rule.protocols := by
  rw [Rule.expandedProtocols, mem_filter, decide_eq_true_eq]
  exact and_iff_right (by cases protocol <;> decide)

theorem exists_mem_flatMap {α : Type} {p : ConcreteRule → Prop} (l : List α) (f : α → List ConcreteRule) :
    (∃ concrete ∈ l.flatMap f, p concrete) ↔ ∃ a ∈ l, ∃ concrete ∈ f a, p concrete := by
  simp only [mem_flatMap]
  tauto

theorem exists_expand (hsets : SetsHold digest contents entries spec.server rule) :
    (∃ concrete ∈ rule.expand digest spec, concrete.matches contents packet = true) ↔
    rule.Matches entries packet spec := by
  have hone (protocol : Protocol) (dst : RuleDst) :
      (∃ concrete ∈ rule.expandSources digest spec.server protocol dst, concrete.matches contents packet = true) ↔
        packet.protocol = some protocol ∧ dst.matches packet = true ∧ rule.SourceMatches entries packet := by
    simp only [Rule.expandSources, mem_map, exists_exists_and_eq_and, ConcreteRule.matches, Bool.and_eq_true,
      decide_eq_true_eq]
    constructor
    · rintro ⟨source, hmem, ⟨hprotocol, hdst⟩, hsource⟩
      exact ⟨hprotocol, hdst, (exists_expandedSources hsets hdst).mp ⟨source, hmem, hsource⟩⟩
    · rintro ⟨hprotocol, hdst, hmatches⟩
      obtain ⟨source, hmem, hsource⟩ := (exists_expandedSources hsets hdst).mpr hmatches
      exact ⟨source, hmem, ⟨hprotocol, hdst⟩, hsource⟩
  simp only [Rule.expand, mem_append, or_and_right, exists_or]
  simp only [exists_mem_flatMap, hone, mem_filter, mem_expandedProtocols, published_matches_iff, container_matches_iff]
  constructor
  · rintro (⟨binding, ⟨hbinding, hport⟩, protocol, hprotocols, hprotocol, ⟨hdnat, hip, horiginal⟩, hsource⟩ |
      ⟨_, ⟨hports, hport⟩, _, hips, protocol, hprotocols, hprotocol, ⟨hdnat, rfl, rfl⟩, hsource⟩)
    · exact ⟨⟨protocol, hprotocol, hprotocols⟩, .inl ⟨hdnat, binding, hbinding, hport, hip, horiginal⟩, hsource⟩
    · exact ⟨⟨protocol, hprotocol, hprotocols⟩, .inr ⟨hdnat, hports, hport, hips⟩, hsource⟩
  · rintro ⟨⟨protocol, hprotocol, hprotocols⟩, ⟨hdnat, binding, hbinding, hport, hip, horiginal⟩ |
      ⟨hdnat, hports, hport, hips⟩, hsource⟩
    · exact .inl ⟨binding, ⟨hbinding, hport⟩, protocol, hprotocols, hprotocol, ⟨hdnat, hip, horiginal⟩, hsource⟩
    · exact .inr ⟨_, ⟨hports, hport⟩, _, hips, protocol, hprotocols, hprotocol, ⟨hdnat, rfl, rfl⟩, hsource⟩

theorem action_of_mem_expand {concrete : ConcreteRule} (h : concrete ∈ rule.expand digest spec) :
    concrete.action = rule.action := by
  simp only [Rule.expand, Rule.expandSources, mem_append, mem_flatMap, mem_map] at h
  rcases h with ⟨_, _, _, _, _, _, rfl⟩ | ⟨_, _, _, _, _, _, _, _, rfl⟩
  · rfl
  · rfl

/-- The first match among the concrete rules is one of the first rule that matches. -/
theorem deniedBy_flatMap_iff {rules : List Rule}
    (hsets : ∀ rule ∈ rules, SetsHold digest contents entries spec.server rule) :
    deniedBy contents packet (rules.flatMap fun rule => rule.expand digest spec) = true ↔
      ∃ before rule after, rules = before ++ rule :: after ∧ rule.Matches entries packet spec ∧ rule.action = .deny ∧
        ∀ earlier ∈ before, ¬ earlier.Matches entries packet spec := by
  classical
  have hdenied : deniedBy contents packet (rules.flatMap fun rule => rule.expand digest spec) =
      (rules.find? (decide <| ·.Matches entries packet spec)).any (·.action.isDeny) := by
    induction rules with
    | nil => rfl
    | cons first rules ih =>
      obtain ⟨hfirst, hrest⟩ := forall_mem_cons.mp hsets
      rw [deniedBy, flatMap_cons, find?_append, find?_cons]
      cases hfind : (first.expand digest spec).find? (·.matches contents packet) with
      | some concrete =>
        have hmem := mem_of_find?_eq_some hfind
        have hmatches := (exists_expand hfirst).mp ⟨concrete, hmem, find?_some hfind⟩
        rw [decide_eq_true hmatches, Option.some_or, Option.any_some, action_of_mem_expand hmem]
        rfl
      | none =>
        have hno : ¬ first.Matches entries packet spec := by
          intro hmatches
          obtain ⟨concrete, hmem, hconcrete⟩ := (exists_expand hfirst).mpr hmatches
          exact find?_eq_none.mp hfind concrete hmem hconcrete
        rw [decide_eq_false hno]
        exact ih hrest
  have hdeny (action : RuleAction) : action.isDeny = true ↔ action = .deny := by cases action <;> decide
  simp only [hdenied, Option.any_eq_true, find?_eq_some_iff_append, hdeny, decide_eq_true_eq, Bool.not_eq_true',
    decide_eq_false_iff_not]
  constructor
  · rintro ⟨rule, ⟨hrule, before, after, hrules, hbefore⟩, haction⟩
    exact ⟨before, rule, after, hrules, hrule, haction, hbefore⟩
  · rintro ⟨before, rule, after, hrules, hrule, haction, hbefore⟩
    exact ⟨rule, ⟨hrule, before, after, hrules, hbefore⟩, haction⟩

end Expansion

/-! ## Both backends -/

def chainNames (specs : List Spec) : List ChainName := (specs.map Spec.server).map serverChainName

/-- The concrete rules of servers with different names. -/
def rulesOf (digest : Subpath → BitVec 32) (specs : List Spec) (hnames : (chainNames specs).Nodup) : Rules where
  entries := specs.map fun spec => ⟨spec.server, expandRules digest spec⟩
  nodupKeys := by
    rw [List.NodupKeys, List.keys, List.map_map]
    exact hnames.of_map _

theorem distinct_rulesOf (digest : Subpath → BitVec 32) {specs : List Spec} (hnames : (chainNames specs).Nodup) :
    Distinct (rulesOf digest specs hnames) := by
  have hkeys (s) (hs : s ∈ rulesOf digest specs hnames) : s ∈ specs.map Spec.server := by
    rw [AList.mem_keys, AList.keys, keys, rulesOf, map_map] at hs
    exact hs
  intro s hs s' hs' hdigits
  exact inj_on_of_nodup_map hnames (hkeys s hs) (hkeys s' hs') (congrArg ChainName.server hdigits)

theorem Nftables.dropped_renderRuleset {servers : Rules} (hdistinct : Distinct servers) {contents : Contents}
    {packet : Packet}
    {exemptSources : List IpCidr} {existing : List ChainName} {t t' : Table}
    (h : t.script (renderRuleset servers exemptSources (staleChains servers existing)) = some t') {depth : ℕ}
    (hdepth : 2 ≤ depth) :
    dropped contents packet t' depth = deniedByServers contents packet servers exemptSources := by
  by_cases hne : servers.entries = []
  · -- the table was deleted
    have hnone : t'.chain .dispatch = none := by
      rw [chain_script h, renderRuleset, if_pos hne]
      rfl
    obtain ⟨depth, rfl⟩ := Nat.exists_eq_add_of_le' hdepth
    rw [dropped, drops, hnone, deniedByServers, hne, any_nil, Bool.and_false]
    rfl
  · refine dropped_eq (dispatch_renderRuleset hne h ?_) (fun e he => ?_) hdepth
    · simp [staleChains]
    · refine chain_renderRuleset hdistinct h (AList.mem_lookup_iff.mpr he) fun hstale => ?_
      have hother := (of_decide_eq_true (mem_filter.mp hstale).2).2
      exact hother e.1 (mem_of_mem_entries he) rfl

/-- **Both backends give the same verdict**, and drop a packet exactly if it is from no exempt source, not
established, and the first rule of some server that matches it denies it.  What was in the kernel before makes no
difference. -/
theorem backends_same_verdict (digest : Subpath → BitVec 32) (specs : List Spec) (hnames : (chainNames specs).Nodup)
    (exemptSources : List IpCidr) (contents : Contents) (entries : Uuid → Subpath → List IpCidr)
    (hsets : ∀ spec ∈ specs, ∀ rule ∈ spec.rules, SetsHold digest contents (entries spec.server) spec.server rule)
    (packet : Packet) (t : Nftables.Table) (existing : List ChainName) (chains : RuleChains ChainName Iptables.KernelRule)
    {stale : List ChainName} (hstale : .dispatch ∉ stale) {depth : ℕ} (hdepth : 2 ≤ depth) :
    ∃ t' : Nftables.Table, t.script (Nftables.renderRuleset (rulesOf digest specs hnames) exemptSources
        (Nftables.staleChains (rulesOf digest specs hnames) existing)) = some t' ∧
      Nftables.dropped contents packet t' depth =
        Iptables.dropped contents packet (ChainCommand.runAll chains
          (Iptables.renderRestoreFile (rulesOf digest specs hnames) exemptSources stale packet.family true)) depth ∧
      (Nftables.dropped contents packet t' depth = true ↔
        isExempt exemptSources packet = false ∧ packet.established = false ∧
          ∃ spec ∈ specs, Denies (entries spec.server) packet spec) := by
  have hdistinct := distinct_rulesOf digest hnames
  obtain ⟨t', ht'⟩ := Option.isSome_iff_exists.mp (Nftables.renderRuleset_isSome (rulesOf digest specs hnames)
    exemptSources (Nftables.staleChains (rulesOf digest specs hnames) existing) t)
  have hnft : Nftables.dropped contents packet t' depth =
      deniedByServers contents packet (rulesOf digest specs hnames) exemptSources :=
    Nftables.dropped_renderRuleset hdistinct ht' hdepth
  have hipt : Iptables.dropped contents packet (ChainCommand.runAll chains
        (Iptables.renderRestoreFile (rulesOf digest specs hnames) exemptSources stale packet.family true)) depth =
      deniedByServers contents packet (rulesOf digest specs hnames) exemptSources :=
    Iptables.dropped_eq (Iptables.lookup_restore_dispatch _ chains hstale)
      (fun _ hlive => Iptables.lookup_restore_live hdistinct chains stale hlive) hdepth
  refine ⟨t', ht', hnft.trans hipt.symm, ?_⟩
  rw [hnft, deniedByServers, Bool.and_eq_true, Bool.and_eq_true, Bool.not_eq_true', Bool.not_eq_true', and_assoc]
  refine and_congr_right fun _ => and_congr_right fun _ => ?_
  rw [rulesOf, any_map, any_eq_true]
  exact exists_congr fun spec => and_congr_right fun hspec => deniedBy_flatMap_iff (hsets spec hspec)

/-- A published port that one network is allowed and everyone else is denied. -/
def oneNetwork : Spec where
  server := 1
  bindings := [⟨none, 25565⟩]
  containerPorts := []
  containerIps := []
  rules := [⟨.allow, [.tcp], [.v4 0x0A000000 8], none, none⟩, ⟨.deny, [], [], some [25565], none⟩]
  files := false

/-- A new connection to the published port, from another network. -/
def fromOutside : Packet where
  family := .v4
  protocol := some .tcp
  source := .v4 0xC0000201
  destination := .v4 0xAC120002
  port := 25565
  originalDestination := .v4 0xCB007101
  originalPort := 25565
  dnat := true
  established := false
  source_family := rfl
  destination_family := rfl
  original_family := rfl

theorem denies_fromOutside : Denies (fun _ => []) fromOutside oneNetwork := by
  refine ⟨[_], _, [], rfl, ⟨⟨.tcp, rfl, .inl rfl⟩, .inl ⟨rfl, _, mem_singleton_self _, rfl, .inl rfl, rfl⟩,
    .inl ⟨rfl, rfl⟩⟩, rfl, forall_mem_singleton.mpr fun h => ?_⟩
  rcases h.source with ⟨hnone, _⟩ | ⟨source, hsource, hcontains⟩ | ⟨file, hfile, _⟩
  · exact absurd hnone (cons_ne_nil _ _)
  · rw [mem_singleton.mp hsource] at hcontains
    exact absurd hcontains (by decide)
  · cases hfile

theorem backends_drop_fromOutside :
    let rules := rulesOf (fun _ => 0) [oneNetwork] (nodup_singleton _)
    ∃ t' : Nftables.Table, Nftables.Table.empty.script (Nftables.renderRuleset rules [] []) = some t' ∧
      Nftables.dropped (fun _ _ => []) fromOutside t' 2 = true ∧
      Iptables.dropped (fun _ _ => []) fromOutside
        (ChainCommand.runAll ∅ (Iptables.renderRestoreFile rules [] [] .v4 true)) 2 = true := by
  obtain ⟨t', ht', hsame, hdrop⟩ := backends_same_verdict (fun _ => 0) [oneNetwork] (nodup_singleton _) []
    (fun _ _ => []) (fun _ _ => []) (fun _ _ _ _ _ _ _ => rfl) fromOutside .empty [] ∅ not_mem_nil (le_refl 2)
  have hdropped := hdrop.mpr ⟨rfl, rfl, oneNetwork, mem_singleton_self _, denies_fromOutside⟩
  exact ⟨t', ht', hdropped, hsame ▸ hdropped⟩

end Wings.Firewall
