import Wings.Filesystem.Tree
import Wings.Server.Permissions

/-!
# Wings.Firewall.Rules — firewall rules of a server and what they expand to

`server/firewall/mod.rs`: the rules a user wrote, matched with the bindings and the container addresses of the
server, become concrete rules in order.

* `expandRules` — the concrete rules of a server.
* `serverChainName`, `setBaseName` — the names they get in the kernel: of the server only the first
  twelve hex digits, of a path only four bytes of its hash.
-/

namespace Wings.Firewall

open Filesystem Server

inductive IpAddr where
  | v4 (addr : BitVec 32)
  | v6 (addr : BitVec 128)
  deriving DecidableEq

def IpAddr.isIpv4 : IpAddr → Bool
  | .v4 _ => true
  | .v6 _ => false

/-- `cidr::IpCidr`: an address and the length of its network part. -/
inductive IpCidr where
  | v4 (addr : BitVec 32) (len : ℕ)
  | v6 (addr : BitVec 128) (len : ℕ)
  deriving DecidableEq

inductive AddressFamily where
  | v4
  | v6
  deriving DecidableEq

def IpCidr.family : IpCidr → AddressFamily
  | .v4 _ _ => .v4
  | .v6 _ _ => .v6

inductive RuleAction where
  | allow
  | deny
  deriving DecidableEq

inductive Protocol where
  | tcp
  | udp
  deriving DecidableEq

/-- `FirewallRule`; a source file is given by the components of its path. -/
structure Rule where
  action : RuleAction
  protocols : List Protocol
  sources : List IpCidr
  ports : Option (List (BitVec 16))
  sourceFile : Option Path

structure Binding where
  ip : Option IpAddr
  port : BitVec 16

/-- `FirewallServerSpec`; of the file access, whether there is one. -/
structure Spec where
  server : Uuid
  bindings : List Binding
  containerPorts : List (BitVec 16)
  containerIps : List IpAddr
  rules : List Rule
  files : Bool

inductive RuleDst where
  | published (ip : Option IpAddr) (port : BitVec 16)
  | container (ip : IpAddr) (port : BitVec 16)
  deriving DecidableEq

def RuleDst.ip : RuleDst → Option IpAddr
  | .published ip _ => ip
  | .container ip _ => some ip

/-- `set_base_name`: `wf-`, the server's first twelve hex digits and four bytes of the hash of the path. -/
structure SetBase where
  server : BitVec 48
  hash : BitVec 32
  deriving DecidableEq

inductive RuleSource where
  | any
  | cidr (source : IpCidr)
  | set (name : SetBase) (family : AddressFamily)
  deriving DecidableEq

structure ConcreteRule where
  protocol : Protocol
  dst : RuleDst
  source : RuleSource
  action : RuleAction
  deriving DecidableEq

def RuleSource.applies (family : AddressFamily) : RuleSource → Bool
  | .any => true
  | .cidr source => source.family = family
  | .set _ f => f = family

/-- An address of this family, or none at all. -/
def familyMatches (family : AddressFamily) (ip : Option IpAddr) : Bool :=
  ip.all fun ip => ip.isIpv4 = decide (family = .v4)

def ConcreteRule.applies (family : AddressFamily) (rule : ConcreteRule) : Bool :=
  familyMatches family rule.dst.ip && rule.source.applies family

/-! ## Names -/

/-- The first twelve hex digits of a server. -/
def serverDigits (server : Uuid) : BitVec 48 := server.extractLsb' 80 48

/-- The chains of the table: the dispatching one and one for each server, by its digits. -/
inductive ChainName where
  | dispatch
  | server (digits : BitVec 48)
  deriving DecidableEq

def serverChainName (server : Uuid) : ChainName := .server (serverDigits server)

def sourceFilePath (file : Path) : Subpath := resolvePath (file.dropWhile (· = .rootDir))

section Expansion

-- the first four bytes of the hash of a path
variable (digest : Subpath → BitVec 32)

def setBaseName (server : Uuid) (path : Subpath) : SetBase := ⟨serverDigits server, digest path⟩

/-! ## Expansion -/

/-- The sources of `expand_sources`, in order. -/
def Rule.expandedSources (rule : Rule) (server : Uuid) (dst : RuleDst) : List RuleSource :=
  if rule.sources = [] ∧ rule.sourceFile = none then [.any]
  else
    (rule.sources.filter fun source => familyMatches source.family dst.ip).map .cidr ++
      match rule.sourceFile with
      | none => []
      | some file =>
        ([.v4, .v6].filter fun family => familyMatches family dst.ip).map
          (.set (setBaseName digest server (sourceFilePath file)))

def Rule.expandSources (rule : Rule) (server : Uuid) (protocol : Protocol) (dst : RuleDst) : List ConcreteRule :=
  (rule.expandedSources digest server dst).map fun source => ⟨protocol, dst, source, rule.action⟩

def Rule.expandedProtocols (rule : Rule) : List Protocol :=
  [.tcp, .udp].filter fun protocol => rule.protocols = [] ∨ protocol ∈ rule.protocols

def Rule.matchesPort (rule : Rule) (port : BitVec 16) : Bool :=
  rule.ports.all fun ports => port ∈ ports

def Rule.expand (rule : Rule) (spec : Spec) : List ConcreteRule :=
  (spec.bindings.filter fun binding => rule.matchesPort binding.port).flatMap (fun binding =>
      rule.expandedProtocols.flatMap fun protocol =>
        rule.expandSources digest spec.server protocol (.published binding.ip binding.port)) ++
    (spec.containerPorts.filter rule.matchesPort).flatMap fun port =>
      spec.containerIps.flatMap fun ip =>
        rule.expandedProtocols.flatMap fun protocol =>
          rule.expandSources digest spec.server protocol (.container ip port)

def expandRules (spec : Spec) : List ConcreteRule :=
  spec.rules.flatMap fun rule => rule.expand digest spec

/-! ## Source files and sets -/

def referencedFiles (spec : Spec) : List Subpath :=
  ((spec.rules.filterMap Rule.sourceFile).map sourceFilePath).dedup

end Expansion

def setsOf (rules : List ConcreteRule) : List SetBase :=
  rules.filterMap fun rule =>
    match rule.source with
    | .set name _ => some name
    | _ => none

end Wings.Firewall
