import Wings.Firewall.Iptables
import Wings.Firewall.Nftables

/-!
# Wings.Firewall.Effect — calls that return `Ok`

Whether `sync` and `clear` have taken effect when they say so, for both backends.  A command can fail in ways that
leave the table of rules and the kernel apart, and a later call that trusts the table then does nothing.

* **`calls_take_effect`**
-/

namespace Wings.Firewall

open Lib Server Filesystem AList
open Nftables (nftables)
open Iptables (iptables)

/-- **Calls that return `Ok` have taken effect** in calm runs of either backend. -/
theorem calls_take_effect (digest : Subpath → BitVec 32) (limits : SourceFileLimits)
    (exemptSources : List IpCidr) (ipsetAvailable : Bool) :
    TakesEffect digest (nftables limits exemptSources) Nftables.Safe Nftables.Clean Nftables.Bare Nftables.Installed ∧
      TakesEffect digest (iptables limits exemptSources ipsetAvailable) Iptables.Safe Iptables.Quiet Iptables.Bare
        (Iptables.Installed ipsetAvailable) :=
  ⟨takesEffect_of_truthful (Nftables.truthful_nftables limits exemptSources) (fun _ => Nftables.shows_of_bare)
      fun _ _ _ => Nftables.installed_of_shows,
    takesEffect_of_truthful (Iptables.truthful_iptables limits exemptSources ipsetAvailable)
      (fun _ => Iptables.shows_of_bare) fun _ _ _ h hserver _ => Iptables.installed_of_shows h hserver⟩

/-! ## Runs with one server -/

namespace Nftables

def Faults.none : Faults := ⟨false, false, false, false, fun _ => .none⟩

def Faults.ruleset : Faults := { Faults.none with apply := true }

end Nftables

namespace Iptables

def FamilyFaults.none : FamilyFaults := ⟨false, false, fun _ => false, false, false⟩

def Faults.none : Faults := ⟨false, fun _ => false, false, fun _ => false, fun _ => .none⟩

def Faults.restores : Faults :=
  { Faults.none with family := fun _ => { FamilyFaults.none with restore := true } }

def Kernel.empty : Kernel := ⟨fun _ => ⟨∅, true, []⟩, ∅⟩

end Iptables

def deniedPort : Spec where
  server := 1
  bindings := [⟨none, 25565⟩]
  containerPorts := []
  containerIps := []
  rules := [⟨.deny, [], [], none, none⟩]
  files := false

def smallLimits : SourceFileLimits := ⟨1000, 1000⟩

/-- The rules of a server are installed, and then removed. -/
theorem calls_take_effect_cleared :
    Nftables.Installed (exec (step (fun _ => 0) (nftables smallLimits [])) (.init .empty)
        [.sync deniedPort (fun _ => none) .none, .clear 1 .none]).kernel 1 [] ∧
      Iptables.Installed true (exec (step (fun _ => 0) (iptables smallLimits [] true)) (.init .empty)
        [.sync deniedPort (fun _ => none) .none, .clear 1 .none]).kernel 1 [] := by
  obtain ⟨hnft, hipt⟩ := calls_take_effect (fun _ => 0) smallLimits [] true
  have hone {rules : Rules} (hkeys : rules.keys = [1]) (s : Uuid) (hs : s ∈ rules) (_ : serverDigits s = serverDigits 1) :
      s = 1 := List.mem_singleton.mp (hkeys ▸ AList.mem_keys.mp hs)
  constructor
  · refine hnft .empty [.sync deniedPort (fun _ => none) .none] (.clear 1 .none) (fun d => rfl)
      (steps_concat.mpr ⟨steps_concat.mpr ⟨steps_nil, nofun, nofun⟩, ?_, fun _ => ⟨rfl, rfl⟩⟩) (by decide)
    exact hone (by decide)
  · refine hipt .empty [.sync deniedPort (fun _ => none) .none] (.clear 1 .none) (fun _ d => rfl)
      (steps_concat.mpr ⟨steps_concat.mpr ⟨steps_nil, nofun, .inl fun _ => ⟨rfl, rfl, rfl⟩⟩, ?_,
        fun _ _ => ⟨rfl, rfl, rfl⟩⟩) (by decide)
    exact hone (by decide)

/-- A `clear` whose commands fail has dropped the rules from the table, so that a second one returns `Ok` and the
chain of the server is still there. -/
theorem repeated_clear_leaves_rules :
    let nft := exec (step (fun _ => 0) (nftables smallLimits [])) (.init .empty)
      [.sync deniedPort (fun _ => none) .none, .clear 1 .ruleset]
    let ipt := exec (step (fun _ => 0) (iptables smallLimits [] true)) (.init .empty)
      [.sync deniedPort (fun _ => none) .none, .clear 1 .restores]
    ((step (fun _ => 0) (nftables smallLimits []) nft (.clear 1 .none)).2 = true ∧
      (step (fun _ => 0) (nftables smallLimits []) nft (.clear 1 .none)).1.kernel.chain
        (serverChainName 1) ≠ none) ∧
    ((step (fun _ => 0) (iptables smallLimits [] true) ipt (.clear 1 .none)).2 = true ∧
      ((step (fun _ => 0) (iptables smallLimits [] true) ipt (.clear 1 .none)).1.kernel.filter
        .v4).chain (serverChainName 1) ≠ none) := by
  decide +kernel

end Wings.Firewall
