import Mathlib.Data.List.Basic

/-!
# Wings.Lib.PacketFilter — a packet going through chains of rules

The first rule that applies decides: a packet is dropped, returns from the chain, or goes through another chain
and, if it returns from there, on to the next rule.

* `dropsRules_map` — without jumps it is the first rule that applies.
* `dropsRules_returns`, `dropsRules_jumps` — returns in front of a list, and a list of jumps.
* `drops_dispatch` — a chain of both that jumps to chains without jumps.
-/

namespace Wings.Lib

inductive Target (ν : Type) where
  | ret
  | drop
  | jump (chain : ν)
  deriving DecidableEq

namespace PacketFilter

variable {ν ρ : Type} (applies : ρ → Bool) (target : ρ → Target ν)

/-- Whether a list of rules drops the packet, given what the chains they jump to do. -/
def dropsRules (call : ν → Bool) : List ρ → Bool
  | [] => false
  | rule :: rules =>
    if applies rule then
      match target rule with
      | .ret => false
      | .drop => true
      | .jump chain => call chain || dropsRules call rules
    else dropsRules call rules

/-- Whether a chain drops the packet; jumps go no deeper than `depth`. -/
def drops (chains : ν → Option (List ρ)) : ℕ → ν → Bool
  | 0, _ => false
  | depth + 1, chain => dropsRules applies target (drops chains depth) ((chains chain).getD [])

variable {applies target} {call : ν → Bool} {rules : List ρ}

theorem dropsRules_map {α : Type} {render : α → ρ} {matches_ denies : α → Bool}
    (happlies : ∀ a, applies (render a) = matches_ a) (htarget : ∀ a, target (render a) = if denies a then .drop else .ret)
    (l : List α) : dropsRules applies target call (l.map render) = (l.find? matches_).any denies := by
  induction l with
  | nil => rfl
  | cons a l ih =>
    rw [List.map_cons, dropsRules, List.find?_cons, happlies, htarget]
    cases matches_ a with
    | false => exact ih
    | true =>
      rw [if_pos rfl, Option.any_some]
      cases denies a <;> rfl

theorem dropsRules_returns {returns : List ρ} (h : ∀ rule ∈ returns, target rule = .ret) :
    dropsRules applies target call (returns ++ rules) =
    (!returns.any applies && dropsRules applies target call rules) := by
  induction returns with
  | nil => rfl
  | cons rule returns ih =>
    obtain ⟨hrule, hrest⟩ := List.forall_mem_cons.mp h
    rw [List.cons_append, dropsRules, List.any_cons, hrule, ih hrest]
    cases applies rule <;> rfl

theorem dropsRules_jumps {ι : Type} {servers : List ι} {jump : ι → ρ} {name : ι → ν} {denied : ι → Bool}
    (happlies : ∀ s, applies (jump s) = true) (htarget : ∀ s, target (jump s) = .jump (name s))
    (hcall : ∀ s ∈ servers, call (name s) = denied s) :
    dropsRules applies target call (servers.map jump) = servers.any denied := by
  induction servers with
  | nil => rfl
  | cons s servers ih =>
    obtain ⟨hs, hrest⟩ := List.forall_mem_cons.mp hcall
    rw [List.map_cons, dropsRules, if_pos (happlies s), htarget, List.any_cons, ih hrest, ← hs]

theorem drops_dispatch {ι α : Type} {chains : ν → Option (List ρ)} {base : ν} {returns : List ρ} {guard : ρ}
    {servers : List ι}
    {jump : ι → ρ} {name : ι → ν} {rules : ι → List α} {render : α → ρ} {matches_ denies : α → Bool}
    (happlies : ∀ a, applies (render a) = matches_ a) (htarget : ∀ a, target (render a) = if denies a then .drop else .ret)
    (hguard : target guard = .ret) (hbase : chains base = some (returns ++ servers.map jump))
    (hreturns : ∀ rule ∈ returns, target rule = .ret) (hjump : ∀ s, applies (jump s) = true)
    (hname : ∀ s, target (jump s) = .jump (name s))
    (hchain : ∀ s ∈ servers, chains (name s) = some (guard :: (rules s).map render)) {depth : ℕ} (hdepth : 2 ≤ depth) :
    drops applies target chains depth base =
      (!returns.any applies && !applies guard && servers.any fun s => ((rules s).find? matches_).any denies) := by
  obtain ⟨depth, rfl⟩ := Nat.exists_eq_add_of_le' hdepth
  rw [drops, hbase, Option.getD_some, dropsRules_returns hreturns, Bool.and_assoc, List.and_any_distrib_left,
    dropsRules_jumps hjump hname]
  intro s hs
  rw [drops, hchain s hs, Option.getD_some, ← List.singleton_append,
    dropsRules_returns (List.forall_mem_singleton.mpr hguard),
    dropsRules_map happlies htarget, List.any_cons, List.any_nil, Bool.or_false]

end PacketFilter

end Wings.Lib
