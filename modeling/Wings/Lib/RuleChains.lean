import Mathlib.Data.List.AList

/-!
# Wings.Lib.RuleChains — named chains of rules, changed by scripts

A packet filter keeps rules in named chains; a script adds, flushes, deletes and extends chains in
order.

* `lookup_runAll` — a script at one name is its effects at that name, one after another.
-/

namespace Wings.Lib

open List AList

variable {ν ρ : Type*} [DecidableEq ν]

abbrev RuleChains (ν ρ : Type*) := AList fun _ : ν => List ρ

inductive ChainCommand (ν ρ : Type*) where
  | add (name : ν)
  | flush (name : ν)
  | delete (name : ν)
  | append (name : ν) (rule : ρ)

namespace ChainCommand

def name : ChainCommand ν ρ → ν
  | .add c | .flush c | .delete c | .append c _ => c

/-- The command on the chains; a chain that is not there is neither flushed nor extended. -/
def run (chains : RuleChains ν ρ) : ChainCommand ν ρ → RuleChains ν ρ
  | .add c => if c ∈ chains then chains else chains.insert c []
  | .flush c => if c ∈ chains then chains.insert c [] else chains
  | .delete c => chains.erase c
  | .append c rule =>
    match chains.lookup c with
    | none => chains
    | some rules => chains.insert c (rules ++ [rule])

def change (o : Option (List ρ)) : ChainCommand ν ρ → Option (List ρ)
  | .add _ => some (o.getD [])
  | .flush _ => o.map fun _ => []
  | .delete _ => none
  | .append _ rule => o.map (· ++ [rule])

def effect (c : ν) (o : Option (List ρ)) (cmd : ChainCommand ν ρ) : Option (List ρ) :=
  if cmd.name = c then cmd.change o else o

variable (chains : RuleChains ν ρ)

theorem lookup_run (cmd : ChainCommand ν ρ) (c : ν) :
    (cmd.run chains).lookup c = cmd.effect c (chains.lookup c) := by
  by_cases hc : cmd.name = c
  · rw [effect]
    cases cmd <;> obtain rfl := hc <;> simp only [run, name, change]
    case add c' | flush c' =>
      split_ifs with hmem <;> cases hl : chains.lookup c' <;> simp_all [← lookup_isSome]
    case delete c' => exact lookup_erase _ _
    case append c' rule => cases hl : chains.lookup c' <;> simp [hl]
  · rw [effect, if_neg hc]
    have hne : c ≠ cmd.name := Ne.symm hc
    cases cmd <;> simp only [run]
    case add c' | flush c' => split_ifs <;> first | rfl | exact lookup_insert_ne hne
    case delete c' => exact lookup_erase_ne hne
    case append c' rule => split <;> first | rfl | exact lookup_insert_ne hne

def runAll (chains : RuleChains ν ρ) (cmds : List (ChainCommand ν ρ)) : RuleChains ν ρ :=
  cmds.foldl run chains

theorem lookup_runAll (cmds : List (ChainCommand ν ρ)) (c : ν) :
    (runAll chains cmds).lookup c = cmds.foldl (effect c) (chains.lookup c) := by
  induction cmds generalizing chains with
  | nil => rfl
  | cons cmd cmds ih =>
    rw [foldl_cons, ← lookup_run]
    exact ih (cmd.run chains)

/-! ## Parts of a script -/

theorem foldl_effect_of_ne {c : ν} {cmds : List (ChainCommand ν ρ)} (h : ∀ cmd ∈ cmds, cmd.name ≠ c)
    (o : Option (List ρ)) : cmds.foldl (effect c) o = o := by
  induction cmds with
  | nil => rfl
  | cons cmd cmds ih =>
    rw [foldl_cons, effect, if_neg (h cmd mem_cons_self)]
    exact ih fun cmd' hcmd' => h cmd' (mem_cons_of_mem _ hcmd')

theorem foldl_append {c : ν} (rules acc : List ρ) :
    (rules.map (.append c)).foldl (effect c) (some acc) = some (acc ++ rules) := by
  induction rules generalizing acc with
  | nil => simp
  | cons rule rules ih =>
    rw [map_cons, foldl_cons, effect, name, if_pos rfl, change, Option.map_some, ih, append_assoc, singleton_append]

/-- The chain is emptied and gets new rules. -/
def refill (c : ν) (rules : List ρ) : List (ChainCommand ν ρ) := .flush c :: rules.map (.append c)

theorem foldl_refill {c : ν} (rules old : List ρ) : (refill c rules).foldl (effect c) (some old) = some rules := by
  rw [refill, foldl_cons, effect, name, if_pos rfl]
  exact foldl_append rules []

omit [DecidableEq ν] in
theorem name_refill {c : ν} {rules : List ρ} {cmd : ChainCommand ν ρ} (h : cmd ∈ refill c rules) :
    cmd.name = c := by
  rcases mem_cons.mp h with rfl | h
  · rfl
  · obtain ⟨_, _, rfl⟩ := mem_map.mp h
    rfl

theorem foldl_delete {c : ν} (names : List ν) (o : Option (List ρ)) :
    (names.map .delete).foldl (effect c) o = if c ∈ names then none else o := by
  induction names generalizing o with
  | nil => simp
  | cons c' names ih =>
    rw [map_cons, foldl_cons, ih, effect, name]
    by_cases hc : c' = c
    · simp [hc, change]
    · simp [hc, Ne.symm hc]

end ChainCommand

/-- Some of the elements write the same value, the others leave it: after all of them the value is
written if one of them writes. -/
theorem foldl_writers {ε σ : Type*} {f : σ → ε → σ} {P : σ → Prop} {own : ε → Prop} {v : σ} {l : List ε}
    (hown : ∀ e ∈ l, own e → ∀ o, P o → f o e = v) (hother : ∀ e ∈ l, ¬own e → ∀ o, f o e = o)
    (hv : P v) {o : σ} (ho : P o) :
    (∃ e ∈ l, own e) ∧ l.foldl f o = v ∨ (∀ e ∈ l, ¬own e) ∧ l.foldl f o = o := by
  induction l generalizing o with
  | nil => exact .inr ⟨by simp, rfl⟩
  | cons e l ih =>
    have ih := @ih (fun e' he' => hown e' (mem_cons_of_mem _ he')) (fun e' he' => hother e' (mem_cons_of_mem _ he'))
    rw [foldl_cons]
    by_cases he : own e
    · rw [hown e mem_cons_self he o ho]
      refine .inl ⟨⟨e, mem_cons_self, he⟩, ?_⟩
      rcases ih hv with h | h <;> exact h.2
    · rw [hother e mem_cons_self he o]
      rcases ih ho with ⟨⟨e', he', hown'⟩, h⟩ | ⟨hno, h⟩
      · exact .inl ⟨⟨e', mem_cons_of_mem _ he', hown'⟩, h⟩
      · exact .inr ⟨forall_mem_cons.mpr ⟨he, hno⟩, h⟩

end Wings.Lib
