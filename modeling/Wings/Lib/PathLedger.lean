import Mathlib.Algebra.Order.BigOperators.Group.Finset
import Mathlib.Algebra.BigOperators.Group.Finset.Piecewise
import Mathlib.Tactic.Abel
import Mathlib.Algebra.Order.Monoid.OrderDual

/-!
# Wings.Lib.PathLedger — amounts charged to the nodes of a tree of paths

A ledger is a list of charges, each to one path.  The `total` at a path is what is charged at it and
below, its `own` amount what is charged to exactly it.
-/

namespace Wings.Lib

open List

/-- Neither path is at or below the other. -/
def Apart {κ : Type*} (p q : List κ) : Prop := ¬ p <+: q ∧ ¬ q <+: p

theorem Apart.symm {κ : Type*} {p q : List κ} (h : Apart p q) : Apart q p := ⟨h.2, h.1⟩

instance {κ : Type*} : Std.Symm (@Apart κ) := ⟨fun _ _ => Apart.symm⟩

section apart

variable {κ : Type*} {P : List (List κ)} {p q : List κ}

theorem eq_of_above (hP : P.Pairwise Apart) (hp : p ∈ P) (hq : q ∈ P) (h : p <+: q) : p = q := by
  by_contra hne
  exact (hP.forall hp hq hne).1 h

variable [DecidableEq κ]

theorem find_above_eq_none_iff : P.find? (· <+: q) = none ↔ ∀ p ∈ P, ¬ p <+: q := by
  simp [find?_eq_none]

theorem find_above_cons (hp : ∀ p' ∈ P, Apart p p') :
    (p :: P).find? (· <+: q) =
      match P.find? (· <+: q) with
      | some p' => some p'
      | none => if p <+: q then some p else none := by
  cases hf : P.find? (· <+: q) with
  | some p' =>
    have hp' : p' <+: q := by simpa using find?_some hf
    have hapart := hp p' (mem_of_find?_eq_some hf)
    have hnot : ¬ p <+: q := fun hpq =>
      (List.prefix_or_prefix_of_prefix hpq hp').elim hapart.1 hapart.2
    rw [find?_cons_of_neg (by simpa using hnot), hf]
  | none =>
    split_ifs with hpq
    · rw [find?_cons_of_pos (by simpa using hpq)]
    · rw [find?_cons_of_neg (by simpa using hpq), hf]

end apart

/-- Charges of amounts in `M` to paths over `κ`. -/
abbrev PathLedger (κ M : Type*) := List (List κ × M)

namespace PathLedger

variable {κ M : Type*} [DecidableEq κ]

section sums

variable [AddCommMonoid M] {log : PathLedger κ M} {log' : PathLedger κ M}

/-- What is charged at `p` and below. -/
def total (log : PathLedger κ M) (p : List κ) : M :=
  (log.map fun e => if p <+: e.1 then e.2 else 0).sum

/-- What is charged to exactly `p`. -/
def own (log : PathLedger κ M) (p : List κ) : M :=
  (log.map fun e => if e.1 = p then e.2 else 0).sum

/-- The ledger without everything charged at `p` and below. -/
def without (p : List κ) (log : PathLedger κ M) : PathLedger κ M :=
  log.filter fun e => ¬ p <+: e.1

/-- What is charged at `p` and below, as a ledger of its own. -/
def under (p : List κ) (log : PathLedger κ M) : PathLedger κ M :=
  (log.filter fun e => p <+: e.1).map fun e => (e.1.drop p.length, e.2)

/-- The ledger under other names for the components. -/
def mapKeys {κ' : Type*} (f : κ → κ') (log : PathLedger κ M) : PathLedger κ' M :=
  log.map fun e => (e.1.map f, e.2)

/-- The ledger hung in at `p`. -/
def graft (p : List κ) (log : PathLedger κ M) : PathLedger κ M :=
  log.map fun e => (p ++ e.1, e.2)

section

variable (p : List κ)
include p

@[simp] theorem total_nil : total ([] : PathLedger κ M) p = 0 := rfl

@[simp] theorem own_nil : own ([] : PathLedger κ M) p = 0 := rfl

theorem total_cons (e : List κ × M) (log : PathLedger κ M) :
    total (e :: log) p = (if p <+: e.1 then e.2 else 0) + total log p := by
  simp [total]

theorem own_cons (e : List κ × M) (log : PathLedger κ M) :
    own (e :: log) p = (if e.1 = p then e.2 else 0) + own log p := by
  simp [own]

@[simp] theorem total_append (log log' : PathLedger κ M) :
    total (log ++ log') p = total log p + total log' p := by
  simp [total]

@[simp] theorem own_append (log log' : PathLedger κ M) :
    own (log ++ log') p = own log p + own log' p := by
  simp [own]

end

@[simp] theorem total_singleton (p q : List κ) (m : M) : total [(q, m)] p = if p <+: q then m else 0 := by
  simp [total]

@[simp] theorem own_singleton (p q : List κ) (m : M) : own [(q, m)] p = if q = p then m else 0 := by
  simp [own]

theorem total_perm (h : log.Perm log') (p : List κ) : total log p = total log' p :=
  (h.map _).sum_eq

variable {p : List κ}

theorem total_eq_zero (h : ∀ e ∈ log, ¬ p <+: e.1) : total log p = 0 := by
  refine sum_eq_zero fun x hx => ?_
  obtain ⟨e, he, rfl⟩ := mem_map.mp hx
  exact if_neg (h e he)

theorem own_eq_zero (h : p ∉ log.map Prod.fst) : own log p = 0 := by
  refine sum_eq_zero fun x hx => ?_
  obtain ⟨e, he, rfl⟩ := mem_map.mp hx
  exact if_neg fun heq : e.1 = p => h (heq ▸ mem_map.mpr ⟨e, he, rfl⟩)

section

variable (log : PathLedger κ M) (p q : List κ)

omit [DecidableEq κ] in
theorem sum_filter (P : List κ × M → Prop) [DecidablePred P] (f : List κ × M → M) :
    ((log.filter P).map f).sum = (log.map fun e => if P e then f e else 0).sum := by
  rw [sum_map_ite]
  simp

theorem own_without :
    own (without p log) q = if p <+: q then 0 else own log q := by
  rw [own, own, without, sum_filter]
  split_ifs with hp
  · refine sum_eq_zero fun x hx => ?_
    obtain ⟨e, -, rfl⟩ := mem_map.mp hx
    by_cases hq : e.1 = q
    · simp [hq, hp]
    · simp [hq]
  · refine congrArg sum (map_congr_left fun e _ => ?_)
    by_cases hq : e.1 = q
    · simp [hq, hp]
    · simp [hq]

theorem own_graft :
    own (graft p log) q = if p <+: q then own log (q.drop p.length) else 0 := by
  split_ifs with hp
  · obtain ⟨s, rfl⟩ := hp
    simp [own, graft, Function.comp_def]
  · refine sum_eq_zero fun x hx => ?_
    simp only [graft, map_map, mem_map] at hx
    obtain ⟨e, -, rfl⟩ := hx
    exact if_neg fun heq : p ++ e.1 = q => hp (heq ▸ prefix_append p e.1)

theorem total_graft :
    total (graft p log) q =
      if q <+: p then total log [] else if p <+: q then total log (q.drop p.length) else 0 := by
  split_ifs with hq hp
  · simp [total, graft, Function.comp_def, hq.trans (prefix_append p _)]
  · obtain ⟨s, rfl⟩ := hp
    simp [total, graft, Function.comp_def]
  · refine total_eq_zero fun e he => ?_
    simp only [graft, mem_map] at he
    obtain ⟨e', -, rfl⟩ := he
    intro hpre
    exact (List.prefix_or_prefix_of_prefix hpre (prefix_append p e'.1)).elim hq hp

theorem total_under : total (under p log) q = total log (p ++ q) := by
  rw [total, total, under, map_map, sum_filter]
  refine congrArg sum (map_congr_left fun e _ => ?_)
  by_cases hp : p <+: e.1
  · obtain ⟨s, hs⟩ := hp
    simp [← hs]
  · rw [if_neg hp, if_neg fun h => hp ((prefix_append p q).trans h)]

theorem own_under : own (under p log) q = own log (p ++ q) := by
  rw [own, own, under, map_map, sum_filter]
  refine congrArg sum (map_congr_left fun e _ => ?_)
  by_cases hp : p <+: e.1
  · obtain ⟨s, hs⟩ := hp
    simp [← hs]
  · rw [if_neg hp, if_neg fun h : e.1 = p ++ q => hp (h ▸ prefix_append p q)]

end

/-- The children of `p` on the way to `e` are at most one. -/
theorem sum_children_ite {keys : List κ} (hnd : keys.Nodup) (p e : List κ) (m : M) :
    (keys.map fun k => if p ++ [k] <+: e then m else 0).sum = if ∃ k ∈ keys, p ++ [k] <+: e then m else 0 := by
  induction keys with
  | nil => simp
  | cons k keys ih =>
    obtain ⟨hk, hnd⟩ := nodup_cons.mp hnd
    rw [map_cons, sum_cons, ih hnd]
    by_cases hke : p ++ [k] <+: e
    · have hother : ¬ ∃ k' ∈ keys, p ++ [k'] <+: e := by
        rintro ⟨k', hk', hke'⟩
        have hlen := prefix_of_prefix_length_le hke hke' (by simp)
        obtain rfl : k = k' := by simpa using hlen
        exact hk hk'
      rw [if_pos hke, if_neg hother, add_zero, if_pos ⟨k, mem_cons_self, hke⟩]
    · simp [hke]

/-- A total is the own amount plus the totals of the children, when the children lead to every
charge below. -/
theorem total_eq_own_add_children {keys : List κ} (hnd : keys.Nodup)
    (hcover : ∀ e ∈ log, p <+: e.1 → e.1 = p ∨ ∃ k ∈ keys, p ++ [k] <+: e.1) :
    total log p = own log p + (keys.map fun k => total log (p ++ [k])).sum := by
  induction log with
  | nil => simp
  | cons e log ih =>
    have ih := ih fun e' he' => hcover e' (mem_cons_of_mem e he')
    have hsplit : (if p <+: e.1 then e.2 else 0) =
        (if e.1 = p then e.2 else 0) + (keys.map fun k => if p ++ [k] <+: e.1 then e.2 else 0).sum := by
      rw [sum_children_ite hnd]
      by_cases heq : e.1 = p
      · have hnone : ¬ ∃ k ∈ keys, p ++ [k] <+: e.1 := by
          rintro ⟨k, -, hk⟩
          have := hk.length_le
          rw [heq] at this
          simp at this
        rw [if_pos heq, if_neg hnone, add_zero, if_pos (heq ▸ prefix_rfl)]
      · rw [if_neg heq, zero_add]
        refine if_congr ⟨fun hp => ?_, fun ⟨k, _, hk⟩ => (prefix_append p [k]).trans hk⟩ rfl rfl
        exact (hcover e mem_cons_self hp).resolve_left heq
    simp only [total_cons, own_cons, sum_map_add]
    rw [ih, hsplit]
    abel

theorem total_eq_sum_own {S : Finset (List κ)} (hS : ∀ e ∈ log, e.1 ∈ S) (q : List κ) :
    total log q = ∑ p ∈ S.filter (q <+: ·), own log p := by
  induction log with
  | nil => simp
  | cons e log ih =>
    simp only [total_cons, own_cons, Finset.sum_add_distrib]
    rw [ih fun e' he' => hS e' (mem_cons_of_mem e he')]
    simp [hS e mem_cons_self]

omit [AddCommMonoid M] in
/-- A finite set of paths that has every path charged in one of two ledgers. -/
theorem exists_support (log log' : PathLedger κ M) :
    ∃ S : Finset (List κ), (∀ e ∈ log, e.1 ∈ S) ∧ ∀ e ∈ log', e.1 ∈ S := by
  have hS : ∀ e ∈ log ++ log', e.1 ∈ ((log ++ log').map Prod.fst).toFinset := fun e he =>
    mem_toFinset.mpr (mem_map.mpr ⟨e, he, rfl⟩)
  exact ⟨_, fun e he => hS e (mem_append_left _ he), fun e he => hS e (mem_append_right _ he)⟩

theorem total_eq_of_own_eq (h : ∀ p, own log p = own log' p) (q : List κ) : total log q = total log' q := by
  obtain ⟨S, hS, hS'⟩ := exists_support log log'
  rw [total_eq_sum_own hS, total_eq_sum_own hS']
  exact Finset.sum_congr rfl fun p _ => h p

section mapKeys

variable {κ' : Type*} [DecidableEq κ'] (f : κ → κ') {log : PathLedger κ M} {p : List κ}

/-- Renaming keeps the total at a path that it does not confuse with another. -/
theorem total_mapKeys (h : ∀ e ∈ log, p.map f <+: e.1.map f → p <+: e.1) :
    total (mapKeys f log) (p.map f) = total log p := by
  rw [total, mapKeys, map_map]
  congr 1
  refine map_congr_left fun e he => if_congr ⟨h e he, ?_⟩ rfl rfl
  exact fun hp => hp.map f

theorem total_mapKeys_root (log : PathLedger κ M) : total (mapKeys f log) [] = total log [] :=
  total_mapKeys f fun _ _ _ => nil_prefix

theorem own_mapKeys (h : ∀ e ∈ log, e.1.map f = p.map f → e.1 = p) :
    own (mapKeys f log) (p.map f) = own log p := by
  rw [own, mapKeys, map_map]
  congr 1
  exact map_congr_left fun e he => if_congr ⟨h e he, congrArg (map f)⟩ rfl rfl

omit [AddCommMonoid M] in
theorem mapKeys_without (h : ∀ e ∈ log, p.map f <+: e.1.map f → p <+: e.1) :
    mapKeys f (without p log) = without (p.map f) (mapKeys f log) := by
  rw [mapKeys, mapKeys, without, without, filter_map]
  congr 1
  refine filter_congr fun e he => ?_
  simp only [Function.comp_apply, decide_eq_decide, not_iff_not]
  exact ⟨fun hp => hp.map f, h e he⟩

omit [DecidableEq κ] [DecidableEq κ'] [AddCommMonoid M] in
theorem mapKeys_graft (log : PathLedger κ M) (p : List κ) :
    mapKeys f (graft p log) = graft (p.map f) (mapKeys f log) := by
  simp [mapKeys, graft]

theorem own_mapKeys_eq_sum {S : Finset (List κ)} (hS : ∀ e ∈ log, e.1 ∈ S) (k : List κ') :
    own (mapKeys f log) k = ∑ p ∈ S.filter (·.map f = k), own log p := by
  induction log with
  | nil => simp [mapKeys]
  | cons e log ih =>
    have ih := ih fun e' he' => hS e' (mem_cons_of_mem e he')
    rw [mapKeys] at ih ⊢
    simp only [map_cons, own_cons, Finset.sum_add_distrib]
    rw [ih]
    simp [hS e mem_cons_self]

end mapKeys

/-! ### Ledgers that charge the same -/

/-- The same paths are charged, and each the same amount in all. -/
structure SameCharges (log log' : PathLedger κ M) : Prop where
  own : ∀ p, own log p = own log' p
  mem : ∀ p, p ∈ log.map Prod.fst ↔ p ∈ log'.map Prod.fst

section same

variable {log log' more more' : PathLedger κ M}

theorem SameCharges.refl (log : PathLedger κ M) : SameCharges log log := ⟨fun _ => rfl, fun _ => .rfl⟩

theorem SameCharges.trans {log₃ : PathLedger κ M} (h : SameCharges log log')
    (h' : SameCharges log' log₃) : SameCharges log log₃ :=
  ⟨fun p => (h.own p).trans (h'.own p), fun p => (h.mem p).trans (h'.mem p)⟩

theorem SameCharges.append (h : SameCharges log log') (h' : SameCharges more more') :
    SameCharges (log ++ more) (log' ++ more') where
  own p := by rw [own_append, own_append, h.own, h'.own]
  mem p := by rw [map_append, map_append, mem_append, mem_append, h.mem, h'.mem]

theorem SameCharges.merge (p : List κ) (a b : M) : SameCharges [(p, a + b)] [(p, a), (p, b)] where
  own q := by
    rw [own_singleton, own_cons, own_singleton]
    split_ifs <;> simp
  mem q := by simp

theorem SameCharges.total (h : SameCharges log log') (p : List κ) : total log p = total log' p :=
  total_eq_of_own_eq h.own p

theorem SameCharges.mapKeys {κ' : Type*} [DecidableEq κ'] (h : SameCharges log log') (f : κ → κ') :
    SameCharges (mapKeys f log) (mapKeys f log') where
  own k := by
    obtain ⟨S, hS, hS'⟩ := exists_support log log'
    rw [own_mapKeys_eq_sum f hS, own_mapKeys_eq_sum f hS']
    exact Finset.sum_congr rfl fun q _ => h.own q
  mem k := by
    have hfst : ∀ l : PathLedger κ M,
        (PathLedger.mapKeys f l).map Prod.fst = (l.map Prod.fst).map (map f) := fun l => by
      simp [PathLedger.mapKeys]
    rw [hfst, hfst, mem_map, mem_map]
    exact exists_congr fun q => and_congr_left' (h.mem q)

end same

end sums

section group

variable [AddCommGroup M]

/-- Taking everything at `p` and below out leaves nothing there, subtracts it from every ancestor
and does not touch the rest. -/
theorem total_without (log : PathLedger κ M) (p q : List κ) :
    total (without p log) q =
      if p <+: q then 0 else if q <+: p then total log q - total log p else total log q := by
  split_ifs with hp hq
  · refine total_eq_zero fun e he hqe => ?_
    have := (mem_filter.mp he).2
    simp only [decide_eq_true_eq] at this
    exact this (hp.trans hqe)
  · rw [eq_sub_iff_add_eq, total, total, total, without, sum_filter, ← sum_map_add]
    refine congrArg sum (map_congr_left fun e _ => ?_)
    by_cases hpe : p <+: e.1
    · simp [hpe, hq.trans hpe]
    · simp [hpe]
  · rw [total, total, without, sum_filter]
    refine congrArg sum (map_congr_left fun e _ => ?_)
    by_cases hpe : p <+: e.1
    · have hqe : ¬ q <+: e.1 := fun hqe => (List.prefix_or_prefix_of_prefix hpe hqe).elim hp hq
      simp [hpe, hqe]
    · simp [hpe]

/-- The components that lead on from `q` to a charge. -/
def next (q : List κ) (log : PathLedger κ M) : List κ :=
  (log.filterMap fun e => (e.1.drop q.length).head?).dedup

omit [AddCommGroup M] in
theorem exists_next {q : List κ} {log : PathLedger κ M} {e : List κ × M} (he : e ∈ log)
    (hq : q <+: e.1) : e.1 = q ∨ ∃ k ∈ next q log, q ++ [k] <+: e.1 := by
  obtain ⟨s, hs⟩ := hq
  cases s with
  | nil => exact .inl (by rw [← hs, append_nil])
  | cons k s =>
    refine .inr ⟨k, ?_, ⟨s, by rw [← hs, append_assoc]; rfl⟩⟩
    refine mem_dedup.mpr (mem_filterMap.mpr ⟨e, he, ?_⟩)
    rw [← hs, drop_left]
    rfl

theorem total_eq_iff_own_eq (log log' : PathLedger κ M) :
    (∀ q, total log q = total log' q) ↔ ∀ q, own log q = own log' q := by
  refine ⟨fun h q => ?_, total_eq_of_own_eq⟩
  have hnd : (next q (log ++ log')).Nodup := nodup_dedup _
  have hsplit := total_eq_own_add_children hnd fun e he => exists_next (mem_append_left log' he)
  have hsplit' := total_eq_own_add_children hnd fun e he => exists_next (mem_append_right log he)
  rw [h q, hsplit', map_congr_left fun k _ => h (q ++ [k])] at hsplit
  exact (add_right_cancel hsplit).symm

end group

section ordered

variable [AddCommMonoid M] [PartialOrder M] [IsOrderedAddMonoid M] {log : PathLedger κ M}

omit [IsOrderedAddMonoid M] in
theorem sum_ite_prefix_le {P : List (List κ)} (hP : P.Pairwise Apart)
    (q : List κ) {m : M} (hm : 0 ≤ m) : (P.map fun p => if p <+: q then m else 0).sum ≤ m := by
  induction hP with
  | nil => exact hm
  | @cons p P hp _ ih =>
    rw [map_cons, sum_cons]
    split_ifs with hpq
    · have hrest : (P.map fun p => if p <+: q then m else 0).sum = 0 := by
        refine sum_eq_zero fun x hx => ?_
        obtain ⟨p', hp', rfl⟩ := mem_map.mp hx
        refine if_neg fun hq => ?_
        exact (List.prefix_or_prefix_of_prefix hpq hq).elim (hp p' hp').1 (hp p' hp').2
      rw [hrest, add_zero]
    · rw [zero_add]
      exact ih

theorem sum_total_le (h : ∀ e ∈ log, 0 ≤ e.2) {P : List (List κ)} (hP : P.Pairwise Apart) :
    (P.map fun p => total log p).sum ≤ total log [] := by
  induction log with
  | nil => simp
  | cons e log ih =>
    simp only [total_cons, sum_map_add, nil_prefix, if_true]
    exact add_le_add (sum_ite_prefix_le hP e.1 (h e mem_cons_self)) (ih fun e' he' => h e' (mem_cons_of_mem e he'))

theorem total_without_le (h : ∀ e ∈ log, 0 ≤ e.2) (p : List κ) : total (without p log) [] ≤ total log [] := by
  refine Sublist.sum_le_sum ((filter_sublist).map _) fun x hx => ?_
  obtain ⟨e, he, rfl⟩ := mem_map.mp hx
  exact h e he

section

variable (h : ∀ p, 0 ≤ own log p)
include h

theorem own_le_total {p q : List κ} (hq : q <+: p) : own log p ≤ total log q := by
  classical
  rw [total_eq_sum_own (S := insert p (log.map Prod.fst).toFinset) (fun e he => by simpa using .inr ⟨e.2, he⟩) q]
  exact Finset.single_le_sum (fun p _ => h p) (by simp [hq])

theorem total_le_total {p q : List κ} (hq : q <+: p) : total log p ≤ total log q := by
  classical
  have hS : ∀ e ∈ log, e.1 ∈ (log.map Prod.fst).toFinset := fun e he => by
    simpa using ⟨e.2, he⟩
  rw [total_eq_sum_own hS p, total_eq_sum_own hS q]
  refine Finset.sum_le_sum_of_subset_of_nonneg (fun x hx => ?_) fun x _ _ => h x
  simp only [Finset.mem_filter] at hx ⊢
  exact ⟨hx.1, hq.trans hx.2⟩

theorem total_nonneg (p : List κ) : 0 ≤ total log p :=
  (h p).trans (own_le_total h prefix_rfl)

end

omit [DecidableEq κ] in
theorem sum_charges_nonneg (h : ∀ e ∈ log, 0 ≤ e.2) (P : List κ → Prop) [DecidablePred P] :
    0 ≤ (log.map fun e => if P e.1 then e.2 else 0).sum := by
  apply sum_nonneg
  intro x hx
  obtain ⟨e, he, rfl⟩ := mem_map.mp hx
  split_ifs
  · exact h e he
  · exact le_rfl

theorem total_nonpos_of_charges (h : ∀ e ∈ log, e.2 ≤ 0) (p : List κ) : total log p ≤ 0 :=
  sum_charges_nonneg (M := Mᵒᵈ) h (p <+: ·)

theorem own_nonpos_of_charges (h : ∀ e ∈ log, e.2 ≤ 0) (p : List κ) : own log p ≤ 0 :=
  sum_charges_nonneg (M := Mᵒᵈ) h (· = p)

end ordered

end PathLedger

end Wings.Lib
