import Mathlib.Algebra.Order.Monoid.Prod
import Wings.Filesystem.Atomics
import Wings.Lib.PathLedger
import Wings.Lib.SortedEntries

/-!
# Wings.Filesystem.DiskUsage — the usage tree over any ordered keys

`server/filesystem/usage.rs`: every node holds the space used at it and below, and its children in a
vector sorted by key.  The walks down a list of keys are here; the walk down a `Path` is in
`Wings.Filesystem.Usage`.

* `Represents t log`: the tree is sorted everywhere and holds, at every node, the total of the
  ledger there.  Every operation keeps it as long as no counter saturates.
-/

namespace Wings.Filesystem

open Lib List PathLedger

/-! ## Spaces -/

structure UsedSpace where
  logical : ℕ
  physical : ℕ
  deriving DecidableEq, Repr

def UsedSpace.zero : UsedSpace := ⟨0, 0⟩

/-- `add_logical` or `sub_logical`, and `add_physical` or `sub_physical`: a signed delta, saturating
at both ends. -/
def saturatingDelta (current : ℕ) (delta : ℤ) : ℕ :=
  if 0 ≤ delta then clampU64 (current + delta.toNat) else current - delta.natAbs

/-- The delta of `update_size` applied to one node. -/
def UsedSpace.update (u : UsedSpace) (delta : SpaceDelta) : UsedSpace :=
  ⟨saturatingDelta u.logical delta.logical, saturatingDelta u.physical delta.physical⟩

/-- `sub_logical` and `sub_physical` of another space. -/
def UsedSpace.sub (u v : UsedSpace) : UsedSpace :=
  ⟨u.logical - v.logical, u.physical - v.physical⟩

def UsedSpace.applyDelta (u add sub : UsedSpace) : UsedSpace :=
  UsedSpace.sub ⟨clampU64 (u.logical + add.logical), clampU64 (u.physical + add.physical)⟩ sub

def UsedSpace.amount (u : UsedSpace) : ℤ × ℤ := (u.logical, u.physical)

def SpaceDelta.amount (delta : SpaceDelta) : ℤ × ℤ := (delta.logical, delta.physical)

def maxAmount : ℤ × ℤ := (u64Max, u64Max)

theorem saturatingDelta_exact {current : ℕ} {delta : ℤ} (hl : 0 ≤ current + delta)
    (hu : current + delta ≤ u64Max) : (saturatingDelta current delta) = current + delta := by
  unfold saturatingDelta
  split_ifs with h
  · rw [clampU64_of_le (by omega)]
    omega
  · omega

theorem UsedSpace.amount_update {u : UsedSpace} {delta : SpaceDelta}
    (hl : 0 ≤ u.amount + delta.amount) (hu : u.amount + delta.amount ≤ maxAmount) :
    (u.update delta).amount = u.amount + delta.amount :=
  Prod.ext (saturatingDelta_exact hl.1 hu.1) (saturatingDelta_exact hl.2 hu.2)

theorem UsedSpace.amount_sub {u v : UsedSpace} (h : v.amount ≤ u.amount) :
    (u.sub v).amount = u.amount - v.amount := by
  obtain ⟨hl, hp⟩ := h
  simp only [amount] at hl hp
  refine Prod.ext ?_ ?_
  · show ((u.logical - v.logical : ℕ) : ℤ) = u.logical - v.logical
    omega
  · show ((u.physical - v.physical : ℕ) : ℤ) = u.physical - v.physical
    omega

theorem UsedSpace.amount_applyDelta {u add sub : UsedSpace}
    (hu : u.amount + add.amount ≤ maxAmount) (hs : sub.amount ≤ u.amount + add.amount) :
    (u.applyDelta add sub).amount = u.amount + add.amount - sub.amount := by
  obtain ⟨hl, hp⟩ := hu
  simp only [amount, maxAmount, Prod.fst_add, Prod.snd_add] at hl hp
  have hadd : amount
      ⟨clampU64 (u.logical + add.logical), clampU64 (u.physical + add.physical)⟩ = u.amount + add.amount := by
    rw [clampU64_of_le (by omega), clampU64_of_le (by omega)]
    exact Prod.ext (Nat.cast_add _ _) (Nat.cast_add _ _)
  rw [applyDelta, amount_sub (hadd ▸ hs), hadd]

/-! ## The tree -/

structure DiskUsage (κ : Type) where
  space : UsedSpace
  entries : List (κ × DiskUsage κ)

namespace DiskUsage

variable {κ : Type} [LinearOrder κ]

def empty : DiskUsage κ := ⟨.zero, []⟩

def getPathComponents : DiskUsage κ → List κ → Option (DiskUsage κ)
  | t, [] => some t
  | t, k :: ks =>
    match find t.entries k with
    | none => none
    | some child => child.getPathComponents ks

/-- `DiskUsage::update_size_iterator`: add the delta to this node and to every node on the way,
creating the missing ones. -/
def updateSizeIterator (delta : SpaceDelta) : DiskUsage κ → List κ → DiskUsage κ
  | t, [] => { t with space := t.space.update delta }
  | t, k :: ks =>
    { space := t.space.update delta
      entries := upsert t.entries k empty fun child => child.updateSizeIterator delta ks }

/-- `DiskUsage::recursive_remove`: the removed node and the tree without it; the ancestors are
adjusted on the way back. -/
def recursiveRemove : DiskUsage κ → List κ → Option (DiskUsage κ × DiskUsage κ)
  | _, [] => none
  | t, [k] =>
    match find t.entries k with
    | none => none
    | some removed => some (removed, ⟨t.space.sub removed.space, erase t.entries k⟩)
  | t, k :: k' :: ks =>
    match find t.entries k with
    | none => none
    | some child =>
      match child.recursiveRemove (k' :: ks) with
      | none => none
      | some (removed, child') =>
        some (removed, ⟨t.space.sub removed.space, upsert t.entries k empty fun _ => child'⟩)

/-- The loop of `add_directory` over the parents of the target, and the leaf. -/
def graft (new old : UsedSpace) (source : DiskUsage κ) : DiskUsage κ → List κ → DiskUsage κ
  | _, [] => source
  | t, k :: ks =>
    { space := t.space.applyDelta new old
      entries := upsert t.entries k empty fun child => graft new old source child ks }

def addDirectory (t : DiskUsage κ) (target : List κ) (source : DiskUsage κ) : Bool × DiskUsage κ :=
  if target = [] then (false, t)
  else
    let old := ((t.getPathComponents target).map space).getD .zero
    (true, graft source.space old source t target)

def truncate (_ : DiskUsage κ) : DiskUsage κ := ⟨⟨0, 0⟩, []⟩

/-! ## The space at every node -/

/-- The space of the node at a list of keys. -/
def spaceAt (t : DiskUsage κ) (q : List κ) : Option UsedSpace := (t.getPathComponents q).map space

/-- Every node's entries are strictly sorted by key. -/
def SortedAll (t : DiskUsage κ) : Prop :=
  ∀ q node, t.getPathComponents q = some node → Sorted node.entries

variable {t : DiskUsage κ}

section

variable (t : DiskUsage κ)

theorem getPathComponents_cons (k : κ) (ks : List κ) :
    t.getPathComponents (k :: ks) = (find t.entries k).bind (·.getPathComponents ks) := by
  rw [getPathComponents]
  cases find t.entries k <;> rfl

@[simp] theorem spaceAt_nil : t.spaceAt [] = some t.space := rfl

theorem spaceAt_cons (k : κ) (ks : List κ) :
    t.spaceAt (k :: ks) = (find t.entries k).bind (·.spaceAt ks) := by
  rw [spaceAt, getPathComponents_cons]
  cases find t.entries k <;> rfl

theorem getPathComponents_append (p q : List κ) :
    t.getPathComponents (p ++ q) = (t.getPathComponents p).bind (·.getPathComponents q) := by
  induction p generalizing t with
  | nil => rfl
  | cons k ks ih =>
    rw [cons_append, getPathComponents_cons, getPathComponents_cons]
    cases find t.entries k with
    | none => rfl
    | some child => exact ih child

end

theorem isSome_spaceAt_of_prefix {t : DiskUsage κ} {p q : List κ} (hq : q <+: p)
    (h : (t.spaceAt p).isSome = true) : (t.spaceAt q).isSome = true := by
  obtain ⟨s, rfl⟩ := hq
  rw [spaceAt, getPathComponents_append] at h
  rw [spaceAt]
  cases hn : t.getPathComponents q with
  | none => rw [hn] at h; exact h
  | some node => rfl

theorem sortedAll_iff :
    t.SortedAll ↔ Sorted t.entries ∧ ∀ k child, find t.entries k = some child → child.SortedAll := by
  constructor
  · intro h
    refine ⟨h [] t rfl, fun k child hk q node hq => h (k :: q) node ?_⟩
    rw [getPathComponents_cons, hk]
    exact hq
  · rintro ⟨hs, hc⟩ q node hq
    cases q with
    | nil =>
      obtain rfl : t = node := Option.some.inj hq
      exact hs
    | cons k ks =>
      rw [getPathComponents_cons, Option.bind_eq_some_iff] at hq
      obtain ⟨child, hk, hq⟩ := hq
      exact hc k child hk ks node hq

theorem sortedAll_empty : (empty : DiskUsage κ).SortedAll :=
  sortedAll_iff.mpr ⟨Pairwise.nil, fun _ _ h => nomatch h⟩

/-- The child at a key, or the empty node an upsert puts there. -/
def childOrEmpty (t : DiskUsage κ) (k : κ) : DiskUsage κ := (find t.entries k).getD empty

theorem SortedAll.childOrEmpty (h : t.SortedAll) (k : κ) : (t.childOrEmpty k).SortedAll := by
  unfold DiskUsage.childOrEmpty
  cases hk : find t.entries k with
  | none => exact sortedAll_empty
  | some child => exact (sortedAll_iff.mp h).2 k child hk

theorem spaceAt_childOrEmpty_getD (t : DiskUsage κ) (k : κ) (ks : List κ) :
    ((t.childOrEmpty k).spaceAt ks).getD .zero = (t.spaceAt (k :: ks)).getD .zero := by
  rw [spaceAt_cons, childOrEmpty]
  cases find t.entries k with
  | none => cases ks <;> rfl
  | some child => rfl

theorem spaceAt_childOrEmpty (t : DiskUsage κ) (k : κ) {ks : List κ} (h : ks ≠ []) :
    (t.childOrEmpty k).spaceAt ks = t.spaceAt (k :: ks) := by
  rw [spaceAt_cons, childOrEmpty]
  cases find t.entries k with
  | none =>
    cases ks with
    | nil => exact absurd rfl h
    | cons _ _ => rfl
  | some child => rfl

/-- What a change of one child does: sorted everywhere, the child replaced, the rest untouched. -/
theorem upsert_node (h : t.SortedAll) (u : UsedSpace) (k : κ) (f : DiskUsage κ → DiskUsage κ)
    (hf : (f (t.childOrEmpty k)).SortedAll) :
    (mk u (upsert t.entries k empty f)).SortedAll ∧
      ∀ k' ks, (mk u (upsert t.entries k empty f)).spaceAt (k' :: ks) =
        if k' = k then (f (t.childOrEmpty k)).spaceAt ks else t.spaceAt (k' :: ks) := by
  obtain ⟨hs, hc⟩ := sortedAll_iff.mp h
  constructor
  · refine sortedAll_iff.mpr ⟨hs.upsert k empty f, fun k' child hk' => ?_⟩
    rw [find_upsert hs] at hk'
    split_ifs at hk' with heq
    · cases hk'
      exact hf
    · exact hc k' child hk'
  · intro k' ks
    rw [spaceAt_cons, find_upsert hs]
    split_ifs with heq
    · rfl
    · rw [spaceAt_cons]

-- prefixes of key lists are compared with whatever equality test the keys come with
variable [DecidableEq κ]

/-! ### Updating -/

omit [DecidableEq κ] in
theorem SortedAll.updateSizeIterator (h : t.SortedAll) (delta : SpaceDelta) (p : List κ) :
    (t.updateSizeIterator delta p).SortedAll := by
  induction p generalizing t with
  | nil =>
    obtain ⟨hs, hc⟩ := sortedAll_iff.mp h
    exact sortedAll_iff.mpr ⟨hs, hc⟩
  | cons k ks ih => exact (upsert_node h _ k _ (ih (h.childOrEmpty k))).1

/-- **Update.**  The nodes on the way to `p`, and `p`, get the delta; every other node keeps its
space. -/
theorem spaceAt_updateSizeIterator (h : t.SortedAll) (delta : SpaceDelta) (p q : List κ) :
    (t.updateSizeIterator delta p).spaceAt q =
      if q <+: p then some (((t.spaceAt q).getD .zero).update delta) else t.spaceAt q := by
  induction p generalizing t q with
  | nil =>
    cases q with
    | nil => rfl
    | cons k' ks' => rfl
  | cons k ks ih =>
    cases q with
    | nil => simp [updateSizeIterator]
    | cons k' ks' =>
      have hc := h.childOrEmpty k
      rw [updateSizeIterator, (upsert_node h _ k _ (hc.updateSizeIterator delta ks)).2]
      by_cases hk : k' = k
      · subst hk
        simp only [if_true, ih hc, spaceAt_childOrEmpty_getD, cons_prefix_cons, true_and]
        split_ifs with hp
        · rfl
        · refine spaceAt_childOrEmpty t _ ?_
          rintro rfl
          exact hp nil_prefix
      · simp only [hk, cons_prefix_cons, false_and, if_false]

/-! ### Grafting -/

section graft

variable (new old : UsedSpace) {source : DiskUsage κ}

omit [DecidableEq κ] in
theorem SortedAll.graft (h : t.SortedAll) (hs : source.SortedAll) (p : List κ) :
    (graft new old source t p).SortedAll := by
  induction p generalizing t with
  | nil => exact hs
  | cons k ks ih => exact (upsert_node h _ k _ (ih (h.childOrEmpty k))).1

/-- **Graft.**  The source hangs at `p`, the nodes on the way to `p` get the difference, every other
node keeps its space. -/
theorem spaceAt_graft (h : t.SortedAll) (hs : source.SortedAll) (p q : List κ) :
    (graft new old source t p).spaceAt q =
      if p <+: q then source.spaceAt (q.drop p.length)
      else if q <+: p then some (((t.spaceAt q).getD .zero).applyDelta new old)
      else t.spaceAt q := by
  induction p generalizing t q with
  | nil => simp [graft]
  | cons k ks ih =>
    cases q with
    | nil => simp [graft]
    | cons k' ks' =>
      have hc := h.childOrEmpty k
      rw [graft, (upsert_node h _ k _ (hc.graft new old hs ks)).2]
      by_cases hk : k' = k
      · subst hk
        simp only [if_true, ih hc, spaceAt_childOrEmpty_getD, cons_prefix_cons, true_and]
        split_ifs with hp hq
        · rfl
        · rfl
        · refine spaceAt_childOrEmpty t _ ?_
          rintro rfl
          exact hq nil_prefix
      · simp only [hk, Ne.symm hk, cons_prefix_cons, false_and, if_false]

end graft

/-! ### Removing -/

/-- What a successful removal at `p` does. -/
structure Removes (t : DiskUsage κ) (p : List κ) (removed t' : DiskUsage κ) : Prop where
  node : t.getPathComponents p = some removed
  sorted : t'.SortedAll
  space : ∀ q, t'.spaceAt q =
    if p <+: q then none
    else if q <+: p then (t.spaceAt q).map (·.sub removed.space) else t.spaceAt q

/-- **Remove.**  A removal fails exactly when there is no node at the keys; otherwise the node is
returned and gone, and its space is subtracted from every ancestor. -/
theorem recursiveRemove_spec (h : t.SortedAll) {p : List κ} (hp : p ≠ []) :
    (t.recursiveRemove p = none ∧ t.getPathComponents p = none) ∨
      ∃ removed t', t.recursiveRemove p = some (removed, t') ∧ t.Removes p removed t' := by
  induction p generalizing t with
  | nil => exact absurd rfl hp
  | cons k ks ih =>
    obtain ⟨hs, hc⟩ := sortedAll_iff.mp h
    cases hk : find t.entries k with
    | none =>
      refine .inl ⟨?_, by rw [getPathComponents_cons, hk]; rfl⟩
      cases ks <;> simp [recursiveRemove, hk]
    | some child =>
      cases ks with
      | nil =>
        refine .inr ⟨child, ⟨t.space.sub child.space, erase t.entries k⟩, by simp [recursiveRemove, hk],
          by rw [getPathComponents_cons, hk]; rfl, ?_, fun q => ?_⟩
        · refine sortedAll_iff.mpr ⟨hs.erase k, fun k' c hk' => ?_⟩
          rw [find_erase hs] at hk'
          split_ifs at hk'
          exact hc k' c hk'
        · cases q with
          | nil => simp
          | cons k' ks' =>
            rw [spaceAt_cons, find_erase hs]
            by_cases heq : k' = k
            · rw [if_pos heq, if_pos (by simp [heq])]
              rfl
            · rw [if_neg heq, if_neg (by simpa using Ne.symm heq), if_neg (by simp [heq]), spaceAt_cons]
      | cons k₂ ks =>
        rcases ih (hc k child hk) (cons_ne_nil k₂ ks) with ⟨hnone, hnode⟩ | ⟨removed, child', hr, hrem⟩
        · refine .inl ⟨by simp [recursiveRemove, hk, hnone], ?_⟩
          rw [getPathComponents_cons, hk]
          exact hnode
        · have hnode := upsert_node h (t.space.sub removed.space) k (fun _ => child') hrem.sorted
          refine .inr ⟨removed, _, by simp only [recursiveRemove, hk, hr], ?_, hnode.1, fun q => ?_⟩
          · rw [getPathComponents_cons, hk]
            exact hrem.node
          · cases q with
            | nil => simp
            | cons k' ks' =>
              rw [hnode.2]
              by_cases heq : k' = k
              · subst heq
                have hspace : t.spaceAt (k' :: ks') = child.spaceAt ks' := by rw [spaceAt_cons, hk]; rfl
                rw [if_pos rfl, hrem.space, hspace]
                simp only [cons_prefix_cons, true_and]
              · rw [if_neg heq, if_neg fun hh => heq (cons_prefix_cons.mp hh).1.symm,
                  if_neg fun hh => heq (cons_prefix_cons.mp hh).1]

/-! ## The tree represents a ledger -/

/-- The tree is sorted everywhere, holds at every node what the ledger charges there and below, has
a node for every charge, and no path is charged a negative amount. -/
structure Represents (t : DiskUsage κ) (log : PathLedger κ (ℤ × ℤ)) : Prop where
  sorted : t.SortedAll
  space : ∀ q, ((t.spaceAt q).getD .zero).amount = log.total q
  charged : ∀ e ∈ log, (t.spaceAt e.1).isSome = true
  own : ∀ q, 0 ≤ log.own q

theorem represents_empty : (empty : DiskUsage κ).Represents [] where
  sorted := sortedAll_empty
  space q := by cases q <;> rfl
  charged := by simp
  own q := by simp

section represents

variable {log log' : PathLedger κ (ℤ × ℤ)} {p : List κ} {removed : DiskUsage κ} {t' : DiskUsage κ}

theorem Represents.update (h : t.Represents log) (delta : SpaceDelta)
    (hown : 0 ≤ log.own p + delta.amount) (hmax : log.total [] + delta.amount ≤ maxAmount) :
    (t.updateSizeIterator delta p).Represents (log ++ [(p, delta.amount)]) := by
  have hspace := spaceAt_updateSizeIterator h.sorted delta p
  refine ⟨h.sorted.updateSizeIterator delta p, fun q => ?_, fun e he => ?_, fun q => ?_⟩
  · rw [hspace, total_append, total_singleton]
    by_cases hq : q <+: p
    · have hle := own_le_total h.own hq
      have hroot := total_le_total h.own (List.nil_prefix (l := q))
      rw [if_pos hq, if_pos hq, Option.getD_some, UsedSpace.amount_update, h.space]
      · rw [h.space]
        exact hown.trans (add_le_add_left hle _)
      · rw [h.space]
        exact (add_le_add_left hroot _).trans hmax
    · rw [if_neg hq, if_neg hq, add_zero, h.space]
  · rw [hspace]
    split_ifs with hq
    · rfl
    · rcases mem_append.mp he with he | he
      · exact h.charged e he
      · rw [mem_singleton.mp he] at hq
        exact absurd prefix_rfl hq
  · rw [own_append, own_singleton]
    split_ifs with hq
    · exact hq ▸ hown
    · rw [add_zero]
      exact h.own q

variable {node : DiskUsage κ}

theorem Represents.amount_node (h : t.Represents log)
    (hn : t.getPathComponents p = some node) : node.space.amount = log.total p := by
  rw [← h.space, spaceAt, hn]
  rfl

/-- **Every node adds up.**  The space of a node is what is charged to it directly plus the space of
its children. -/
theorem Represents.space_eq_own_add_children (h : t.Represents log) (hn : t.getPathComponents p = some node) :
    node.space.amount = log.own p + (node.entries.map fun e => e.2.space.amount).sum := by
  have hsorted := h.sorted p node hn
  have hchild : ∀ k child, find node.entries k = some child →
      t.getPathComponents (p ++ [k]) = some child := fun k child hk => by
    rw [getPathComponents_append, hn, Option.bind_some, getPathComponents_cons, hk]
    rfl
  have hcover : ∀ e ∈ log, p <+: e.1 →
      e.1 = p ∨ ∃ k ∈ node.entries.map Prod.fst, p ++ [k] <+: e.1 := by
    rintro e he ⟨s, hs⟩
    cases s with
    | nil => exact .inl (by rw [← hs, append_nil])
    | cons k s =>
      have hsome := h.charged e he
      rw [← hs, spaceAt, getPathComponents_append, hn, Option.bind_some, getPathComponents_cons] at hsome
      cases hk : find node.entries k with
      | none => rw [hk] at hsome; exact absurd hsome (by simp)
      | some child =>
        have hmem := (find_eq_some_iff hsorted).mp hk
        exact .inr ⟨k, mem_map.mpr ⟨_, hmem, rfl⟩, s, by rw [← hs]; simp⟩
  rw [h.amount_node hn, total_eq_own_add_children hsorted.nodup_keys hcover, map_map]
  congr 2
  refine map_congr_left fun e he => ?_
  exact (h.amount_node (hchild e.1 e.2 ((find_eq_some_iff hsorted).mpr he))).symm

variable (h : t.Represents log)
include h

section

variable (hr : t.Removes p removed t')
include hr

/-- **Removing subtracts exactly the total.**  Every proper ancestor of the removed node loses the
space of that node. -/
theorem Represents.amount_ancestor {q : List κ} (hq : q <+: p) (hne : q ≠ p) :
    ((t'.spaceAt q).getD .zero).amount = ((t.spaceAt q).getD .zero).amount - removed.space.amount := by
  have hnp : ¬ p <+: q := fun hp => hne (IsPrefix.eq_of_length_le hq hp.length_le)
  have hsome := isSome_spaceAt_of_prefix (t := t) hq (by rw [spaceAt, hr.node]; rfl)
  obtain ⟨u, hu⟩ := Option.isSome_iff_exists.mp hsome
  have hle := total_le_total h.own hq
  rw [← h.amount_node hr.node, ← h.space q, hu] at hle
  rw [hr.space, if_neg hnp, if_pos hq, hu]
  exact UsedSpace.amount_sub hle

theorem Represents.without : t'.Represents (log.without p) := by
  refine ⟨hr.sorted, fun q => ?_, fun e he => ?_, fun q => ?_⟩
  · rw [total_without]
    split_ifs with hp hq
    · rw [hr.space, if_pos hp]
      rfl
    · rw [h.amount_ancestor hr hq fun heq => hp (heq ▸ prefix_rfl), h.space, h.amount_node hr.node]
    · rw [hr.space, if_neg hp, if_neg hq, h.space]
  · obtain ⟨hmem, hp⟩ := mem_filter.mp he
    simp only [decide_eq_true_eq] at hp
    rw [hr.space]
    split_ifs
    · rw [Option.isSome_map]
      exact h.charged e hmem
    · exact h.charged e hmem
  · rw [own_without]
    split_ifs
    · exact le_rfl
    · exact h.own q

theorem Represents.under : removed.Represents (log.under p) := by
  have hnode : ∀ q, removed.getPathComponents q = t.getPathComponents (p ++ q) := fun q => by
    rw [getPathComponents_append, hr.node]
    rfl
  have hspace : ∀ q, removed.spaceAt q = t.spaceAt (p ++ q) := fun q => by
    rw [spaceAt, spaceAt, hnode]
  refine ⟨fun q node hq => h.sorted (p ++ q) node (hnode q ▸ hq), fun q => ?_, fun e he => ?_, fun q => ?_⟩
  · rw [hspace, h.space, total_under]
  · obtain ⟨e', he', rfl⟩ := mem_map.mp he
    obtain ⟨hmem, hp⟩ := mem_filter.mp he'
    obtain ⟨s, hs⟩ := of_decide_eq_true hp
    rw [hspace, ← hs, drop_left, hs]
    exact h.charged e' hmem
  · rw [own_under]
    exact h.own (p ++ q)

end

theorem Represents.addDirectory {source : DiskUsage κ}
    (hs : source.Represents log') (hp : p ≠ []) (hmax : log.total [] + log'.total [] ≤ maxAmount) :
    (t.addDirectory p source).2.Represents (log.without p ++ log'.graft p) := by
  have hold : (((t.getPathComponents p).map DiskUsage.space).getD .zero).amount = log.total p :=
    h.space p
  have hnew : source.space.amount = log'.total [] := hs.space []
  rw [DiskUsage.addDirectory, if_neg hp]
  generalize ((t.getPathComponents p).map DiskUsage.space).getD .zero = old at hold
  have hspace := spaceAt_graft source.space old h.sorted hs.sorted p
  refine ⟨h.sorted.graft _ _ hs.sorted p, fun q => ?_, fun e he => ?_, fun q => ?_⟩
  · rw [hspace, total_append, total_without, total_graft]
    by_cases hpq : p <+: q
    · rw [if_pos hpq, if_pos hpq, zero_add, hs.space]
      split_ifs with hqp
      · rw [hqp.eq_of_length_le hpq.length_le, drop_length]
      · rfl
    · rw [if_neg hpq, if_neg hpq, if_neg hpq]
      by_cases hqp : q <+: p
      · have hroot := total_le_total h.own (List.nil_prefix (l := q))
        have hbelow := total_le_total h.own hqp
        have hnonneg := total_nonneg hs.own []
        rw [if_pos hqp, if_pos hqp, if_pos hqp, Option.getD_some, UsedSpace.amount_applyDelta, h.space, hnew, hold]
        · abel
        · rw [h.space, hnew]
          exact (add_le_add_left hroot _).trans hmax
        · rw [h.space, hnew, hold]
          exact hbelow.trans (le_add_of_nonneg_right hnonneg)
      · rw [if_neg hqp, if_neg hqp, if_neg hqp, add_zero, h.space]
  · rw [hspace]
    rcases mem_append.mp he with he | he
    · obtain ⟨hmem, hpe⟩ := mem_filter.mp he
      rw [if_neg (of_decide_eq_true hpe)]
      split_ifs
      · rfl
      · exact h.charged e hmem
    · obtain ⟨e', he', rfl⟩ := mem_map.mp he
      rw [if_pos (prefix_append p e'.1), drop_left]
      exact hs.charged e' he'
  · rw [own_append, own_without, own_graft]
    split_ifs
    · rw [zero_add]
      exact hs.own _
    · rw [add_zero]
      exact h.own q

end represents

end DiskUsage

end Wings.Filesystem
