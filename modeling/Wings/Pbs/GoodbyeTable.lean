import Mathlib.Data.List.Perm.Subperm
import Mathlib.Data.List.Sort
import Mathlib.Tactic.Ring

/-!
# Wings.Pbs.GoodbyeTable — the search tree in a goodbye table

`pxar/format.rs`: `bst_copy` says where the items of a sorted list go in a table in which the children of `i` are at
`2 * i + 1` and `2 * i + 2`, and `bst_search_by` descends in it.

* **`layout_is_search_tree`**
-/

namespace Wings.Pbs.Pxar

open List

/-! ## The model

No sum exceeds a `usize`: positions and sources are below `n`, `p` is at most `n`, and a search doubles indices of
a slice. -/

/-- A subtraction of `usize`; `none` is an underflow. -/
def checkedSub (a b : ℕ) : Option ℕ := if b ≤ a then some (a - b) else none

/-- How many of `n` items go to the left of a root with `e` levels below it. -/
def bstLeft (n e : ℕ) : Option ℕ := do
  let p := 2 ^ e
  let t ← checkedSub (p + p / 2) 1
  if t < n then checkedSub p 1 else checkedSub (← checkedSub p 1) (← checkedSub t n)

/-- `bst_copy_inner`: its calls of `copy`, in order. -/
def bstCopyInner : ℕ → ℕ → ℕ → ℕ → Option (List (ℕ × ℕ))
  | n, o, 0, i => do
    let m ← bstLeft n 0
    -- `e - 1` would underflow
    if 0 < m ∨ m + 1 < n then none else some [(o + m, i)]
  | n, o, e + 1, i => do
    let m ← bstLeft n (e + 1)
    let left ← (if 0 < m then bstCopyInner m o e (i * 2 + 1) else some [])
    let right ← (if m + 1 < n then bstCopyInner (n - m - 1) (o + m + 1) e (i * 2 + 2) else some [])
    some ((o + m, i) :: (left ++ right))

def bstCopy (n : ℕ) : Option (List (ℕ × ℕ)) := if n = 0 then some [] else bstCopyInner n 0 n.log2 0

def bstSearchBy {α : Type} (tree : List α) (i skip : ℕ) (compare : α → Ordering) : Option ℕ :=
  if h : i < tree.length then
    match compare tree[i], skip with
    | .lt, skip => bstSearchBy tree (2 * i + 1) skip compare
    | .gt, skip => bstSearchBy tree (2 * i + 2) skip compare
    | .eq, 0 => some i
    | .eq, skip + 1 => (bstSearchBy tree (2 * i + 1) skip compare).or (bstSearchBy tree (2 * i + 2) skip compare)
  else none
termination_by tree.length - i

/-! ## The shape -/

/-- Of a table of `size` positions, `n` are at `i` and below: all of the first `e` levels, some of the next, no
more. -/
structure Fits (size e n i : ℕ) : Prop where
  count : n + 1 = 2 ^ e + min (2 ^ e) (size + 1 - (i + 1) * 2 ^ e)
  last : size + 1 ≤ 2 * ((i + 1) * 2 ^ e)
  full : (i + 1) * 2 ^ e + 2 ^ e ≤ 2 * (size + 1)

section Fits

variable {size e n i : ℕ}

theorem Fits.root (hn : n ≠ 0) : Fits n n.log2 n 0 := by
  have hle := Nat.log2_self_le hn
  have hlt := Nat.lt_log2_self (n := n)
  rw [Nat.pow_succ] at hlt
  constructor <;> omega

theorem Fits.pos_iff (h : Fits size e n i) : 0 < n ↔ i < size := by
  obtain ⟨hcount, -, hfull⟩ := h
  cases e with
  | zero => simp only [Nat.pow_zero] at hcount; omega
  | succ e =>
    have hpos := Nat.two_pow_pos e
    rw [Nat.pow_succ] at hcount hfull
    have hmul : i + 1 ≤ (i + 1) * 2 ^ e := Nat.le_mul_of_pos_right _ hpos
    rw [← Nat.mul_assoc] at hfull
    omega

/-- The items go to both sides such that they fit there. -/
theorem Fits.split (h : Fits size (e + 1) n i) :
    ∃ m < n, bstLeft n (e + 1) = some m ∧ Fits size e m (2 * i + 1) ∧ Fits size e (n - m - 1) (2 * i + 2) := by
  obtain ⟨hcount, hlast, hfull⟩ := h
  have hpos := Nat.two_pow_pos e
  have hleft : (2 * i + 1 + 1) * 2 ^ e = (i + 1) * 2 ^ (e + 1) := by ring
  have hright : (2 * i + 2 + 1) * 2 ^ e = (i + 1) * 2 ^ (e + 1) + 2 ^ e := by ring
  have hp : 2 ^ (e + 1) = 2 ^ e * 2 := Nat.pow_succ 2 e
  obtain ⟨m, hm, hcase⟩ : ∃ m, bstLeft n (e + 1) = some m ∧
      (2 ^ e * 3 ≤ n ∧ m = 2 ^ e * 2 - 1 ∨ n < 2 ^ e * 3 ∧ m = n - 2 ^ e) := by
    have hroom : 1 ≤ 2 ^ e * 2 + 2 ^ e ∧ 1 ≤ 2 ^ e * 2 := by omega
    simp only [bstLeft, checkedSub, hp, Nat.mul_div_cancel _ Nat.two_pos, if_pos hroom.1, if_pos hroom.2,
      Option.bind_eq_bind, Option.bind_some]
    split_ifs <;> simp <;> omega
  refine ⟨m, ?_, hm, ⟨?_, ?_, ?_⟩, ?_, ?_, ?_⟩ <;> omega

end Fits

/-! ## The copy -/

/-- The calls that copy the `n` items from `o` on to the position `i` and below, as a tree. -/
inductive Laid (size : ℕ) : ℕ → ℕ → ℕ → List (ℕ × ℕ) → Prop
  | nil {o i : ℕ} (hi : size ≤ i) : Laid size 0 o i []
  | node {m n o i : ℕ} {left right : List (ℕ × ℕ)} (hi : i < size) (hleft : Laid size m o (2 * i + 1) left)
      (hright : Laid size n (o + m + 1) (2 * i + 2) right) : Laid size (m + 1 + n) o i ((o + m, i) :: (left ++ right))

variable {size e n o i : ℕ} {calls : List (ℕ × ℕ)}

theorem laid_bstCopyInner (h : Fits size e n i) (hn : 0 < n) :
    ∃ calls, bstCopyInner n o e i = some calls ∧ Laid size n o i calls := by
  induction e generalizing n o i with
  | zero =>
    obtain ⟨hcount, hlast, -⟩ := h
    obtain rfl : n = 1 := by omega
    exact ⟨[(o, i)], rfl, .node (by omega) (.nil (by omega)) (.nil (by omega))⟩
  | succ e ih =>
    have hside {n o i : ℕ} (h : Fits size e n i) :
        ∃ calls, (if 0 < n then bstCopyInner n o e i else some []) = some calls ∧ Laid size n o i calls := by
      split_ifs with hn
      · exact ih h hn
      · obtain rfl : n = 0 := by omega
        exact ⟨[], rfl, .nil (Nat.le_of_not_lt fun hi => hn (h.pos_iff.mpr hi))⟩
    obtain ⟨m, hlt, hm, hfl, hfr⟩ := h.split
    obtain ⟨left, hl, hleft⟩ := hside hfl (o := o)
    obtain ⟨right, hr, hright⟩ := hside hfr (o := o + m + 1)
    refine ⟨(o + m, i) :: (left ++ right), ?_, ?_⟩
    · rw [bstCopyInner, hm, Nat.mul_comm i]
      simp only [Option.bind_eq_bind, Option.bind_some, hl, show m + 1 < n ↔ 0 < n - m - 1 by omega, hr]
    · rw [show n = m + 1 + (n - m - 1) by omega]
      exact .node (h.pos_iff.mp hn) hleft hright

theorem laid_bstCopy (n : ℕ) : ∃ calls, bstCopy n = some calls ∧ Laid n n 0 0 calls := by
  unfold bstCopy
  split_ifs with hn
  · subst hn
    exact ⟨[], rfl, .nil le_rfl⟩
  · exact laid_bstCopyInner (.root hn) (Nat.pos_of_ne_zero hn)

theorem Laid.sources (h : Laid size n o i calls) : calls.map Prod.fst ~ range' o n := by
  induction h with
  | nil => exact .refl _
  | @node m n o i left right _ _ _ ihl ihr =>
    rw [map_cons, map_append, Nat.add_assoc, ← range'_append_1, Nat.add_comm 1, range'_succ]
    exact ((ihl.append ihr).cons _).trans perm_middle.symm

theorem Laid.root_mem (h : Laid size n o i calls) (hi : i < size) : i ∈ calls.map Prod.snd := by
  cases h with
  | nil => omega
  | node => exact mem_cons_self

/-- With a position, those of its children that the table has are copied to. -/
theorem Laid.child_mem (h : Laid size n o i calls) {j c : ℕ} (hj : j ∈ calls.map Prod.snd)
    (hc : c = 2 * j + 1 ∨ c = 2 * j + 2) (hlt : c < size) : c ∈ calls.map Prod.snd := by
  induction h with
  | nil => cases hj
  | node _ hleft hright ihl ihr =>
    rw [map_cons, map_append, mem_cons, mem_append] at hj ⊢
    rcases hj with rfl | hj | hj
    · rcases hc with rfl | rfl
      · exact .inr (.inl (hleft.root_mem hlt))
      · exact .inr (.inr (hright.root_mem hlt))
    · exact .inr (.inl (ihl hj))
    · exact .inr (.inr (ihr hj))

theorem Laid.destinations (h : Laid n n 0 0 calls) : calls.map Prod.snd ~ range n := by
  -- every position but the root has a parent
  have hall (j : ℕ) (hj : j < n) : j ∈ calls.map Prod.snd := by
    induction j using Nat.strong_induction_on with
    | _ j ih =>
      cases j with
      | zero => exact h.root_mem hj
      | succ j => exact h.child_mem (ih (j / 2) (by omega) (by omega)) (by omega) hj
  have hlen := h.sources.length_eq
  rw [length_map, length_range'] at hlen
  refine ((nodup_range.subperm fun j hj => hall j (mem_range.mp hj)).perm_of_length_le ?_).symm
  rw [length_map, hlen, length_range]

/-! ## The search -/

variable {κ : Type} [LinearOrder κ] {keys table : List κ} {k : κ}

/-- The search finds the key, or the key is not among those below the position. -/
theorem Laid.search (h : Laid table.length n o i calls) (hcopied : ∀ c ∈ calls, table[c.2]? = keys[c.1]?)
    (hsorted : keys.SortedLT) :
    (∃ j, bstSearchBy table i 0 (compare k) = some j ∧ table[j]? = some k ∧ k ∈ keys) ∨
      bstSearchBy table i 0 (compare k) = none ∧ ∀ s (hs : s < keys.length), o ≤ s → s < o + n → keys[s] ≠ k := by
  induction h with
  | nil hi =>
    rw [bstSearchBy, dif_neg (by omega)]
    exact .inr ⟨rfl, fun s _ hs hs' => by omega⟩
  | @node m n o i left right hi _ _ ihl ihr =>
    obtain ⟨hm, hroot⟩ : ∃ hm : o + m < keys.length, keys[o + m] = table[i] :=
      List.getElem?_eq_some_iff.mp ((hcopied _ mem_cons_self).symm.trans (getElem?_eq_getElem hi))
    rw [bstSearchBy, dif_pos hi, ← hroot]
    rcases lt_trichotomy k keys[o + m] with hlt | rfl | hgt
    · rw [compare_lt_iff_lt.mpr hlt]
      refine (ihl fun c hc => hcopied c (mem_cons_of_mem _ (mem_append_left _ hc))).imp_right ?_
      refine And.imp_right fun hno s hs ho _ heq => hno s hs ho ?_ heq
      exact hsorted.getElem_lt_getElem_iff.mp (heq ▸ hlt)
    · rw [compare_eq_iff_eq.mpr rfl]
      exact .inl ⟨i, rfl, hroot ▸ getElem?_eq_getElem hi, getElem_mem hm⟩
    · rw [compare_gt_iff_gt.mpr hgt]
      refine (ihr fun c hc => hcopied c (mem_cons_of_mem _ (mem_append_right _ hc))).imp_right ?_
      refine And.imp_right fun hno s hs _ hn heq => hno s hs ?_ (by omega) heq
      exact hsorted.getElem_lt_getElem_iff.mp (heq ▸ hgt)

/-- **The layout of a goodbye table is a search tree.**  For every `n` no subtraction of `bst_copy` underflows,
each of the sources and destinations below `n` is in one call, and in a table of growing keys that are copied this
way the search finds a key where it is, and nothing for what is no key. -/
theorem layout_is_search_tree (n : ℕ) : ∃ calls, bstCopy n = some calls ∧
    calls.map Prod.fst ~ range n ∧ calls.map Prod.snd ~ range n ∧
    ∀ keys table : List κ, keys.length = n → table.length = n → keys.SortedLT →
      (∀ c ∈ calls, table[c.2]? = keys[c.1]?) → ∀ k,
        (k ∈ keys → ∃ i, bstSearchBy table 0 0 (compare k) = some i ∧ table[i]? = some k) ∧
          (k ∉ keys → bstSearchBy table 0 0 (compare k) = none) := by
  obtain ⟨calls, hcalls, hlaid⟩ := laid_bstCopy n
  refine ⟨calls, hcalls, range_eq_range' ▸ hlaid.sources, hlaid.destinations, ?_⟩
  rintro keys table hkeys rfl hsorted hcopied k
  rcases hlaid.search hcopied hsorted with ⟨j, hj, hget, hmem⟩ | ⟨hnone, hno⟩
  · exact ⟨fun _ => ⟨j, hj, hget⟩, fun hk => absurd hmem hk⟩
  · refine ⟨fun hk => ?_, fun _ => hnone⟩
    obtain ⟨s, hs, hget⟩ := mem_iff_getElem.mp hk
    exact absurd hget (hno s hs (Nat.zero_le s) (by omega))

theorem layout_is_search_tree_three :
    ∃ i, bstSearchBy [4, 2, 6] 0 0 (compare 6) = some i ∧ [4, 2, 6][i]? = some 6 := by
  obtain ⟨calls, hcalls, -, -, hsearch⟩ := layout_is_search_tree (κ := ℕ) 3
  obtain rfl : [(1, 0), (0, 1), (2, 2)] = calls := Option.some.inj hcalls
  exact (hsearch [2, 4, 6] [4, 2, 6] rfl rfl (Pairwise.sortedLT (by decide)) (by decide) 6).1 (by decide)

end Wings.Pbs.Pxar
