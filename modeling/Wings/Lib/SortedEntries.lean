import Mathlib.Order.Lattice
import Mathlib.Data.List.Basic
import Mathlib.Data.List.Pairwise

/-!
# Wings.Lib.SortedEntries — a map kept as a sorted vector

A vector of key-value pairs, strictly sorted by key, searched with the binary search of Rust's
`slice::binary_search_by` and changed at the index the search returns.
-/

namespace Wings.Lib

open List

variable {κ α : Type*} [LinearOrder κ] {xs : List (κ × α)}

def Sorted (xs : List (κ × α)) : Prop := xs.Pairwise (·.1 < ·.1)

/-! ## Binary search -/

/-- The loop of `binary_search_by`: the answer is in `base .. base + size`.  `compareAt` is the
comparison of the element at an index with the key. -/
def searchLoop (compareAt : ℕ → Ordering) : (fuel base size : ℕ) → ℕ
  | 0, base, _ => base
  | fuel + 1, base, size =>
    if size ≤ 1 then base
    else
      let half := size / 2
      let mid := base + half
      searchLoop compareAt fuel (if compareAt mid = .gt then base else mid) (size - half)

/-- The comparison of the entry at an index with `k`; the index is always in bounds. -/
def compareAt (xs : List (κ × α)) (k : κ) (i : ℕ) : Ordering :=
  match xs[i]? with
  | some e => compare e.1 k
  | none => .gt

/-- `binary_search_by(|e| e.0.cmp(k))`: the index of the key, or where to insert it. -/
def binarySearch (xs : List (κ × α)) (k : κ) : Except ℕ ℕ :=
  if xs.length = 0 then .error 0
  else
    let base := searchLoop (compareAt xs k) xs.length 0 xs.length
    match compareAt xs k base with
    | .eq => .ok base
    | .lt => .error (base + 1)
    | .gt => .error base

/-- The loop ends at the last index whose entry is not greater, or at `0`: from an interval outside
of which that is known, halving keeps it known. -/
theorem searchLoop_spec (cmp : ℕ → Ordering) (n fuel base size : ℕ) (hfuel : size ≤ fuel + 1)
    (hsize : 0 < size) (hn : base + size ≤ n) (hbase : base = 0 ∨ cmp base ≠ .gt)
    (hright : ∀ j, base + size ≤ j → j < n → cmp j = .gt) (hmono : ∀ i j, i ≤ j → j < n → cmp i = .gt → cmp j = .gt) :
    searchLoop cmp fuel base size < n ∧
      (searchLoop cmp fuel base size = 0 ∨ cmp (searchLoop cmp fuel base size) ≠ .gt) ∧
      ∀ j, searchLoop cmp fuel base size < j → j < n → cmp j = .gt := by
  induction fuel generalizing base size with
  | zero =>
    have : size = 1 := by omega
    subst this
    exact ⟨hn, hbase, fun j hj hjn => hright j hj hjn⟩
  | succ fuel ih =>
    unfold searchLoop
    by_cases hs : size ≤ 1
    · have : size = 1 := by omega
      subst this
      exact ⟨hn, hbase, fun j hj hjn => hright j hj hjn⟩
    · rw [if_neg hs]
      by_cases hmid : cmp (base + size / 2) = .gt
      · simp only [hmid, if_true]
        refine ih _ _ (by omega) (by omega) (by omega) hbase fun j hj hjn => ?_
        exact hmono (base + size / 2) j (by omega) hjn hmid
      · simp only [hmid, if_false]
        refine ih _ _ (by omega) (by omega) (by omega) (.inr hmid) fun j hj hjn => ?_
        exact hright j (by omega) hjn

theorem compareAt_of_lt {k : κ} {i : ℕ} (h : i < xs.length) : compareAt xs k i = compare xs[i].1 k := by
  simp [compareAt, h]

section

variable (h : Sorted xs)
include h

theorem Sorted.lt_of_lt {i j : ℕ} (hij : i < j) (hi : i < xs.length) (hj : j < xs.length) : xs[i].1 < xs[j].1 :=
  pairwise_iff_getElem.mp h i j hi hj hij

theorem Sorted.nodup_keys : (xs.map Prod.fst).Nodup :=
  pairwise_map.mpr (h.imp fun hlt => hlt.ne)

theorem compareAt_mono {k : κ} {i j : ℕ} (hij : i ≤ j)
    (hj : j < xs.length) (hi : compareAt xs k i = .gt) : compareAt xs k j = .gt := by
  rcases Nat.eq_or_lt_of_le hij with rfl | hlt
  · exact hi
  · have hi' : i < xs.length := by omega
    rw [compareAt_of_lt hi', compare_gt_iff_gt] at hi
    rw [compareAt_of_lt hj, compare_gt_iff_gt]
    exact hi.trans (h.lt_of_lt hlt hi' hj)

/-- **Binary search.**  On sorted entries the search finds the key where it is, or the one place
where it belongs. -/
theorem binarySearch_split (k : κ) :
    (∃ l v r, xs = l ++ (k, v) :: r ∧ binarySearch xs k = .ok l.length) ∨
      ∃ l r, xs = l ++ r ∧ binarySearch xs k = .error l.length ∧ (∀ e ∈ l, e.1 < k) ∧ ∀ e ∈ r, k < e.1 := by
  by_cases hempty : xs.length = 0
  · refine .inr ⟨[], xs, rfl, by rw [binarySearch, if_pos hempty]; rfl, by simp, ?_⟩
    simp [length_eq_zero_iff.mp hempty]
  -- split the entries at the index where the loop ends
  obtain ⟨hlt, hbase, hright⟩ := searchLoop_spec (compareAt xs k) xs.length xs.length 0 xs.length
    (by omega) (by omega) (by omega) (.inl rfl) (fun j hj hjn => by omega)
    fun i j hij hj hi => compareAt_mono h hij hj hi
  have hsearch : binarySearch xs k =
      match compareAt xs k (searchLoop (compareAt xs k) xs.length 0 xs.length) with
      | .eq => .ok (searchLoop (compareAt xs k) xs.length 0 xs.length)
      | .lt => .error (searchLoop (compareAt xs k) xs.length 0 xs.length + 1)
      | .gt => .error (searchLoop (compareAt xs k) xs.length 0 xs.length) := by
    rw [binarySearch, if_neg hempty]
  generalize searchLoop (compareAt xs k) xs.length 0 xs.length = base at hlt hbase hright hsearch
  have hafter : ∀ e ∈ xs.drop (base + 1), k < e.1 := by
    intro e he
    obtain ⟨j, hj, rfl⟩ := mem_drop_iff_getElem.mp he
    have hgt := hright (base + 1 + j) (by omega) (by omega)
    rw [compareAt_of_lt (by omega), compare_gt_iff_gt] at hgt
    exact hgt
  cases hcmp : compareAt xs k base with
  | eq =>
    rw [compareAt_of_lt hlt, compare_eq_iff_eq] at hcmp
    refine .inl ⟨xs.take base, xs[base].2, xs.drop (base + 1), ?_, ?_⟩
    · have hentry : (k, xs[base].2) = xs[base] := Prod.ext hcmp.symm rfl
      rw [hentry, ← drop_eq_getElem_cons, take_append_drop]
    · rw [hsearch, compareAt_of_lt hlt, compare_eq_iff_eq.mpr hcmp, length_take]
      simp only [Except.ok.injEq]
      omega
  | lt =>
    rw [hcmp] at hsearch
    refine .inr ⟨xs.take (base + 1), xs.drop (base + 1), (take_append_drop _ _).symm, ?_, ?_, hafter⟩
    · rw [hsearch, length_take]
      simp only [Except.error.injEq]
      omega
    · intro e he
      obtain ⟨j, hj, rfl⟩ := mem_take_iff_getElem.mp he
      rw [compareAt_of_lt hlt, compare_lt_iff_lt] at hcmp
      rcases Nat.eq_or_lt_of_le (show j ≤ base by omega) with rfl | hjb
      · exact hcmp
      · exact (h.lt_of_lt hjb (by omega) hlt).trans hcmp
  | gt =>
    -- the loop can only stop at a greater entry when it never moved
    obtain rfl : base = 0 := hbase.resolve_right fun hne => hne hcmp
    rw [hcmp] at hsearch
    refine .inr ⟨[], xs, rfl, hsearch, by simp, ?_⟩
    intro e he
    obtain ⟨j, hj, rfl⟩ := mem_iff_getElem.mp he
    have hgt := compareAt_mono h (Nat.zero_le j) hj hcmp
    rw [compareAt_of_lt hj, compare_gt_iff_gt] at hgt
    exact hgt

end

/-! ## Finding, upserting, erasing -/

/-- The value at a key, if the search finds it. -/
def find (xs : List (κ × α)) (k : κ) : Option α :=
  match binarySearch xs k with
  | .ok i => xs[i]?.map Prod.snd
  | .error _ => none

/-- Change the value at a key; a missing key is first inserted with the value `d`. -/
def upsert (xs : List (κ × α)) (k : κ) (d : α) (f : α → α) : List (κ × α) :=
  match binarySearch xs k with
  | .ok i => xs.modify i fun e => (e.1, f e.2)
  | .error i => xs.insertIdx i (k, f d)

def erase (xs : List (κ × α)) (k : κ) : List (κ × α) :=
  match binarySearch xs k with
  | .ok i => xs.eraseIdx i
  | .error _ => xs

theorem insertIdx_length_append {β : Type*} (l r : List β) (b : β) :
    (l ++ r).insertIdx l.length b = l ++ b :: r := by
  induction l with
  | nil => rfl
  | cons a l ih => simp [ih]

theorem modify_length_append {β : Type*} (l r : List β) (b : β) (f : β → β) :
    (l ++ b :: r).modify l.length f = l ++ f b :: r := by
  induction l with
  | nil => rfl
  | cons a l ih => simp [ih]

theorem Sorted.keys_ne {l r : List (κ × α)} {k : κ} {v : α} (h : Sorted (l ++ (k, v) :: r)) :
    (∀ e ∈ l, e.1 < k) ∧ ∀ e ∈ r, k < e.1 := by
  obtain ⟨-, hr, hlr⟩ := pairwise_append.mp h
  exact ⟨fun e he => hlr e he (k, v) (by simp), fun e he => (pairwise_cons.mp hr).1 e he⟩

/-- What the three operations do, from where the key is or belongs. -/
theorem operations_split (h : Sorted xs) (k : κ) :
    ∃ l r, (∀ e ∈ l, e.1 < k) ∧ (∀ e ∈ r, k < e.1) ∧
      ((∃ v, xs = l ++ (k, v) :: r ∧ find xs k = some v ∧ erase xs k = l ++ r ∧
          ∀ d f, upsert xs k d f = l ++ (k, f v) :: r) ∨ (xs = l ++ r ∧ find xs k = none ∧ erase xs k = xs ∧
          ∀ d f, upsert xs k d f = l ++ (k, f d) :: r)) := by
  rcases binarySearch_split h k with ⟨l, v, r, rfl, hs⟩ | ⟨l, r, rfl, hs, hl, hr⟩
  · obtain ⟨hl, hr⟩ := h.keys_ne
    refine ⟨l, r, hl, hr, .inl ⟨v, rfl, ?_, ?_, fun d f => ?_⟩⟩
    · simp [find, hs]
    · simp [erase, hs, eraseIdx_append_of_length_le]
    · rw [upsert, hs]
      exact modify_length_append l r (k, v) _
  · refine ⟨l, r, hl, hr, .inr ⟨rfl, ?_, ?_, fun d f => ?_⟩⟩
    · simp [find, hs]
    · simp [erase, hs]
    · rw [upsert, hs]
      exact insertIdx_length_append l r _

section specs

variable {xs : List (κ × α)} {k : κ}

theorem find_eq_some_iff (h : Sorted xs) {v : α} : find xs k = some v ↔ (k, v) ∈ xs := by
  obtain ⟨l, r, hl, hr, hsplit⟩ := operations_split h k
  have hnl : ∀ w, (k, w) ∉ l := fun w hw => lt_irrefl k (hl _ hw)
  have hnr : ∀ w, (k, w) ∉ r := fun w hw => lt_irrefl k (hr _ hw)
  rcases hsplit with ⟨w, rfl, hf, -, -⟩ | ⟨rfl, hf, -, -⟩
  · rw [hf]
    simp [hnl, hnr, eq_comm]
  · rw [hf]
    simp [hnl, hnr]

variable {l r : List (κ × α)}

theorem sorted_insert {v : α} (h : Sorted (l ++ r)) (hl : ∀ e ∈ l, e.1 < k)
    (hr : ∀ e ∈ r, k < e.1) : Sorted (l ++ (k, v) :: r) := by
  obtain ⟨hsl, hsr, hlr⟩ := pairwise_append.mp h
  refine pairwise_append.mpr ⟨hsl, pairwise_cons.mpr ⟨hr, hsr⟩, fun a ha b hb => ?_⟩
  rcases mem_cons.mp hb with rfl | hb
  · exact hl a ha
  · exact hlr a ha b hb

theorem Sorted.of_insert {e : κ × α} (h : Sorted (l ++ e :: r)) : Sorted (l ++ r) :=
  h.sublist (Sublist.append_left (sublist_cons_self e r) l)

theorem Sorted.upsert (h : Sorted xs) (k : κ) (d : α) (f : α → α) : Sorted (upsert xs k d f) := by
  obtain ⟨l, r, hl, hr, hsplit⟩ := operations_split h k
  rcases hsplit with ⟨v, rfl, -, -, hu⟩ | ⟨rfl, -, -, hu⟩
  · rw [hu]
    exact sorted_insert h.of_insert hl hr
  · rw [hu]
    exact sorted_insert h hl hr

theorem Sorted.erase (h : Sorted xs) (k : κ) : Sorted (erase xs k) := by
  obtain ⟨l, r, -, -, hsplit⟩ := operations_split h k
  rcases hsplit with ⟨v, rfl, -, he, -⟩ | ⟨rfl, -, he, -⟩
  · rw [he]
    exact h.of_insert
  · rw [he]
    exact h

/-- Two sorted vectors that differ in one entry agree on every other key. -/
theorem find_eq_of_ne {ys : List (κ × α)} {k' : κ} (hx : Sorted xs) (hy : Sorted ys)
    (hmem : ∀ v, (k', v) ∈ xs ↔ (k', v) ∈ ys) : find xs k' = find ys k' := by
  ext v
  rw [find_eq_some_iff hx, find_eq_some_iff hy, hmem]

/-- **Upsert.**  The key carries the changed value, every other key what it carried before. -/
theorem find_upsert (h : Sorted xs) (k k' : κ) (d : α) (f : α → α) :
    find (upsert xs k d f) k' = if k' = k then some (f ((find xs k).getD d)) else find xs k' := by
  have hs := h.upsert k d f
  obtain ⟨l, r, hl, hr, hsplit⟩ := operations_split h k
  by_cases hk : k' = k
  · subst hk
    rw [if_pos rfl, find_eq_some_iff hs]
    rcases hsplit with ⟨v, -, hf, -, hu⟩ | ⟨-, hf, -, hu⟩ <;> simp [hu, hf]
  · rw [if_neg hk]
    refine find_eq_of_ne hs h fun v => ?_
    rcases hsplit with ⟨w, rfl, -, -, hu⟩ | ⟨rfl, -, -, hu⟩ <;> simp [hu, hk]

/-- **Erase.**  The key is gone, every other key carries what it carried before. -/
theorem find_erase (h : Sorted xs) (k k' : κ) : find (erase xs k) k' = if k' = k then none else find xs k' := by
  have hs := h.erase k
  obtain ⟨l, r, hl, hr, hsplit⟩ := operations_split h k
  by_cases hk : k' = k
  · subst hk
    rw [if_pos rfl, Option.eq_none_iff_forall_ne_some]
    intro v hv
    rw [find_eq_some_iff hs] at hv
    have hnl : (k', v) ∉ l := fun hw => lt_irrefl k' (hl _ hw)
    have hnr : (k', v) ∉ r := fun hw => lt_irrefl k' (hr _ hw)
    rcases hsplit with ⟨w, rfl, -, he, -⟩ | ⟨rfl, -, he, -⟩ <;> simp [he, hnl, hnr] at hv
  · rw [if_neg hk]
    refine find_eq_of_ne hs h fun v => ?_
    rcases hsplit with ⟨w, rfl, -, he, -⟩ | ⟨rfl, -, he, -⟩ <;> simp [he, hk]

end specs

end Wings.Lib
