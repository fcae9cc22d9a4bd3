import Mathlib.Data.List.Nodup
import Mathlib.Order.Lattice

/-!
# Wings.Lib.RowTable — a table whose rows are kept in the order of their integer key

An SQL table with an integer primary key: a new row gets the successor of the largest key in use, so
a key can come back after its row was deleted.  The structure carries the order of the rows.
-/

namespace Wings.Lib

open List

/-- Rows in strictly increasing order of their keys. -/
structure RowTable (ρ : Type*) (key : ρ → ℕ) where
  rows : List ρ
  ordered : rows.Pairwise fun a b => key a < key b

namespace RowTable

variable {ρ : Type*} {key : ρ → ℕ}

def empty : RowTable ρ key := ⟨[], .nil⟩

def nextKey (t : RowTable ρ key) : ℕ := (t.rows.map key).foldr max 0 + 1

variable {t : RowTable ρ key} {r r' : ρ} {p : ρ → Bool}

theorem key_lt_nextKey (h : r ∈ t.rows) : key r < t.nextKey := by
  have hle : ∀ l : List ρ, r ∈ l → key r ≤ (l.map key).foldr max 0 := by
    intro l hl
    induction l with
    | nil => cases hl
    | cons x l ih =>
      rw [map_cons, foldr_cons]
      rcases mem_cons.mp hl with rfl | hl
      · exact le_max_left _ _
      · exact (ih hl).trans (le_max_right _ _)
  exact Nat.lt_succ_of_le (hle t.rows h)

def insert (t : RowTable ρ key) (r : ρ) (h : key r = t.nextKey) : RowTable ρ key where
  rows := t.rows ++ [r]
  ordered := by
    refine List.pairwise_append.mpr ⟨t.ordered, List.pairwise_singleton _ _, fun a ha b hb => ?_⟩
    obtain rfl := List.mem_singleton.mp hb
    rw [h]
    exact key_lt_nextKey ha

def select (t : RowTable ρ key) (p : ρ → Bool) : RowTable ρ key :=
  ⟨t.rows.filter p, t.ordered.filter p⟩

/-- A change to the rows that keeps their keys. -/
def update (t : RowTable ρ key) (f : ρ → ρ) (h : ∀ r, key (f r) = key r) : RowTable ρ key where
  rows := t.rows.map f
  ordered := List.pairwise_map.mpr (t.ordered.imp fun {a b} hab => by rwa [h, h])

def find (t : RowTable ρ key) (k : ℕ) : Option ρ := t.rows.find? fun r => key r = k

/-- The row with the largest key among those that satisfy the predicate. -/
def newest (t : RowTable ρ key) (p : ρ → Bool) : Option ρ := (t.rows.filter p).getLast?

/-- The row with the smallest key among those that satisfy the predicate. -/
def oldest (t : RowTable ρ key) (p : ρ → Bool) : Option ρ := t.rows.find? p

@[simp] theorem mem_insert {h : key r = t.nextKey} : r' ∈ (t.insert r h).rows ↔ r' ∈ t.rows ∨ r' = r := by
  simp [insert]

@[simp] theorem mem_select : r ∈ (t.select p).rows ↔ r ∈ t.rows ∧ p r = true := by
  simp [select]

theorem eq_of_key (hr : r ∈ t.rows) (hr' : r' ∈ t.rows) (h : key r = key r') : r = r' := by
  have hnodup : (t.rows.map key).Nodup := pairwise_map.mpr (t.ordered.imp fun h => h.ne)
  exact inj_on_of_nodup_map hnodup hr hr' h

theorem find_of_mem (hr : r ∈ t.rows) : t.find (key r) = some r := by
  have hsome : (t.find (key r)).isSome := find?_isSome.mpr ⟨r, hr, decide_eq_true rfl⟩
  obtain ⟨r', hr'⟩ := Option.isSome_iff_exists.mp hsome
  have hkey : key r' = key r := by simpa using find?_some hr'
  rw [hr', eq_of_key (mem_of_find?_eq_some hr') hr hkey]

/-- The order of the rows at the last of those that satisfy a predicate. -/
theorem newest_eq_some_iff :
    t.newest p = some r ↔ r ∈ t.rows ∧ p r = true ∧ ∀ r' ∈ t.rows, p r' = true → key r' ≤ key r := by
  have hlast : ∀ r, t.newest p = some r →
      r ∈ t.rows ∧ p r = true ∧ ∀ r' ∈ t.rows, p r' = true → key r' ≤ key r := by
    intro r h
    obtain ⟨l, hl⟩ := getLast?_eq_some_iff.mp h
    have hmem : r ∈ t.rows.filter p := by rw [hl]; simp
    refine ⟨(mem_filter.mp hmem).1, (mem_filter.mp hmem).2, fun r' hr' hp' => ?_⟩
    have hmem' : r' ∈ l ++ [r] := by rw [← hl]; exact mem_filter.mpr ⟨hr', hp'⟩
    have hord : (l ++ [r]).Pairwise fun a b => key a < key b := by rw [← hl]; exact t.ordered.filter p
    rcases mem_append.mp hmem' with h | h
    · exact ((pairwise_append.mp hord).2.2 r' h r (by simp)).le
    · rw [mem_singleton.mp h]
  refine ⟨hlast r, ?_⟩
  rintro ⟨hr, hp, hmax⟩
  have hne : t.rows.filter p ≠ [] := ne_nil_of_mem (mem_filter.mpr ⟨hr, hp⟩)
  have hsome : t.newest p = some ((t.rows.filter p).getLast hne) := getLast?_eq_some_getLast hne
  obtain ⟨hr', hp', hmax'⟩ := hlast _ hsome
  rw [hsome, eq_of_key hr' hr (le_antisymm (hmax _ hr' hp') (hmax' _ hr hp))]

theorem newest_eq_none_iff : t.newest p = none ↔ ∀ r ∈ t.rows, p r = false := by
  simp [newest]

theorem oldest_eq_some (h : t.oldest p = some r) :
    r ∈ t.rows ∧ p r = true ∧ ∀ r' ∈ t.rows, p r' = true → key r ≤ key r' := by
  obtain ⟨hp, l, l', hl, hnot⟩ := find?_eq_some_iff_append.mp h
  refine ⟨by rw [hl]; simp, hp, fun r' hr' hp' => ?_⟩
  have hord := t.ordered
  rw [hl] at hr' hord
  have hord' := (pairwise_append.mp hord).2.1
  rcases mem_append.mp hr' with h | h
  · have := hnot r' h
    simp [hp'] at this
  · rcases mem_cons.mp h with rfl | h
    · exact le_rfl
    · exact ((pairwise_cons.mp hord').1 r' h).le

end RowTable

end Wings.Lib
