import Mathlib.Data.List.Nodup
import Mathlib.Data.List.Flatten
import Wings.Lib.PartitionPoint
import Wings.Path

/-!
# Wings.Pbs.ChunkReader — the chunks behind an archive

The first half of `pbs-client/src/accessor.rs`: an archive is the concatenation of chunks that an index lists with
their end offsets.  A read looks for the chunk at its offset and takes what that chunk has; chunks that were
fetched are kept in a cache that forgets the least recently used one.
-/

namespace Wings.Pbs

open Lib Function List Option

/-! ## The index -/

/-- A dynamic index with the chunks that its digests stand for. -/
structure DynamicIndex where
  ends : List ℕ
  chunks : List (List Byte)
  cumulative : ends = (List.range chunks.length).map fun i => (chunks.take (i + 1)).flatten.length

namespace DynamicIndex

variable {ix : DynamicIndex} {offset : ℕ}

def ofChunks (chunks : List (List Byte)) : DynamicIndex := ⟨_, chunks, rfl⟩

def bytes (ix : DynamicIndex) : List Byte := ix.chunks.flatten

def size (ix : DynamicIndex) : ℕ := ix.ends.getLast?.getD 0

/-- The number and the start of the chunk with the byte at an offset, as `read_into` looks for them. -/
def locate (ix : DynamicIndex) (offset : ℕ) : ℕ × ℕ :=
  let idx := partitionPoint (fun stop => decide (stop ≤ offset)) ix.ends
  (idx, match idx with
    | 0 => 0
    | prev + 1 => (ix.ends[prev]?).getD 0)

/-- Where the chunks before one end. -/
def startOf (ix : DynamicIndex) (idx : ℕ) : ℕ := (ix.chunks.take idx).flatten.length

theorem startOf_mono {i j : ℕ} (h : i ≤ j) : ix.startOf i ≤ ix.startOf j := by
  have hprefix : ix.chunks.take i <+: ix.chunks.take j := take_prefix_take_left h
  obtain ⟨rest, hrest⟩ := hprefix
  rw [startOf, startOf, ← hrest, flatten_append, length_append]
  exact Nat.le_add_right _ _

theorem getElem?_ends (i : ℕ) : ix.ends[i]? = if i < ix.chunks.length then some (ix.startOf (i + 1)) else none := by
  rw [ix.cumulative, getElem?_map]
  split
  next hlt => rw [getElem?_range hlt, map_some, startOf]
  next hge => rw [getElem?_eq_none (by simpa using hge), map_none]

theorem size_eq : ix.size = ix.bytes.length := by
  rw [size, getLast?_eq_getElem?, getElem?_ends, bytes]
  have hlength : ix.ends.length = ix.chunks.length := by rw [ix.cumulative, length_map, length_range]
  rw [hlength]
  cases hchunks : ix.chunks.length with
  | zero =>
    rw [length_eq_zero_iff.mp hchunks]
    rfl
  | succ n =>
    rw [Nat.add_sub_cancel, if_pos (Nat.lt_succ_self n), getD_some, startOf, ← hchunks, take_length]

theorem partitioned_ends (offset : ℕ) : Partitioned (fun stop => decide (stop ≤ offset)) ix.ends := by
  have hsorted : ix.ends.Pairwise (· ≤ ·) := by
    rw [ix.cumulative, pairwise_map]
    exact pairwise_lt_range.imp fun hlt => startOf_mono (by omega)
  exact hsorted.imp fun hle hstop => decide_eq_true (hle.trans (of_decide_eq_true hstop))

/-- **The chunk that is found has the byte at the offset.** -/
theorem locate_spec (hoffset : offset < ix.size) :
    ∃ chunk, ix.chunks[(ix.locate offset).1]? = some chunk ∧
      (ix.locate offset).2 = ix.startOf (ix.locate offset).1 ∧ ix.startOf (ix.locate offset).1 ≤ offset ∧
      offset < ix.startOf (ix.locate offset).1 + chunk.length := by
  obtain ⟨hbelow, habove⟩ := partitionPoint_spec (ix.partitioned_ends offset)
  have hidx : (ix.locate offset).1 = partitionPoint (fun stop => decide (stop ≤ offset)) ix.ends := rfl
  have hstart : (ix.locate offset).2 = match (ix.locate offset).1 with
      | 0 => 0
      | prev + 1 => (ix.ends[prev]?).getD 0 := rfl
  rw [← hidx] at hbelow habove
  generalize (ix.locate offset).1 = idx at *
  have hlt : idx < ix.chunks.length := by
    by_contra hge
    -- all chunks would end at or before the offset
    have hlast := hbelow (ix.chunks.length - 1)
    rw [size_eq, bytes] at hoffset
    cases hchunks : ix.chunks.length with
    | zero =>
      rw [length_eq_zero_iff.mp hchunks] at hoffset
      exact absurd hoffset (Nat.not_lt_zero _)
    | succ n =>
      rw [hchunks, Nat.add_sub_cancel, getElem?_ends, if_pos (by omega), startOf, ← hchunks, take_length] at hlast
      exact absurd (of_decide_eq_true (hlast (by omega))) (by omega)
  have hnext : offset < ix.startOf (idx + 1) := by
    have := habove idx le_rfl
    rw [getElem?_ends, if_pos hlt] at this
    exact Nat.lt_of_not_le (of_decide_eq_false this)
  refine ⟨ix.chunks[idx], getElem?_eq_getElem hlt, ?_, ?_, ?_⟩
  · rw [hstart]
    cases idx with
    | zero => rfl
    | succ prev =>
      show (ix.ends[prev]?).getD 0 = _
      rw [getElem?_ends, if_pos (by omega), getD_some]
  · cases idx with
    | zero => exact Nat.zero_le _
    | succ prev =>
      have := hbelow prev (Nat.lt_succ_self prev)
      rw [getElem?_ends, if_pos (by omega)] at this
      exact of_decide_eq_true this
  · rwa [startOf, take_succ_eq_append_getElem hlt, flatten_append, length_append, flatten_singleton] at hnext

end DynamicIndex

/-! ## The cache -/

/-- The chunks that are kept, listed from the least to the most recently used one. -/
structure ChunkCache where
  map : ℕ → Option (List Byte)
  order : List ℕ
  capacity : ℕ
  positive : 0 < capacity
  listed : ∀ idx, idx ∈ order ↔ (map idx).isSome
  nodup : order.Nodup
  bounded : order.length ≤ capacity

namespace ChunkCache

def new (capacity : ℕ) : ChunkCache where
  map _ := none
  order := []
  capacity := max capacity 1
  positive := Nat.lt_of_lt_of_le Nat.zero_lt_one (Nat.le_max_right _ _)
  listed _ := by simp
  nodup := List.nodup_nil
  bounded := Nat.zero_le _

/-- `get`: a chunk that is found becomes the most recently used one. -/
def get (cache : ChunkCache) (idx : ℕ) : Option (List Byte) × ChunkCache :=
  match hidx : cache.map idx with
  | none => (none, cache)
  | some value =>
    (some value, { cache with
        order := cache.order.erase idx ++ [idx]
        listed := by
          intro j
          rw [List.mem_append, List.mem_singleton, cache.nodup.mem_erase_iff, ← cache.listed]
          have hmem : idx ∈ cache.order := (cache.listed idx).mpr (by rw [hidx]; rfl)
          by_cases hj : j = idx
          · simp [hj, hmem]
          · simp [hj]
        nodup := by
          refine List.nodup_append.mpr ⟨cache.nodup.erase idx, List.nodup_singleton idx, ?_⟩
          rintro j hj _ hidx' rfl
          rw [List.mem_singleton] at hidx'
          exact (cache.nodup.mem_erase_iff.mp hj).1 hidx'
        bounded := by
          have hmem : idx ∈ cache.order := (cache.listed idx).mpr (by rw [hidx]; rfl)
          have := List.length_pos_of_mem hmem
          have := cache.bounded
          rw [List.length_append, List.length_erase_of_mem hmem, List.length_singleton]
          omega })

/-- The eviction loop of `insert`: the front goes as long as there is no room. -/
def evict (capacity : ℕ) (map : ℕ → Option (List Byte)) : List ℕ → (ℕ → Option (List Byte)) × List ℕ
  | [] => (map, [])
  | front :: order =>
    if capacity ≤ order.length + 1 then evict capacity (Function.update map front none) order
    else (map, front :: order)

theorem evict_spec {capacity : ℕ} (hcapacity : 0 < capacity) {map : ℕ → Option (List Byte)} {order : List ℕ}
    (hlisted : ∀ idx, idx ∈ order ↔ (map idx).isSome) (hnodup : order.Nodup) :
    (∀ idx, idx ∈ (evict capacity map order).2 ↔ ((evict capacity map order).1 idx).isSome) ∧
      (evict capacity map order).2.Nodup ∧ (evict capacity map order).2.length < capacity ∧
      ∀ idx value, (evict capacity map order).1 idx = some value → map idx = some value := by
  induction order generalizing map with
  | nil => exact ⟨hlisted, hnodup, hcapacity, fun _ _ h => h⟩
  | cons front order ih =>
    obtain ⟨hfront, hrest⟩ := nodup_cons.mp hnodup
    rw [evict]
    split_ifs with hfull
    · have hleft : ∀ idx, idx ∈ order ↔ (update map front none idx).isSome := by
        intro idx
        by_cases heq : idx = front
        · rw [heq, update_self]
          exact ⟨fun hmem => absurd hmem hfront, nofun⟩
        · rw [update_of_ne heq, ← hlisted, mem_cons]
          exact ⟨.inr, fun h => h.resolve_left heq⟩
      obtain ⟨hlisted', hnodup', hroom, hkept⟩ := ih hleft hrest
      refine ⟨hlisted', hnodup', hroom, fun idx value hvalue => ?_⟩
      have hold := hkept idx value hvalue
      by_cases heq : idx = front
      · rw [heq, update_self] at hold
        cases hold
      · rwa [update_of_ne heq] at hold
    · exact ⟨hlisted, hnodup, by rw [length_cons]; omega, fun _ _ h => h⟩

/-- `insert`: nothing happens if the chunk is kept already. -/
def insert (cache : ChunkCache) (idx : ℕ) (value : List Byte) : ChunkCache :=
  if hidx : (cache.map idx).isSome then cache
  else
    let left := evict cache.capacity cache.map cache.order
    have hleft := evict_spec cache.positive cache.listed cache.nodup
    have hnew : idx ∉ left.2 := fun hmem => by
      obtain ⟨old, hold⟩ := Option.isSome_iff_exists.mp ((hleft.1 idx).mp hmem)
      exact hidx (by rw [hleft.2.2.2 idx old hold]; rfl)
    { cache with
      map := Function.update left.1 idx (some value)
      order := left.2 ++ [idx]
      listed := by
        intro j
        rw [List.mem_append, List.mem_singleton]
        by_cases hj : j = idx
        · simp [hj]
        · simp [hj, hleft.1 j, left]
      nodup := by
        refine List.nodup_append.mpr ⟨hleft.2.1, List.nodup_singleton idx, ?_⟩
        rintro j hj _ hidx' rfl
        exact hnew (List.mem_singleton.mp hidx' ▸ hj)
      bounded := by
        rw [List.length_append, List.length_singleton]
        exact hleft.2.2.1 }

/-- What is kept is what the index stands for. -/
def Holds (ix : DynamicIndex) (cache : ChunkCache) : Prop :=
  ∀ idx value, cache.map idx = some value → ix.chunks[idx]? = some value

variable {ix : DynamicIndex} {cache : ChunkCache} {idx : ℕ}

theorem holds_new (ix : DynamicIndex) (capacity : ℕ) : Holds ix (new capacity) := nofun

theorem fst_get : (cache.get idx).1 = cache.map idx := by
  unfold get
  split <;> exact Eq.symm ‹_›

theorem Holds.get (h : Holds ix cache) : Holds ix (cache.get idx).2 := by
  unfold ChunkCache.get
  split
  · exact h
  · exact h

theorem Holds.insert (h : Holds ix cache) {value : List Byte} (hvalue : ix.chunks[idx]? = some value) :
    Holds ix (cache.insert idx value) := by
  unfold ChunkCache.insert
  split_ifs
  · exact h
  · intro j found hj
    change update (evict cache.capacity cache.map cache.order).1 idx (some value) j = some found at hj
    by_cases heq : j = idx
    · rw [heq, update_self] at hj
      rw [heq, hvalue, hj]
    · rw [update_of_ne heq] at hj
      exact h j found ((evict_spec cache.positive cache.listed cache.nodup).2.2.2 j found hj)

end ChunkCache

end Wings.Pbs
