import Mathlib.Data.List.Lookmap
import Mathlib.Data.List.Infix
import Mathlib.Data.List.Nodup

/-!
# Wings.Lib.Json — JSON values, member access and the RFC 7396 merge

`Json ν` is a JSON value over numbers `ν`; an object is the list of its members, read by key.
Member order carries no meaning, and a value read from a document never has two members of one key
(`Json.Distinct`).

* `Json.valueAt`: the value at a path of nested keys.
-/

namespace Wings.Lib

open List

inductive Json (ν : Type)
  | null
  | bool (b : Bool)
  | num (n : ν)
  | str (s : String)
  | arr (xs : List (Json ν))
  | obj (members : List (String × Json ν))

variable {ν : Type}

/-! ## Members -/

/-- The value of a key, the first one listed. -/
def getMember (k : String) (m : List (String × Json ν)) : Option (Json ν) := m.lookup k

def removeMember (k : String) (m : List (String × Json ν)) : List (String × Json ν) :=
  m.filter fun kv => kv.1 != k

/-- Sets the key, in place or at the end. -/
def setMember (k : String) (v : Json ν) : List (String × Json ν) → List (String × Json ν)
  | [] => [(k, v)]
  | (k', v') :: m => if k' = k then (k', v) :: m else (k', v') :: setMember k v m

variable (k k' : String)

section

variable (m : List (String × Json ν))
include m

theorem getMember_cons (v : Json ν) :
    getMember k ((k', v) :: m) = if k = k' then some v else getMember k m := by
  unfold getMember
  rw [lookup_cons]
  by_cases h : k = k'
  · simp [h]
  · rw [if_neg h, beq_eq_false_iff_ne.mpr h]

theorem getMember_removeMember :
    getMember k (removeMember k' m) = if k = k' then none else getMember k m := by
  induction m with
  | nil => simp [getMember, removeMember]
  | cons kv m ih =>
    obtain ⟨j, v⟩ := kv
    unfold removeMember at ih ⊢
    by_cases hj : j = k'
    · subst hj
      rw [filter_cons_of_neg (by simp), ih, getMember_cons]
      by_cases hk : k = j <;> simp [hk]
    · rw [filter_cons_of_pos (by simpa using hj), getMember_cons, getMember_cons, ih]
      by_cases hk : k = j
      · subst hk; simp [hj]
      · simp [hk]

theorem getMember_setMember (v : Json ν) :
    getMember k (setMember k' v m) = if k = k' then some v else getMember k m := by
  induction m with
  | nil => simp [setMember, getMember_cons]
  | cons kv m ih =>
    obtain ⟨j, w⟩ := kv
    by_cases hj : j = k'
    · subst hj
      simp only [setMember, if_true, getMember_cons]
      by_cases hk : k = j <;> simp [hk]
    · simp only [setMember, hj, if_false, getMember_cons, ih]
      by_cases hk : k = j
      · subst hk; simp [hj]
      · simp [hk]

end

variable {m : List (String × Json ν)}

theorem getMember_eq_none_of_notMem {k : String} (h : k ∉ m.map Prod.fst) : getMember k m = none := by
  induction m with
  | nil => rfl
  | cons kv m ih =>
    simp only [map_cons, mem_cons, not_or] at h
    rw [getMember_cons, if_neg h.1, ih h.2]

/-! ## Values at a path, distinct keys -/

namespace Json

def isObject : Json ν → Bool
  | .obj _ => true
  | _ => false

/-- The members of an object; a value that is no object has none. -/
def members : Json ν → List (String × Json ν)
  | .obj m => m
  | _ => []

def valueAt : List String → Json ν → Option (Json ν)
  | [], j => some j
  | k :: ks, .obj m => (getMember k m).bind (valueAt ks)
  | _ :: _, _ => none

mutual

/-- No object inside has two members of one key. -/
def Distinct : Json ν → Prop
  | .arr xs => DistinctList xs
  | .obj m => (m.map Prod.fst).Nodup ∧ DistinctMembers m
  | _ => True

def DistinctList : List (Json ν) → Prop
  | [] => True
  | x :: xs => Distinct x ∧ DistinctList xs

def DistinctMembers : List (String × Json ν) → Prop
  | [] => True
  | (_, v) :: m => Distinct v ∧ DistinctMembers m

end

theorem distinctMembers_iff : DistinctMembers m ↔ ∀ kv ∈ m, kv.2.Distinct := by
  induction m with
  | nil => simp [DistinctMembers]
  | cons kv m ih => simp [DistinctMembers, ih]

theorem distinct_obj :
    (obj m).Distinct ↔ (m.map Prod.fst).Nodup ∧ ∀ kv ∈ m, kv.2.Distinct := by
  rw [Distinct, distinctMembers_iff]

theorem Distinct.of_getMember (h : (obj m).Distinct) {k : String}
    {v : Json ν} (hv : getMember k m = some v) : v.Distinct := by
  obtain ⟨l₁, l₂, hm, -⟩ := lookup_eq_some_iff.mp hv
  exact (distinct_obj.mp h).2 (k, v) (by rw [hm]; simp)

/-- A value as a document holds it: no object inside has two members of one key. -/
structure Value (ν : Type) where
  json : Json ν
  distinct : json.Distinct

/-! ## The merge patch -/

mutual

/-- RFC 7396: a patch that is no object replaces the target, an object is merged member by
member into the target's members. -/
def merge (target : Json ν) : Json ν → Json ν
  | .obj m => .obj (mergeMembers target.members m)
  | patch => patch

/-- A `null` member deletes the key, any other value is merged into what is there. -/
def mergeMembers (target : List (String × Json ν)) :
    List (String × Json ν) → List (String × Json ν)
  | [] => target
  | (k, .null) :: m => mergeMembers (removeMember k target) m
  | (k, v) :: m => mergeMembers (setMember k (merge ((getMember k target).getD .null) v) target) m

end

/-- What a patch member leaves of the target's value at its key. -/
def mergeMember (old : Option (Json ν)) : Json ν → Option (Json ν)
  | .null => none
  | v => some (merge (old.getD .null) v)

theorem getMember_mergeMembers_cons (k k' : String) (v : Json ν)
    (target m : List (String × Json ν)) (hk : k' ∉ m.map Prod.fst) (ih : ∀ t, getMember k (mergeMembers t m) =
      match getMember k m with
      | none => getMember k t
      | some w => mergeMember (getMember k t) w) :
    getMember k (mergeMembers target ((k', v) :: m)) =
      if k = k' then mergeMember (getMember k target) v
      else match getMember k m with
        | none => getMember k target
        | some w => mergeMember (getMember k target) w := by
  have hset : ∀ w, w ≠ null → mergeMembers target ((k', w) :: m) =
      mergeMembers (setMember k' (merge ((getMember k' target).getD .null) w) target) m := by
    intro w hw
    cases w <;> first | exact absurd rfl hw | rfl
  by_cases hkk : k = k'
  · subst hkk
    have hnone := getMember_eq_none_of_notMem hk
    by_cases hv : v = .null
    · subst hv
      rw [mergeMembers, ih, hnone]
      simp [getMember_removeMember, mergeMember]
    · rw [hset v hv, ih, hnone]
      simp only [getMember_setMember, if_true]
      cases v <;> first | exact absurd rfl hv | rfl
  · by_cases hv : v = .null
    · subst hv
      rw [mergeMembers, ih]
      simp [getMember_removeMember, hkk]
    · rw [hset v hv, ih]
      simp [getMember_setMember, hkk]

/-- **What a merge leaves at a key.**  With distinct keys the members of the patch act
independently: a key the patch does not name keeps its value. -/
theorem getMember_mergeMembers (k : String) : ∀ (m : List (String × Json ν)),
    (m.map Prod.fst).Nodup → ∀ target : List (String × Json ν),
    getMember k (mergeMembers target m) =
      match getMember k m with
      | none => getMember k target
      | some v => mergeMember (getMember k target) v
  | [], _, target => rfl
  | (k', v) :: m, hnd, target => by
    rw [map_cons, nodup_cons] at hnd
    rw [getMember_mergeMembers_cons k k' v target m hnd.1 (getMember_mergeMembers k m hnd.2), getMember_cons]
    by_cases hkk : k = k' <;> simp [hkk]

end Json

end Wings.Lib
