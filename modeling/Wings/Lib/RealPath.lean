import Wings.Lib.FileTree

/-!
# Wings.Lib.RealPath — real paths, and paths that do not exist yet

`realpath(3)` with the reason of a failure: that something does not exist, or anything else.  A path is plain if
what is on the way to it is what it says, or if there is no way to it and none is opened by making directories.

* `leaf_of_insertAt`, `leaf_of_eraseAt`, `leaf_of_moveTo` — where the leaves of a tree were before a change.
-/

namespace Wings.Lib

open List

namespace FileTree

variable {ν α δ : Type} [DecidableEq ν] {t u c : FileTree ν α δ} {d p q : List ν} {n : ν} {a : α}

/-! ## Leaves -/

theorem leaf_of_insertAt (hd : t.lookup d = some u) (hu : u.isDir = true)
    (h : (t.insertAt d n c).lookup q = some (.leaf a)) :
    t.lookup q = some (.leaf a) ∨ ∃ rest, q = d ++ n :: rest ∧ c.lookup rest = some (.leaf a) := by
  rw [lookup_insertAt hd hu] at h
  split_ifs at h with hn hq
  · obtain ⟨rest, rfl⟩ := hn
    have hdrop : (d ++ [n] ++ rest).drop (d.length + 1) = rest := by simp
    rw [hdrop] at h
    exact .inr ⟨rest, by simp, h⟩
  · obtain ⟨v, hv, hleaf⟩ := Option.map_eq_some_iff.mp h
    have hdir : (v.insertAt (d.drop q.length) n c).isDir = true := by
      rw [isDir_insertAt]
      exact isDir_above hd (fun _ => hu) hq hv
    rw [hleaf] at hdir
    cases hdir
  · exact .inl h

theorem leaf_of_eraseAt (h : (t.eraseAt d n).lookup q = some (.leaf a)) : t.lookup q = some (.leaf a) :=
  (extends_eraseAt t d n).lookup_leaf h

/-- What is at the old place is put at the new one. -/
def moveTo (t : FileTree ν α δ) (od : List ν) (on : ν) (nd : List ν) (nn : ν) (c : FileTree ν α δ) : FileTree ν α δ :=
  (t.eraseAt od on).insertAt nd nn c

theorem exists_lookup_parent (h : t.lookup (d ++ [n]) = some c) : ∃ w, t.lookup d = some w := by
  rw [lookup_concat] at h
  obtain ⟨w, hw, -⟩ := Option.bind_eq_some_iff.mp h
  exact ⟨w, hw⟩

/-- What is not below an entry is still there when the entry is gone. -/
theorem lookup_eraseAt_elsewhere (h : t.lookup (d ++ [n]) = some c) (hq : t.lookup q = some u) (hnot : ¬ d ++ [n] <+: q) :
    ∃ v, (t.eraseAt d n).lookup q = some v ∧ v.isDir = u.isDir := by
  obtain ⟨w, hw⟩ := exists_lookup_parent h
  rw [lookup_eraseAt hw, if_neg hnot, hq]
  split_ifs
  · exact ⟨_, rfl, isDir_eraseAt u _ _⟩
  · exact ⟨u, rfl, rfl⟩

theorem leaf_of_moveTo {od nd : List ν} {on nn : ν} {v : FileTree ν α δ} (hold : t.lookup (od ++ [on]) = some c)
    (hd : t.lookup nd = some v) (hv : v.isDir = true) (hbelow : ¬ od ++ [on] <+: nd ++ [nn])
    (h : (t.moveTo od on nd nn c).lookup q = some (.leaf a)) :
    t.lookup q = some (.leaf a) ∨ ∃ rest, q = nd ++ nn :: rest ∧ t.lookup (od ++ [on] ++ rest) = some (.leaf a) := by
  obtain ⟨v', hd', hv'⟩ := lookup_eraseAt_elsewhere hold hd fun hpre => hbelow (hpre.trans (prefix_append _ _))
  rcases leaf_of_insertAt hd' (hv'.trans hv) h with hleaf | ⟨rest, rfl, hleaf⟩
  · exact .inl (leaf_of_eraseAt hleaf)
  · refine .inr ⟨rest, rfl, ?_⟩
    rw [lookup_append, hold]
    exact hleaf

/-! ## Real paths -/

theorem Resolution.canon_of_literal {isLink : α → Bool} (R : Resolution ν α δ isLink) (h : Literal isLink t p) :
    R.canon t p = some p := by
  induction p using reverseRecOn with
  | nil => exact R.canon_nil t
  | append_singleton p n ih =>
    obtain ⟨hp, u, hu, hl⟩ := literal_concat.mp h
    exact R.canon_concat (ih hp) hu hl

/-- A resolution whose answers are real paths, and which says whether it fails because something does not exist. -/
structure RealPath (ν α δ : Type) [DecidableEq ν] (isLink : α → Bool) extends Resolution ν α δ isLink where
  notFound : FileTree ν α δ → List ν → Bool
  /-- No link is on the way to a real path. -/
  canon_literal : ∀ {t p d}, canon t p = some d → Resolution.Literal isLink t d
  /-- What does not exist below a path does not exist below its real path. -/
  canon_real : ∀ {t p d n}, canon t p = some d → canon t (p ++ [n]) = none → notFound t (p ++ [n]) = true →
    canon t (d ++ [n]) = none
  /-- Another failure is not mended by more entries. -/
  canon_blocked : ∀ {t t' p}, Extends t t' → canon t p = none → notFound t p = false → canon t' p = none

namespace RealPath

variable {isLink : α → Bool} (R : RealPath ν α δ isLink)

theorem canon_canon (h : R.canon t p = some d) : R.canon t d = some d := R.canon_of_literal (R.canon_literal h)

theorem literal_above (h : Resolution.Literal isLink t q) (hp : p <+: q) : Resolution.Literal isLink t p := by
  obtain ⟨s, rfl⟩ := hp
  induction s using reverseRecOn with
  | nil => rwa [append_nil] at h
  | append_singleton s m ih =>
    rw [← append_assoc] at h
    exact ih (Resolution.literal_concat.mp h).1

/-- Every path on the way that exists is its own real path; or there is no way, however many entries are added. -/
def Plain (t : FileTree ν α δ) (p : List ν) : Prop :=
  (∀ q, q <+: p → ∀ d, R.canon t q = some d → d = q) ∨ ∀ t', Extends t t' → R.canon t' p = none

variable {R}

theorem Plain.canon_eq (h : Plain R t p) (hd : R.canon t p = some d) : d = p := by
  rcases h with h | h
  · exact h p prefix_rfl d hd
  · rw [h t (.refl t)] at hd
    cases hd

theorem plain_of_literal (h : Resolution.Literal isLink t p) : Plain R t p := by
  refine .inl fun q hq d hd => ?_
  rw [R.canon_of_literal (literal_above h hq)] at hd
  exact (Option.some.inj hd).symm

theorem plain_of_missing (h : Resolution.Literal isLink t d) (hn : R.canon t (d ++ [n]) = none) (rest : List ν) :
    Plain R t (d ++ n :: rest) := by
  refine .inl fun q hq e he => ?_
  rcases prefix_or_prefix_of_prefix hq (prefix_append d _) with hq | ⟨s, rfl⟩
  · rw [R.canon_of_literal (literal_above h hq)] at he
    exact (Option.some.inj he).symm
  · have hs := (prefix_append_right_inj d).mp hq
    cases s with
    | nil =>
      rw [append_nil, R.canon_of_literal h] at he
      rw [append_nil]
      exact (Option.some.inj he).symm
    | cons m s =>
      obtain ⟨rfl, -⟩ := cons_prefix_cons.mp hs
      have hnone := R.canon_none_of_prefix (q := d ++ m :: s) hn ⟨s, by simp⟩
      rw [hnone] at he
      cases he

theorem plain_of_blocked (hq : q <+: p) (h : R.canon t q = none) (hother : R.notFound t q = false) : Plain R t p :=
  .inr fun _ hext => R.canon_none_of_prefix (R.canon_blocked hext h hother) hq

/-- **A plain path stays plain** when a directory is made on the way to it. -/
theorem Plain.insertDir {e : δ} (h : Plain R t p) (hq : q ++ [n] <+: p) (hcanon : R.canon t q = some d)
    (hd : t.lookup d = some u) (hu : u.isDir = true) (hn : t.lookup (d ++ [n]) = none) :
    Plain R (t.insertAt d n (.dir e [])) p := by
  have hext : Extends t (t.insertAt d n (.dir e [])) := extends_insertAt _ hd hu hn
  rcases h with h | h
  · obtain rfl : d = q := h q ((prefix_append _ _).trans hq) d hcanon
    have hnew : (t.insertAt d n (.dir e [])).lookup (d ++ [n]) = some (.dir e []) := by
      rw [lookup_insertAt hd hu]
      simp
    have hcanon' : R.canon (t.insertAt d n (.dir e [])) (d ++ [n]) = some (d ++ [n]) :=
      R.canon_concat (R.canon_extends hext hcanon) hnew id
    refine .inl fun r hr f hf => ?_
    cases hold : R.canon t r with
    | some f' =>
      rw [R.canon_extends hext hold] at hf
      exact (Option.some.inj hf).symm.trans (h r hr f' hold)
    | none =>
      rcases prefix_or_prefix_of_prefix hr hq with hle | ⟨s, rfl⟩
      · -- up to the new directory, what can be resolved now could be before
        rcases prefix_concat_iff.mp hle with rfl | hle
        · rw [hcanon'] at hf
          exact (Option.some.inj hf).symm
        · have hnone := R.canon_none_of_prefix hold hle
          rw [hnone] at hcanon
          cases hcanon
      · cases s with
        | nil =>
          rw [append_nil, hcanon'] at hf
          rw [append_nil]
          exact (Option.some.inj hf).symm
        | cons m s =>
          -- nothing is in the new directory
          have hmiss : (t.insertAt d n (.dir e [])).lookup (d ++ [n] ++ [m]) = none := by
            rw [lookup_concat, hnew]
            rfl
          have hnone := R.canon_none_of_prefix (q := d ++ [n] ++ m :: s) (R.canon_missing hcanon' hmiss) ⟨s, by simp⟩
          rw [hnone] at hf
          cases hf
  · exact .inr fun t' hext' => h t' (hext.trans hext')

def literal (ν α δ : Type) [DecidableEq ν] (isLink : α → Bool) : RealPath ν α δ isLink where
  toResolution := .literal ν α δ isLink
  notFound _ _ := true
  canon_literal {t p d} h := by
    have h : (if Resolution.Literal isLink t p then some p else none) = some d := h
    split_ifs at h with hliteral
    cases h
    exact hliteral
  canon_real {t p d n} h hnone _ := by
    have h : (if Resolution.Literal isLink t p then some p else none) = some d := h
    split_ifs at h
    cases h
    exact hnone
  canon_blocked _ _ h := by cases h

end RealPath

end FileTree

end Wings.Lib
