import Mathlib.Data.List.Infix

/-!
# Wings.Lib.FileTree — directory trees and paths into them

A directory holds named entries in the order in which they are enumerated; anything that is not a
directory is a leaf.  `α` is what a leaf holds, `δ` what a directory holds besides its entries.
-/

namespace Wings.Lib

open List Option

inductive FileTree (ν α δ : Type)
  | leaf (data : α)
  | dir (data : δ) (entries : List (ν × FileTree ν α δ))

namespace FileTree

variable {ν α δ : Type} [DecidableEq ν] {t u : FileTree ν α δ} {n : ν} {q d : List ν} {f : FileTree ν α δ → FileTree ν α δ}

/-! ## Children -/

def isDir : FileTree ν α δ → Bool
  | .leaf _ => false
  | .dir _ _ => true

/-- The entries of a directory; a leaf has none. -/
def entries : FileTree ν α δ → List (ν × FileTree ν α δ)
  | .leaf _ => []
  | .dir _ es => es

def entry (n : ν) : List (ν × FileTree ν α δ) → Option (FileTree ν α δ)
  | [] => none
  | e :: es => if e.1 = n then some e.2 else entry n es

def child (t : FileTree ν α δ) (n : ν) : Option (FileTree ν α δ) := entry n t.entries

/-- Replace the entry of a name, or add it at the end. -/
def putEntry (n : ν) (c : FileTree ν α δ) : List (ν × FileTree ν α δ) → List (ν × FileTree ν α δ)
  | [] => [(n, c)]
  | e :: es => if e.1 = n then (n, c) :: es else e :: putEntry n c es

def setChild (t : FileTree ν α δ) (n : ν) (c : FileTree ν α δ) : FileTree ν α δ :=
  match t with
  | .leaf a => .leaf a
  | .dir d es => .dir d (putEntry n c es)

def eraseChild (t : FileTree ν α δ) (n : ν) : FileTree ν α δ :=
  match t with
  | .leaf a => .leaf a
  | .dir d es => .dir d (es.filter fun e => e.1 ≠ n)

theorem entry_putEntry (n m : ν) (c : FileTree ν α δ) (es : List (ν × FileTree ν α δ)) :
    entry m (putEntry n c es) = if m = n then some c else entry m es := by
  induction es with
  | nil => simp [putEntry, entry, eq_comm]
  | cons e es ih =>
    unfold putEntry
    by_cases he : e.1 = n
    · rw [if_pos he]
      by_cases hm : m = n
      · simp [entry, hm]
      · simp [entry, hm, he, Ne.symm hm]
    · rw [if_neg he, entry, ih, entry]
      by_cases hm : m = n
      · simp [hm, he]
      · simp [hm]

theorem entry_filter_ne (n m : ν) (es : List (ν × FileTree ν α δ)) :
    entry m (es.filter fun e => e.1 ≠ n) = if m = n then none else entry m es := by
  induction es with
  | nil => simp [entry]
  | cons e es ih =>
    by_cases he : e.1 = n
    · rw [filter_cons_of_neg (by simpa using he), ih, entry]
      by_cases hm : m = n
      · simp [hm]
      · simp [hm, he, Ne.symm hm]
    · rw [filter_cons_of_pos (by simpa using he), entry, ih, entry]
      by_cases hm : m = n
      · simp [hm, he]
      · simp [hm]

variable {c : FileTree ν α δ} {es : List (ν × FileTree ν α δ)}

theorem mem_of_entry (h : entry n es = some c) : (n, c) ∈ es := by
  induction es with
  | nil => cases h
  | cons e es ih =>
    rw [entry] at h
    split_ifs at h with he
    · cases h
      rw [← he]
      exact mem_cons_self
    · exact mem_cons_of_mem _ (ih h)

theorem child_setChild (ht : t.isDir = true) (n m : ν) (c : FileTree ν α δ) :
    (t.setChild n c).child m = if m = n then some c else t.child m := by
  cases t with
  | leaf a => cases ht
  | dir d es => exact entry_putEntry n m c es

theorem child_eraseChild (t : FileTree ν α δ) (n m : ν) :
    (t.eraseChild n).child m = if m = n then none else t.child m := by
  cases t with
  | leaf a => simp [eraseChild, child, entries, entry]
  | dir d es => exact entry_filter_ne n m es

theorem isDir_of_child (h : t.child n = some c) : t.isDir = true := by
  cases t with
  | leaf a => cases h
  | dir d es => rfl

@[simp] theorem isDir_setChild (t : FileTree ν α δ) (n : ν) (c : FileTree ν α δ) :
    (t.setChild n c).isDir = t.isDir := by
  cases t <;> rfl

@[simp] theorem isDir_eraseChild (t : FileTree ν α δ) (n : ν) : (t.eraseChild n).isDir = t.isDir := by
  cases t <;> rfl

/-! ## Paths -/

/-- What is at a path, taken literally. -/
def lookup : FileTree ν α δ → List ν → Option (FileTree ν α δ)
  | t, [] => some t
  | t, n :: p =>
    match t.child n with
    | none => none
    | some c => c.lookup p

/-- Change what is at a path; where there is nothing, nothing changes. -/
def modifyAt (f : FileTree ν α δ → FileTree ν α δ) : FileTree ν α δ → List ν → FileTree ν α δ
  | t, [] => f t
  | t, n :: p =>
    match t.child n with
    | none => t
    | some c => t.setChild n (c.modifyAt f p)

/-- Put something at a path whose parent exists. -/
def insertAt (t : FileTree ν α δ) (d : List ν) (n : ν) (c : FileTree ν α δ) : FileTree ν α δ :=
  t.modifyAt (fun u => u.setChild n c) d

def eraseAt (t : FileTree ν α δ) (d : List ν) (n : ν) : FileTree ν α δ :=
  t.modifyAt (fun u => u.eraseChild n) d

section

variable (t : FileTree ν α δ)

@[simp] theorem lookup_nil : t.lookup [] = some t := rfl

theorem lookup_cons (n : ν) (p : List ν) : t.lookup (n :: p) = (t.child n).bind (·.lookup p) := by
  rw [lookup]
  cases t.child n <;> rfl

theorem lookup_append (p q : List ν) : t.lookup (p ++ q) = (t.lookup p).bind (·.lookup q) := by
  induction p generalizing t with
  | nil => rfl
  | cons n p ih =>
    rw [cons_append, lookup_cons, lookup_cons]
    cases t.child n with
    | none => rfl
    | some c => exact ih c

theorem lookup_concat (p : List ν) (n : ν) :
    t.lookup (p ++ [n]) = (t.lookup p).bind (·.child n) := by
  rw [lookup_append]
  cases t.lookup p with
  | none => rfl
  | some u =>
    rw [bind_some, bind_some, lookup_cons]
    cases u.child n <;> rfl

end

theorem lookup_modifyAt (f : FileTree ν α δ → FileTree ν α δ) (t : FileTree ν α δ) (p q : List ν) :
    (t.modifyAt f p).lookup q =
      if p <+: q then ((t.lookup p).map f).bind (·.lookup (q.drop p.length))
      else if q <+: p then (t.lookup q).map fun u => u.modifyAt f (p.drop q.length)
      else t.lookup q := by
  induction p generalizing t q with
  | nil => simp [modifyAt]
  | cons n p ih =>
    cases q with
    | nil => simp
    | cons m q =>
      have hmod : (t.modifyAt f (n :: p)).child m =
          if m = n then (t.child n).map fun c => c.modifyAt f p else t.child m := by
        rw [modifyAt]
        cases hc : t.child n with
        | none =>
          by_cases hm : m = n
          · simp [hm, hc]
          · simp [hm]
        | some c => rw [child_setChild (isDir_of_child hc)]; rfl
      rw [lookup_cons, hmod]
      by_cases hm : m = n
      · subst hm
        rw [if_pos rfl, lookup_cons, lookup_cons]
        cases t.child m with
        | none => simp
        | some c =>
          simp only [map_some, bind_some, ih, cons_prefix_cons, true_and, length_cons, drop_succ_cons]
      · rw [if_neg hm, if_neg fun hh => hm (cons_prefix_cons.mp hh).1.symm,
          if_neg fun hh => hm (cons_prefix_cons.mp hh).1, lookup_cons]

omit [DecidableEq ν] in
/-- The part of a path below `d`, when the path goes through the entry `n` of `d`. -/
theorem drop_of_concat_prefix (h : d ++ [n] <+: q) : q.drop d.length = n :: q.drop (d.length + 1) := by
  obtain ⟨s, rfl⟩ := h
  simp

omit [DecidableEq ν] in
/-- A path at or below `d` that does not go through its entry `n` is `d`, or goes through another
entry. -/
theorem drop_of_not_concat_prefix (hd : d <+: q) (h : ¬ d ++ [n] <+: q) : q = d ∨ ∃ m s, q = d ++ m :: s ∧ m ≠ n := by
  obtain ⟨s, rfl⟩ := hd
  cases s with
  | nil => exact .inl (by simp)
  | cons m s =>
    refine .inr ⟨m, s, rfl, fun hm => h ?_⟩
    rw [hm]
    exact ⟨s, by simp⟩

omit [DecidableEq ν] in
theorem not_prefix_append_cons (p : List ν) (n : ν) (s : List ν) : ¬ p ++ n :: s <+: p := fun h => by
  have hlen := h.length_le
  rw [length_append, length_cons] at hlen
  omega

/-- What is at every path after a change to one entry of the directory at `d`. -/
theorem lookup_modifyAt_entry (f : FileTree ν α δ → FileTree ν α δ) (c : Option (FileTree ν α δ))
    (hd : t.lookup d = some u) (hf : ∀ m, (f u).child m = if m = n then c else u.child m) (q : List ν) :
    (t.modifyAt f d).lookup q =
      if d ++ [n] <+: q then c.bind (·.lookup (q.drop (d.length + 1)))
      else if q <+: d then (t.lookup q).map fun v => v.modifyAt f (d.drop q.length)
      else t.lookup q := by
  rw [lookup_modifyAt, hd]
  by_cases hn : d ++ [n] <+: q
  · have hdq : d <+: q := (prefix_append d [n]).trans hn
    rw [if_pos hdq, if_pos hn, map_some, bind_some, drop_of_concat_prefix hn, lookup_cons, hf, if_pos rfl]
  · rw [if_neg hn]
    by_cases hdq : d <+: q
    · rw [if_pos hdq, map_some, bind_some]
      rcases drop_of_not_concat_prefix hdq hn with rfl | ⟨m, s, rfl, hm⟩
      · rw [hd]
        simp [modifyAt]
      · rw [if_neg (not_prefix_append_cons d m s), drop_left, lookup_cons, hf, if_neg hm, lookup_append, hd,
          bind_some, lookup_cons]
    · rw [if_neg hdq]

theorem lookup_insertAt (hd : t.lookup d = some u) (hu : u.isDir = true) (q : List ν) : (t.insertAt d n c).lookup q =
      if d ++ [n] <+: q then c.lookup (q.drop (d.length + 1))
      else if q <+: d then (t.lookup q).map fun v => v.insertAt (d.drop q.length) n c
      else t.lookup q :=
  lookup_modifyAt_entry (fun v => v.setChild n c) (some c) hd (fun m => child_setChild hu n m c) q

theorem lookup_eraseAt (hd : t.lookup d = some u) (q : List ν) : (t.eraseAt d n).lookup q =
      if d ++ [n] <+: q then none
      else if q <+: d then (t.lookup q).map fun v => v.eraseAt (d.drop q.length) n
      else t.lookup q :=
  lookup_modifyAt_entry (fun v => v.eraseChild n) none hd (fun m => child_eraseChild u n m) q

theorem isDir_modifyAt (hf : ∀ u, (f u).isDir = u.isDir)
    (t : FileTree ν α δ) (p : List ν) : (t.modifyAt f p).isDir = t.isDir := by
  cases p with
  | nil => exact hf t
  | cons n p =>
    rw [modifyAt]
    cases t.child n <;> simp

@[simp] theorem isDir_eraseAt (t : FileTree ν α δ) (d : List ν) (n : ν) : (t.eraseAt d n).isDir = t.isDir :=
  isDir_modifyAt (fun u => isDir_eraseChild u n) t d

@[simp] theorem isDir_insertAt (t : FileTree ν α δ) (d : List ν) (n : ν) (c : FileTree ν α δ) :
    (t.insertAt d n c).isDir = t.isDir :=
  isDir_modifyAt (fun u => isDir_setChild u n c) t d

/-! ## Symbolic links -/

def IsLink (isLink : α → Bool) : FileTree ν α δ → Prop
  | .leaf a => isLink a = true
  | .dir _ _ => False

instance (isLink : α → Bool) (t : FileTree ν α δ) : Decidable (t.IsLink isLink) :=
  match t with
  | .leaf a => inferInstanceAs (Decidable (isLink a = true))
  | .dir _ _ => isFalse id

/-- Everything in `t` is in `t'` at the same place: the same leaf, or a directory. -/
def Extends (t t' : FileTree ν α δ) : Prop :=
  ∀ q u, t.lookup q = some u → ∃ u', t'.lookup q = some u' ∧ (u'.isDir = u.isDir ∧ (u.isDir = false → u' = u))

theorem Extends.refl (t : FileTree ν α δ) : Extends t t :=
  fun _ u hu => ⟨u, hu, rfl, fun _ => rfl⟩

variable {t' : FileTree ν α δ} {p : List ν}

theorem Extends.trans {t'' : FileTree ν α δ} (h : Extends t t') (h' : Extends t' t'') : Extends t t'' := by
  intro q u hu
  obtain ⟨u', hu', hdir, hleaf⟩ := h q u hu
  obtain ⟨u'', hu'', hdir', hleaf'⟩ := h' q u' hu'
  exact ⟨u'', hu'', hdir'.trans hdir, fun hl => (hleaf' (hdir.trans hl)).trans (hleaf hl)⟩

theorem Extends.lookup_leaf (h : Extends t t') {a : α}
    (hq : t.lookup q = some (.leaf a)) : t'.lookup q = some (.leaf a) := by
  obtain ⟨u', hu', -, hleaf⟩ := h q _ hq
  rw [hu', hleaf rfl]

/-- What is at a path of the larger tree extends what is there in the smaller one. -/
theorem Extends.lookup (h : Extends t t') (hq : t.lookup q = some u) : ∃ u', t'.lookup q = some u' ∧ Extends u u' := by
  obtain ⟨u', hu', -⟩ := h q u hq
  refine ⟨u', hu', fun s v hv => ?_⟩
  have hsome : t.lookup (q ++ s) = some v := by rw [lookup_append, hq]; exact hv
  obtain ⟨v', hv', hkeep⟩ := h (q ++ s) v hsome
  rw [lookup_append, hu'] at hv'
  exact ⟨v', hv', hkeep⟩

theorem isDir_above {v : FileTree ν α δ} (hp : t.lookup p = some u)
    (hu : q = p → u.isDir = true) (hq : q <+: p) (hv : t.lookup q = some v) : v.isDir = true := by
  obtain ⟨s, rfl⟩ := hq
  rw [lookup_append, hv, bind_some] at hp
  cases s with
  | nil =>
    obtain rfl : v = u := some.inj hp
    exact hu (append_nil q).symm
  | cons m s =>
    rw [lookup_cons, bind_eq_some_iff] at hp
    obtain ⟨c, hc, -⟩ := hp
    exact isDir_of_child hc

theorem extends_insertAt (c : FileTree ν α δ)
    (hd : t.lookup d = some u) (hu : u.isDir = true) (hn : t.lookup (d ++ [n]) = none) :
    Extends t (t.insertAt d n c) := by
  intro q v hv
  rw [lookup_insertAt hd hu]
  by_cases hq : d ++ [n] <+: q
  · obtain ⟨s, rfl⟩ := hq
    rw [lookup_append, hn] at hv
    cases hv
  · rw [if_neg hq]
    by_cases hqd : q <+: d
    · rw [if_pos hqd, hv]
      refine ⟨_, rfl, isDir_insertAt v _ n c, fun hl => ?_⟩
      rw [isDir_above hd (fun _ => hu) hqd hv] at hl
      cases hl
    · rw [if_neg hqd]
      exact ⟨v, hv, rfl, fun _ => rfl⟩

/-- A new empty entry on the way to `p` changes nothing off that way. -/
theorem lookup_insertAt_elsewhere (e : δ)
    (hd : t.lookup d = some u) (hu : u.isDir = true) (hn : t.lookup (d ++ [n]) = none)
    (hp : d ++ [n] <+: p) (hq : ¬ q <+: p) : (t.insertAt d n (.dir e [])).lookup q = t.lookup q := by
  rw [lookup_insertAt hd hu]
  have hqd : ¬ q <+: d := fun hqd => hq (hqd.trans ((prefix_append d [n]).trans hp))
  by_cases hdq : d ++ [n] <+: q
  · obtain ⟨s, rfl⟩ := hdq
    rw [if_pos (prefix_append _ _), lookup_append, hn]
    cases s with
    | nil => exact absurd (by simpa using hp) hq
    | cons m s =>
      have hdrop : (d ++ [n] ++ m :: s).drop (d.length + 1) = m :: s := by simp
      rw [hdrop]
      rfl
  · rw [if_neg hdq, if_neg hqd]

/-- Taking something away at one place leaves a tree that the old one extends. -/
theorem extends_of_modifyAt (hf : ∀ u, t.lookup p = some u → Extends (f u) u) : Extends (t.modifyAt f p) t := by
  intro q v hv
  rw [lookup_modifyAt] at hv
  split_ifs at hv with hpq hqp
  · obtain ⟨s, rfl⟩ := hpq
    rw [drop_left, bind_eq_some_iff] at hv
    obtain ⟨w, hw, hv⟩ := hv
    obtain ⟨u, hu, rfl⟩ := map_eq_some_iff.mp hw
    rw [lookup_append, hu]
    exact hf u hu s v hv
  · obtain ⟨w, hw, rfl⟩ := map_eq_some_iff.mp hv
    obtain ⟨s, rfl⟩ := hqp
    rw [drop_left] at hv ⊢
    refine ⟨w, hw, ?_⟩
    cases s with
    | nil => exact absurd (by simp) hpq
    | cons n s =>
      rw [modifyAt]
      cases w with
      | leaf a => exact ⟨rfl, fun _ => rfl⟩
      | dir d es =>
        refine ⟨?_, fun hl => ?_⟩
        · cases child (.dir d es) n <;> simp
        · cases hc : child (dir d es) n with
          | none => rfl
          | some c => rw [hc] at hl; cases hl
  · exact ⟨v, hv, rfl, fun _ => rfl⟩

theorem extends_eraseChild (t : FileTree ν α δ) (n : ν) : Extends (t.eraseChild n) t := by
  intro q v hv
  cases t with
  | leaf a => exact ⟨v, hv, rfl, fun _ => rfl⟩
  | dir d es =>
    cases q with
    | nil =>
      cases hv
      exact ⟨_, rfl, rfl, fun hl => nomatch hl⟩
    | cons m q =>
      rw [lookup_cons, child_eraseChild] at hv
      split_ifs at hv with hm
      · cases hv
      · rw [← lookup_cons] at hv
        exact ⟨v, hv, rfl, fun _ => rfl⟩

theorem extends_eraseAt (t : FileTree ν α δ) (d : List ν) (n : ν) : Extends (t.eraseAt d n) t :=
  extends_of_modifyAt fun u _ => extends_eraseChild u n

theorem putEntry_self (h : entry n es = some c) : putEntry n c es = es := by
  induction es with
  | nil => cases h
  | cons e es ih =>
    rw [entry] at h
    rw [putEntry]
    split_ifs at h ⊢ with he
    · obtain rfl : e.2 = c := some.inj h
      rw [← he]
    · rw [ih h]

theorem modifyAt_self (hp : t.lookup p = some u) (hf : f u = u) : t.modifyAt f p = t := by
  induction p generalizing t with
  | nil =>
    obtain rfl : t = u := some.inj hp
    exact hf
  | cons n p ih =>
    rw [lookup_cons, bind_eq_some_iff] at hp
    obtain ⟨c, hc, hp⟩ := hp
    simp only [modifyAt, hc, ih hp]
    cases t with
    | leaf a => rfl
    | dir d es => exact congrArg (dir d) (putEntry_self hc)

variable {isLink : α → Bool}

omit [DecidableEq ν] in
theorem not_isLink_of_isDir (hu : u.isDir = true) : ¬ u.IsLink isLink := by
  cases u with
  | leaf a => cases hu
  | dir d es => exact id

theorem Extends.not_isLink {u' : FileTree ν α δ} (h : Extends t t')
    (hu : t.lookup q = some u) (hu' : t'.lookup q = some u') (hl : ¬ u.IsLink isLink) : ¬ u'.IsLink isLink := by
  obtain ⟨v, hv, hdir, hleaf⟩ := h q u hu
  obtain rfl : u' = v := some.inj (hu'.symm.trans hv)
  cases hd : u.isDir with
  | false => rw [hleaf hd]; exact hl
  | true => exact not_isLink_of_isDir (hdir.trans hd)

/-- Resolution of paths, `realpath(3)`: the real path of what a path names, following every symbolic
link on the way.  How the target of a link is read is left open. -/
structure Resolution (ν α δ : Type) [DecidableEq ν] (isLink : α → Bool) where
  canon : FileTree ν α δ → List ν → Option (List ν)
  canon_nil : ∀ t, canon t [] = some []
  /-- A component that is no link is kept. -/
  canon_concat : ∀ {t p d n u}, canon t p = some d → t.lookup (d ++ [n]) = some u →
    ¬ u.IsLink isLink → canon t (p ++ [n]) = some (d ++ [n])
  /-- A component that does not exist is an error. -/
  canon_missing : ∀ {t p d n}, canon t p = some d → t.lookup (d ++ [n]) = none →
    canon t (p ++ [n]) = none
  /-- Nothing is below a path that cannot be resolved. -/
  canon_parent : ∀ {t p n}, canon t p = none → canon t (p ++ [n]) = none
  /-- Resolution only looks at what it passes: more entries elsewhere do not change it. -/
  canon_extends : ∀ {t t' p d}, Extends t t' → canon t p = some d → canon t' p = some d

namespace Resolution

variable {isLink : α → Bool} (R : Resolution ν α δ isLink) {t u : FileTree ν α δ} {p : List ν} {t' : FileTree ν α δ}

/-- The real path of what a path names when its last component is not followed. -/
def locate (t : FileTree ν α δ) (p : List ν) : Option (List ν) :=
  match p.getLast? with
  | none => some []
  | some n => (R.canon t p.dropLast).map (· ++ [n])

/-- `lstat(2)`: what a path names, the last component not followed. -/
def lstat (t : FileTree ν α δ) (p : List ν) : Option (FileTree ν α δ) :=
  (R.locate t p).bind t.lookup

/-- `stat(2)`: what a path names, every link followed. -/
def stat (t : FileTree ν α δ) (p : List ν) : Option (FileTree ν α δ) :=
  (R.canon t p).bind t.lookup

@[simp] theorem locate_concat (t : FileTree ν α δ) (p : List ν) (n : ν) :
    R.locate t (p ++ [n]) = (R.canon t p).map (· ++ [n]) := by
  simp [locate]

theorem lstat_concat (t : FileTree ν α δ) (p : List ν) (n : ν) :
    R.lstat t (p ++ [n]) = (R.canon t p).bind fun d => t.lookup (d ++ [n]) := by
  rw [lstat, locate_concat]
  cases R.canon t p <;> rfl

theorem stat_of_lstat {n : ν} (h : R.lstat t (p ++ [n]) = some u) (hl : ¬ u.IsLink isLink) :
    R.stat t (p ++ [n]) = some u := by
  rw [lstat_concat, bind_eq_some_iff] at h
  obtain ⟨d, hd, hu⟩ := h
  rw [stat, R.canon_concat hd hu hl]
  exact hu

theorem canon_none_of_prefix {q : List ν} (h : R.canon t p = none) (hpq : p <+: q) : R.canon t q = none := by
  obtain ⟨s, rfl⟩ := hpq
  induction s using reverseRecOn with
  | nil => rw [append_nil]; exact h
  | append_singleton s n ih => rw [← append_assoc]; exact R.canon_parent ih

/-- In a directory without the entry `n`, no path through `n` names anything. -/
theorem lstat_none_of_prefix {q d : List ν} {n : ν}
    (hd : R.canon t p = some d) (hn : t.lookup (d ++ [n]) = none) (hq : p ++ [n] <+: q) :
    R.lstat t q = none ∧ R.stat t q = none := by
  have hmiss : R.canon t (p ++ [n]) = none := R.canon_missing hd hn
  refine ⟨?_, ?_⟩
  · obtain ⟨s, rfl⟩ := hq
    induction s using reverseRecOn with
    | nil => rw [append_nil, lstat_concat, hd]; exact hn
    | append_singleton s m _ =>
      rw [← append_assoc, lstat_concat, R.canon_none_of_prefix hmiss (prefix_append _ _)]
      rfl
  · rw [stat, R.canon_none_of_prefix hmiss hq]
    rfl

theorem lstat_of_extends (hext : Extends t t')
    (h : R.lstat t p = some u) : ∃ u', R.lstat t' p = some u' ∧ Extends u u' := by
  induction p using reverseRecOn with
  | nil =>
    obtain ⟨u', hu', hex⟩ := hext.lookup h
    exact ⟨u', hu', hex⟩
  | append_singleton p n _ =>
    rw [lstat_concat, bind_eq_some_iff] at h
    obtain ⟨d, hd, hu⟩ := h
    rw [lstat_concat, R.canon_extends hext hd]
    exact hext.lookup hu

theorem stat_of_extends (hext : Extends t t')
    (h : R.stat t p = some u) : ∃ u', R.stat t' p = some u' ∧ Extends u u' := by
  rw [stat, bind_eq_some_iff] at h
  obtain ⟨d, hd, hu⟩ := h
  rw [stat, R.canon_extends hext hd]
  exact hext.lookup hu

/-- No link is on the way to a path, nor at it. -/
def NoLink (isLink : α → Bool) (t : FileTree ν α δ) (p : List ν) : Prop :=
  ∀ q u, q <+: p → t.lookup q = some u → ¬ u.IsLink isLink

theorem NoLink.of_prefix {q : List ν} (h : NoLink isLink t p) (hq : q <+: p) : NoLink isLink t q :=
  fun r u hr => h r u (hr.trans hq)

theorem NoLink.concat {n : ν} (h : NoLink isLink t p)
    (hn : ∀ u, t.lookup (p ++ [n]) = some u → ¬ u.IsLink isLink) : NoLink isLink t (p ++ [n]) := by
  intro q u hq hu
  rcases prefix_concat_iff.mp hq with rfl | hq
  · exact hn u hu
  · exact h q u hq hu

theorem noLink_of_isDir (hp : t.lookup p = some u) (hu : u.isDir = true) : NoLink isLink t p :=
  fun _ _ hq hv => not_isLink_of_isDir (isDir_above hp (fun _ => hu) hq hv)

section

variable (h : NoLink isLink t p)
include h

theorem NoLink.insertAt {d : List ν} {n : ν} (e : δ)
    (hd : t.lookup d = some u) (hu : u.isDir = true) (hn : t.lookup (d ++ [n]) = none) :
    NoLink isLink (t.insertAt d n (.dir e [])) p := by
  intro q w hq hw
  have hext := extends_insertAt (.dir e []) hd hu hn
  cases hv : t.lookup q with
  | some v => exact hext.not_isLink hv hw (h q v hq hv)
  | none =>
    rw [lookup_insertAt hd hu] at hw
    split_ifs at hw with hdq hqd
    · refine not_isLink_of_isDir ?_
      cases hs : q.drop (d.length + 1) with
      | nil => rw [hs] at hw; cases hw; rfl
      | cons m s => rw [hs] at hw; cases hw
    · rw [hv] at hw
      cases hw
    · rw [hv] at hw
      cases hw

/-- Without links, only what exists is resolved, and it resolves to itself. -/
theorem canon_eq_some_iff {d : List ν} :
    R.canon t p = some d ↔ d = p ∧ ∃ u, t.lookup p = some u := by
  induction p using reverseRecOn generalizing d with
  | nil =>
    rw [canon_nil]
    exact ⟨fun hd => ⟨(some.inj hd).symm, t, rfl⟩, fun hd => by rw [hd.1]⟩
  | append_singleton p n ih =>
    have hp := h.of_prefix (prefix_append p [n])
    cases hc : R.canon t p with
    | none =>
      rw [R.canon_parent hc]
      refine ⟨nofun, fun ⟨_, u, hu⟩ => ?_⟩
      -- what exists has a parent that resolves
      rw [lookup_concat, bind_eq_some_iff] at hu
      obtain ⟨v, hv, -⟩ := hu
      rw [(ih hp).mpr ⟨rfl, v, hv⟩] at hc
      cases hc
    | some d' =>
      obtain ⟨rfl, -⟩ := (ih hp).mp hc
      cases hu : t.lookup (d' ++ [n]) with
      | none =>
        rw [R.canon_missing hc hu]
        exact ⟨nofun, fun ⟨_, u, hu'⟩ => nomatch hu'⟩
      | some u =>
        rw [R.canon_concat hc hu (h _ u prefix_rfl hu)]
        exact ⟨fun hd => ⟨(some.inj hd).symm, u, rfl⟩, fun hd => by rw [hd.1]⟩

theorem stat_of_noLink : R.stat t p = t.lookup p := by
  cases hp : t.lookup p with
  | none =>
    cases hc : R.canon t p with
    | none => rw [stat, hc]; rfl
    | some d =>
      obtain ⟨-, u, hu⟩ := (R.canon_eq_some_iff h).mp hc
      rw [hp] at hu
      cases hu
  | some u => rw [stat, (R.canon_eq_some_iff h).mpr ⟨rfl, u, hp⟩]; exact hp

theorem lstat_of_noLink (n : ν) : R.lstat t (p ++ [n]) = t.lookup (p ++ [n]) := by
  rw [lstat_concat]
  cases hc : R.canon t p with
  | none =>
    rw [lookup_concat]
    cases hp : t.lookup p with
    | none => rfl
    | some u =>
      rw [(R.canon_eq_some_iff h).mpr ⟨rfl, u, hp⟩] at hc
      cases hc
  | some d =>
    obtain ⟨rfl, -⟩ := (R.canon_eq_some_iff h).mp hc
    rfl

end

/-- There is something at every step of the path, and it is no link. -/
def Literal (isLink : α → Bool) (t : FileTree ν α δ) : List ν → Prop
  | [] => True
  | n :: p => ∃ c, t.child n = some c ∧ ¬ c.IsLink isLink ∧ Literal isLink c p

instance decidableLiteral (isLink : α → Bool) :
    (t : FileTree ν α δ) → (p : List ν) → Decidable (Literal isLink t p)
  | _, [] => isTrue trivial
  | t, n :: p =>
    match hc : t.child n with
    | none => isFalse fun ⟨c, h, _⟩ => by rw [hc] at h; cases h
    | some c =>
      have := decidableLiteral isLink c p
      if h : ¬ c.IsLink isLink ∧ Literal isLink c p then isTrue ⟨c, hc, h⟩
      else isFalse fun ⟨c', h', hlit⟩ => h (by rw [hc] at h'; cases h'; exact hlit)

theorem literal_concat {n : ν} : Literal isLink t (p ++ [n]) ↔
      Literal isLink t p ∧ ∃ u, t.lookup (p ++ [n]) = some u ∧ ¬ u.IsLink isLink := by
  induction p generalizing t with
  | nil => simp [Literal, lookup_cons]
  | cons m p ih =>
    simp only [cons_append, Literal, ih, lookup_cons]
    constructor
    · rintro ⟨c, hc, hl, hp, u, hu, hul⟩
      exact ⟨⟨c, hc, hl, hp⟩, u, by rw [hc]; exact hu, hul⟩
    · rintro ⟨⟨c, hc, hl, hp⟩, u, hu, hul⟩
      rw [hc] at hu
      exact ⟨c, hc, hl, hp, u, hu, hul⟩

theorem Literal.of_extends (hext : Extends t t') (h : Literal isLink t p) : Literal isLink t' p := by
  induction p using reverseRecOn with
  | nil => trivial
  | append_singleton p n ih =>
    obtain ⟨hp, u, hu, hl⟩ := literal_concat.mp h
    obtain ⟨u', hu', -⟩ := hext _ u hu
    exact literal_concat.mpr ⟨ih hp, u', hu', hext.not_isLink hu hu' hl⟩

/-- The resolution that follows no link at all. -/
def literal (ν α δ : Type) [DecidableEq ν] (isLink : α → Bool) : Resolution ν α δ isLink where
  canon t p := if Literal isLink t p then some p else none
  canon_nil _ := rfl
  canon_concat {t p d n u} hp hu hl := by
    split_ifs at hp with hlit
    cases hp
    exact if_pos (literal_concat.mpr ⟨hlit, u, hu, hl⟩)
  canon_missing {t p d n} hp hu := by
    split_ifs at hp with hlit
    cases hp
    refine if_neg fun h => ?_
    obtain ⟨-, u, hu', -⟩ := literal_concat.mp h
    rw [hu] at hu'
    cases hu'
  canon_parent {t p n} hp := by
    split_ifs at hp with hlit
    exact if_neg fun h => hlit (literal_concat.mp h).1
  canon_extends {t t' p d} hext hp := by
    split_ifs at hp with hlit
    cases hp
    exact if_pos (hlit.of_extends hext)

end Resolution

end FileTree

end Wings.Lib
