import Wings.Filesystem.RenamePath

/-!
# Wings.Filesystem.MoveDirectory — the accounts of a moved directory

The directory branch of `rename_path`: the node of the directory is taken out of the usage tree at
the keys of the old path as it was given, and hung in at the lossy text of the real new path.

* **`directoryMoves_iff`**
-/

namespace Wings.Filesystem

open Lib List DiskUsage FileTree

/-! ## Moving a node of the usage tree -/

theorem UsedSpace.sub_applyDelta_eq_iff {u r : UsedSpace} (hu : u.amount ≤ maxAmount)
    (hr : r.amount ≤ maxAmount) : (u.sub r).applyDelta r .zero = u ↔ r.amount ≤ u.amount := by
  obtain ⟨ul, up⟩ := u
  simp only [amount, maxAmount, Prod.mk_le_mk] at hu hr ⊢
  simp only [sub, applyDelta, zero, mk.injEq, clampU64]
  omega

namespace DiskUsage

variable {κ : Type} [LinearOrder κ] {t : DiskUsage κ} {source target : List κ} {r : UsedSpace}

/-- `remove_path`, then `add_directory` of what was removed. -/
def moveNode (t : DiskUsage κ) (source target : List κ) : DiskUsage κ :=
  match t.recursiveRemove source with
  | none => t
  | some (removed, t') => (t'.addDirectory target removed).2

/-- The space at `q` once a node of size `r` is gone from `source`. -/
def spaceWithout (t : DiskUsage κ) (source : List κ) (r : UsedSpace) (q : List κ) : Option UsedSpace :=
  if source <+: q then none
  else if q <+: source then (t.spaceAt q).map (·.sub r) else t.spaceAt q

theorem moveNode_of_none (h : t.SortedAll) (hs : source ≠ []) (hr : t.spaceAt source = none) :
    t.moveNode source target = t := by
  rcases recursiveRemove_spec h hs with ⟨hnone, -⟩ | ⟨removed, t', -, hrem⟩
  · rw [moveNode, hnone]
  · rw [spaceAt, hrem.node] at hr
    cases hr

/-- **Moving a node.**  It hangs at the target with everything below it; the nodes above the target
get its size, those above the source lose it. -/
theorem spaceAt_moveNode (h : t.SortedAll) (hs : source ≠ []) (ht : target ≠ [])
    (hr : t.spaceAt source = some r) (q : List κ) :
    (t.moveNode source target).spaceAt q =
      if target <+: q then t.spaceAt (source ++ q.drop target.length)
      else if q <+: target then
        some (((t.spaceWithout source r q).getD .zero).applyDelta r ((t.spaceWithout source r target).getD .zero))
      else t.spaceWithout source r q := by
  rcases recursiveRemove_spec h hs with ⟨-, hnone⟩ | ⟨removed, t', heq, hrem⟩
  · rw [spaceAt, hnone] at hr
    cases hr
  · have hspace : removed.space = r := by
      rw [spaceAt, hrem.node] at hr
      exact Option.some.inj hr
    have hsorted : removed.SortedAll := by
      intro x node hx
      refine h (source ++ x) node ?_
      rw [getPathComponents_append, hrem.node]
      exact hx
    have hwithout : ∀ x, t'.spaceAt x = t.spaceWithout source r x := by
      intro x
      rw [hrem.space, hspace]
      rfl
    have hbelow : removed.spaceAt (q.drop target.length) =
        t.spaceAt (source ++ q.drop target.length) := by
      rw [spaceAt, spaceAt, getPathComponents_append, hrem.node]
      rfl
    have hmove : t.moveNode source target =
        graft r ((t.spaceWithout source r target).getD .zero) removed t' target := by
      simp only [moveNode, heq, addDirectory, if_neg ht]
      rw [hspace, ← hwithout]
      rfl
    rw [hmove, spaceAt_graft _ _ hrem.sorted hsorted, hbelow, hwithout]

theorem length_le_sizeOf (ht : t.SortedAll) {q : List κ} {node : DiskUsage κ}
    (h : t.getPathComponents q = some node) : q.length + sizeOf node ≤ sizeOf t := by
  induction q generalizing t with
  | nil =>
    obtain rfl : t = node := Option.some.inj h
    simp
  | cons k ks ih =>
    rw [getPathComponents_cons, Option.bind_eq_some_iff] at h
    obtain ⟨child, hk, hnode⟩ := h
    obtain ⟨hsorted, hchildren⟩ := sortedAll_iff.mp ht
    have hsize := sizeOf_lt_of_mem ((find_eq_some_iff hsorted).mp hk)
    have hrec := ih (hchildren k child hk) hnode
    obtain ⟨space, entries⟩ := t
    simp only [mk.sizeOf_spec, Prod.mk.sizeOf_spec, length_cons] at hsize ⊢
    omega

/-- No tree repeats itself below one of its own nodes. -/
theorem eq_nil_of_repeats (ht : t.SortedAll) {y p : List κ} (hp : (t.spaceAt p).isSome = true)
    (h : ∀ n, t.spaceAt (p ++ (replicate n y).flatten) = t.spaceAt (p ++ (replicate (n + 1) y).flatten)) :
    y = [] := by
  have hall : ∀ n, (t.spaceAt (p ++ (replicate n y).flatten)).isSome = true := by
    intro n
    induction n with
    | zero => simpa using hp
    | succ n ih => rwa [← h n]
  by_contra hne
  have hlen : 1 ≤ y.length := length_pos_iff.mpr hne
  obtain ⟨space, hspace⟩ := Option.isSome_iff_exists.mp (hall (sizeOf t + 1))
  obtain ⟨node, hnode, -⟩ := Option.map_eq_some_iff.mp hspace
  have hdeep := length_le_sizeOf ht hnode
  have hmul : (sizeOf t + 1) * 1 ≤ (sizeOf t + 1) * y.length := Nat.mul_le_mul_left _ hlen
  rw [length_append, length_flatten, map_replicate, sum_replicate, nsmul_eq_mul, Nat.cast_id] at hdeep
  omega

variable (h : t.SortedAll) (hs : source ≠ []) (ht : target ≠ [])
include h hs ht

/-- **Where a node must have been.**  Suppose the directory at `source'` has a size, nothing is
recorded at `target'`, and after a move from `source` to `target` the node of the directory is at
`target'` and gone from `source'`.  Then the move was from `source'` to `target'`. -/
theorem eq_of_moves {source' target' : List κ}
    (hlen : target.length = target'.length) (hr : t.spaceAt source' = some r) (hnew : t.spaceAt target' = none)
    (hthere : ∀ x ⊆ source', (t.moveNode source target).spaceAt (target' ++ x) = t.spaceAt (source' ++ x))
    (hgone : (t.moveNode source target).spaceAt source' = none) :
    source = source' ∧ target = target' ∧ ¬ source' <+: target' := by
  cases hsrc : t.spaceAt source with
  | none =>
    rw [moveNode_of_none h hs hsrc, hr] at hgone
    cases hgone
  | some r₀ =>
    have hspace := spaceAt_moveNode h hs ht hsrc
    -- at a target of the same length the node can only be the one that was put there
    have htarget : target = target' := by
      by_contra hne
      have harrived : (t.moveNode source target).spaceAt target' = some r := by
        have h0 := hthere [] (nil_subset _)
        rwa [append_nil, append_nil, hr] at h0
      rw [hspace, if_neg fun hp => hne (hp.eq_of_length hlen),
        if_neg fun hp => hne (hp.eq_of_length hlen.symm).symm, spaceWithout, hnew] at harrived
      split_ifs at harrived
      cases harrived
    subst htarget
    have hnot : ¬ target <+: source' := by
      intro hp
      have hsome := isSome_spaceAt_of_prefix hp (by rw [hr]; rfl)
      rw [hnew] at hsome
      cases hsome
    have hout : ¬ source' <+: target := by
      intro hp
      rw [hspace, if_neg hnot, if_pos hp] at hgone
      cases hgone
    have hunder : source <+: source' := by
      by_contra hns
      rw [hspace, spaceWithout, hr] at hgone
      split_ifs at hgone
      cases hgone
    -- a node below the one that was taken would repeat it for ever
    obtain ⟨y, rfl⟩ := hunder
    have hy : y = [] := by
      refine eq_nil_of_repeats h (by rw [hsrc]; rfl) fun n => ?_
      have hsub : (replicate n y).flatten ⊆ source ++ y := by
        intro k hk
        obtain ⟨l, hl, hkl⟩ := mem_flatten.mp hk
        rw [eq_of_mem_replicate hl] at hkl
        exact mem_append_right _ hkl
      have hstep := hthere _ hsub
      rw [hspace, if_pos (prefix_append _ _), drop_left] at hstep
      rw [hstep, replicate_succ, flatten_cons, append_assoc]
    subst hy
    rw [append_nil] at hout ⊢
    exact ⟨rfl, rfl, hout⟩

/-- What a move from `source` to a free `target` does to the root, whose size comes back exactly
when it was at least that of the node. -/
theorem space_moveNode_eq_iff (hr : t.spaceAt source = some r)
    (hnew : t.spaceAt target = none) (hroot : t.space.amount ≤ maxAmount) (hmax : r.amount ≤ maxAmount) :
    (t.moveNode source target).space = t.space ↔ r.amount ≤ t.space.amount := by
  have hspace := spaceAt_moveNode h hs ht hr []
  have hfree : t.spaceWithout source r target = none := by
    rw [spaceWithout, hnew]
    split_ifs <;> rfl
  rw [if_neg fun hp => ht (prefix_nil.mp hp), hfree] at hspace
  have heq : (t.moveNode source target).space = (t.space.sub r).applyDelta r .zero := by
    refine Option.some.inj (hspace.trans ?_)
    rw [spaceWithout, if_neg fun hp => hs (prefix_nil.mp hp)]
    rfl
  rw [heq]
  exact UsedSpace.sub_applyDelta_eq_iff hroot hmax

/-- A move from `source` to a free `target` takes everything below along and leaves alone what is
neither above nor below one of the two. -/
theorem moves_of_free
    (hr : t.spaceAt source = some r) (hnew : t.spaceAt target = none) (hout : ¬ source <+: target) :
    (∀ x, (t.moveNode source target).spaceAt (target ++ x) = t.spaceAt (source ++ x)) ∧
      (t.moveNode source target).spaceAt source = none ∧
      ∀ q, ¬ q <+: source → ¬ q <+: target → ¬ source <+: q → ¬ target <+: q →
        (t.moveNode source target).spaceAt q = t.spaceAt q := by
  have hspace := spaceAt_moveNode h hs ht hr
  refine ⟨fun x => ?_, ?_, fun q hqs hqt hsq htq => ?_⟩
  · rw [hspace, if_pos (prefix_append _ _), drop_left]
  · have hnot : ¬ target <+: source := by
      intro hp
      have hsome := isSome_spaceAt_of_prefix hp (by rw [hr]; rfl)
      rw [hnew] at hsome
      cases hsome
    rw [hspace, if_neg hnot, if_neg hout, spaceWithout, if_pos prefix_rfl]
  · rw [hspace, if_neg htq, if_neg hqt, spaceWithout, if_neg hsq, if_neg hqs]

end DiskUsage

/-! ## Directories and their nodes -/

/-- A directory of the server, under its real path. -/
def IsDirectory (t : Fs) (p : Subpath) : Prop := ∃ u, t.lookup p = some u ∧ u.isDir = true

variable {p : Subpath}

theorem IsDirectory.of_prefix {t : Fs} {q : Subpath} (h : IsDirectory t p) (hq : q <+: p) :
    IsDirectory t q := by
  obtain ⟨u, hu, hdir⟩ := h
  obtain ⟨s, rfl⟩ := id hq
  have hsome := hu
  rw [FileTree.lookup_append, Option.bind_eq_some_iff] at hsome
  obtain ⟨v, hv, -⟩ := hsome
  exact ⟨v, hv, isDir_above hu (fun _ => hdir) hq hv⟩

/-- No other directory shares a node of the usage tree with `old`, `new` or one above them. -/
def OwnNodes (t : Fs) (old new : Subpath) : Prop :=
  ∀ p q, IsDirectory t p → q <+: old ∨ q <+: new → directoryKeys p = directoryKeys q → p = q

theorem directoryKeys_eq (p : Subpath) : directoryKeys p = p.map fun n => componentKey n.1 := by
  rw [directoryKeys, nodeKeys, location_normal, map_map]
  rfl

theorem directoryKeys_append (p q : Subpath) :
    directoryKeys (p ++ q) = directoryKeys p ++ directoryKeys q := by
  simp only [directoryKeys_eq, map_append]

@[simp] theorem length_directoryKeys (p : Subpath) : (directoryKeys p).length = p.length := by
  rw [directoryKeys_eq, length_map]

theorem directoryKeys_ne_nil (h : p ≠ []) : directoryKeys p ≠ [] := by
  intro hnil
  have hlen := length_directoryKeys p
  rw [hnil] at hlen
  exact h (length_eq_zero_iff.mp hlen.symm)

theorem exists_of_directoryKeys_prefix {q : Subpath} (h : directoryKeys p <+: directoryKeys q) :
    ∃ q', q' <+: q ∧ directoryKeys q' = directoryKeys p := by
  refine ⟨q.take p.length, take_prefix _ _, ?_⟩
  have hp := prefix_iff_eq_take.mp h
  rw [hp, length_directoryKeys, directoryKeys_eq, directoryKeys_eq, map_take]

theorem OwnNodes.prefix_of_keys {t : Fs} {old new q : Subpath} (h : OwnNodes t old new) (hp : IsDirectory t p)
    (hq : q = old ∨ q = new) : (directoryKeys p <+: directoryKeys q → p <+: q) ∧
      (directoryKeys q <+: directoryKeys p → q <+: p) := by
  have hor {q' : Subpath} (hq' : q' <+: q) : q' <+: old ∨ q' <+: new := by
    rcases hq with rfl | rfl
    · exact .inl hq'
    · exact .inr hq'
  constructor <;> intro hk <;> obtain ⟨q', hq', heq⟩ := exists_of_directoryKeys_prefix hk
  · rw [h p q' hp (hor hq') heq.symm]
    exact hq'
  · rwa [← h q' q (hp.of_prefix hq') (hor prefix_rfl) heq]

/-- The size of a directory, `get_size` at its path. -/
def directorySize (t : DiskUsage Name) (p : Subpath) : Option UsedSpace :=
  t.getSize (p.map .normal)

theorem directorySize_eq (t : DiskUsage Name) (p : Subpath) :
    directorySize t p = t.spaceAt (directoryKeys p) :=
  getSize_eq t _

/-- **The accounts follow a directory** moved from `old` to `new`, both real locations: its size and
those below it are found at the new place, none is left at the old one, the total is the same, and
so is the size of every other directory that is not above one of the two. -/
structure DirectoryMoves (fs : Fs) (before after : DiskUsage Name) (old new : Subpath) : Prop where
  there : ∀ below, directorySize after (new ++ below) = directorySize before (old ++ below)
  gone : directorySize after old = none
  root : after.space = before.space
  others : ∀ p, IsDirectory fs p → ¬ p <+: old → ¬ p <+: new → ¬ old <+: p →
    directorySize after p = directorySize before p

theorem Accounts.usage_moveDirectory (a : Accounts) (old new : Subpath) :
    (a.moveDirectory old new).usage =
      a.usage.moveNode (directoryKeys old) (new.map fun n => toStringLossy n.1) := by
  have hkeys : a.usage.removePath (old.map .normal) = a.usage.recursiveRemove (directoryKeys old) :=
    removePath_eq _ _
  unfold moveDirectory
  split
  · next hr =>
    rw [hkeys] at hr
    rw [moveNode, hr]
  · next removed usage hr =>
    rw [hkeys] at hr
    rw [moveNode, hr]

theorem exists_directoryKeys {x : List Name} (h : x ⊆ directoryKeys p) : ∃ q, directoryKeys q = x := by
  induction x with
  | nil => exact ⟨[], rfl⟩
  | cons k x ih =>
    obtain ⟨q, hq⟩ := ih fun k' hk' => h (mem_cons_of_mem k hk')
    have hk : k ∈ directoryKeys p := h mem_cons_self
    rw [directoryKeys_eq] at hk
    obtain ⟨n, -, hn⟩ := mem_map.mp hk
    refine ⟨n :: q, ?_⟩
    rw [← hq, directoryKeys_eq, directoryKeys_eq, map_cons, hn]

section accounts

variable {a : Accounts} {fs : Fs} {given old new : Subpath} {r : UsedSpace}

/-- The directory branch of `rename_path`, called with the path `given` for a directory at `old`. -/
theorem directoryMoves_moveDirectory_iff (hgiven : given ≠ []) (hnew : new ≠ []) (hold : IsDirectory fs old)
    (habsent : ¬ IsDirectory fs new) (hout : ¬ old <+: new)
    (hown : OwnNodes fs old new) (hr : directorySize a.usage old = some r) (hfree : directorySize a.usage new = none)
    (hroot : a.usage.space.amount ≤ maxAmount) (hmax : r.amount ≤ maxAmount) :
    DirectoryMoves fs a.usage (a.moveDirectory given new).usage old new ↔
      directoryKeys given = directoryKeys old ∧
        (new.map fun n => toStringLossy n.1) = directoryKeys new ∧ r.amount ≤ a.usage.space.amount := by
  rw [Accounts.usage_moveDirectory]
  rw [directorySize_eq] at hr hfree
  have hsource := directoryKeys_ne_nil hgiven
  have htarget : (new.map fun n => toStringLossy n.1) ≠ [] := fun hnil =>
    hnew (map_eq_nil_iff.mp hnil)
  have hkeep : ¬ directoryKeys old <+: directoryKeys new := fun hk =>
    hout ((hown.prefix_of_keys hold (.inr rfl)).1 hk)
  constructor
  · intro hm
    obtain ⟨hs, ht, -⟩ := eq_of_moves a.sorted hsource htarget (by simp) hr hfree
      (fun x hx => by
        obtain ⟨below, rfl⟩ := exists_directoryKeys hx
        have hthere := hm.there below
        rwa [directorySize_eq, directorySize_eq, directoryKeys_append, directoryKeys_append] at hthere)
      (by rw [← directorySize_eq]; exact hm.gone)
    refine ⟨hs, ht, ?_⟩
    have hspace := hm.root
    rw [hs, ht] at hspace
    rw [hs] at hsource
    rw [ht] at htarget
    exact (space_moveNode_eq_iff a.sorted hsource htarget hr hfree hroot hmax).mp hspace
  · rintro ⟨hs, ht, hle⟩
    rw [hs] at hsource
    rw [ht] at htarget
    obtain ⟨hthere, hgone, hothers⟩ :=
      moves_of_free a.sorted hsource htarget hr hfree hkeep
    rw [hs, ht]
    refine ⟨fun below => ?_, ?_, ?_, fun p hp hpo hpn hop => ?_⟩
    · rw [directorySize_eq, directorySize_eq, directoryKeys_append, directoryKeys_append]
      exact hthere _
    · rw [directorySize_eq]
      exact hgone
    · exact (space_moveNode_eq_iff a.sorted hsource htarget hr hfree hroot hmax).mpr hle
    · rw [directorySize_eq, directorySize_eq]
      -- a directory that is not above or below by name is not by its keys either
      obtain ⟨hold', hold''⟩ := hown.prefix_of_keys hp (.inl rfl)
      obtain ⟨hnew', hnew''⟩ := hown.prefix_of_keys hp (.inr rfl)
      exact hothers _ (hpo ∘ hold') (hpn ∘ hnew') (hop ∘ hold'') fun hk => habsent (hp.of_prefix (hnew'' hk))

/-- A directory without a record has none to move, if the path given has none either. -/
theorem directoryMoves_of_unrecorded (hgiven : given ≠ []) (hg : directorySize a.usage given = none)
    (hr : directorySize a.usage old = none) (hfree : directorySize a.usage new = none) :
    DirectoryMoves fs a.usage (a.moveDirectory given new).usage old new := by
  rw [directorySize_eq] at hg hr hfree
  rw [Accounts.usage_moveDirectory, moveNode_of_none a.sorted (directoryKeys_ne_nil hgiven) hg]
  have hnone : ∀ {p : Subpath}, a.usage.spaceAt (directoryKeys p) = none → ∀ below,
      a.usage.spaceAt (directoryKeys (p ++ below)) = none := by
    intro p hp below
    by_contra hne
    have hsome := isSome_spaceAt_of_prefix
       (q := directoryKeys p)
      (by rw [directoryKeys_append]; exact prefix_append _ _)
      (Option.isSome_iff_ne_none.mpr hne)
    rw [hp] at hsome
    cases hsome
  refine ⟨fun below => ?_, ?_, rfl, fun _ _ _ _ _ => rfl⟩
  · rw [directorySize_eq, directorySize_eq, hnone hr, hnone hfree]
  · rw [directorySize_eq]
    exact hr

end accounts

/-! ## Renaming a directory -/

section rename

variable {h : Host} {f : Faults} {s : ServerFs} {o n : Subpath} {parents : RenameParents} {u : Fs}

/-- Where a rename of a directory to a free path takes place, once the parents are made. -/
structure DirectoryRename (h : Host) (t : Fs) (o n old new : Subpath) : Prop where
  given : o ≠ []
  locateNew : h.resolution.locate t n = some new
  new_ne_nil : new ≠ []
  isDirectory : IsDirectory t old
  absent : ¬ IsDirectory t new
  outside : ¬ old <+: new

theorem exists_directoryRename (hold : h.lstat s.fs o = some u) (hdir : u.isDir = true)
    (hnew : h.lstat s.fs n = none) (hok : (renameRelative h f s o n parents).1 = .ok ()) :
    ∃ old new, h.resolution.locate s.fs o = some old ∧
      DirectoryRename h (makeParents h f s.fs n parents).2 o n old new ∧
      ((f.canonNewParent = true → new.dropLast = []) →
        (renameRelative h f s o n parents).2.accounts = s.accounts.moveDirectory o new) := by
  by_cases hg : GoesThrough h f s.fs o n parents
  · obtain ⟨m, t', hm, ht', heq⟩ := renameRelative_ok hg
    obtain ⟨od, on, nd, nn, v, parent, ho, hn, hv, hparent, hisdir, hcase⟩ := rename_spec ht'
    obtain ⟨q, rfl, hod⟩ := h.place_eq_some_iff.mp ho
    obtain ⟨q', rfl, hnd⟩ := h.place_eq_some_iff.mp hn
    have hext := (@makeParents_made h f s.fs (q' ++ [nn]) parents).extends_
    -- the old location is the same before and after the parents of the new one are made
    rw [Host.lstat, Resolution.lstat_concat, Option.bind_eq_some_iff] at hold
    obtain ⟨d, hd, hu⟩ := hold
    obtain rfl : d = od := Option.some.inj ((h.resolution.canon_extends hext hd).symm.trans hod)
    obtain ⟨v', hv', hsame, -⟩ := hext _ _ hu
    obtain rfl : v = v' := Option.some.inj (hv.symm.trans hv')
    have hvdir : v.isDir = true := hsame.trans hdir
    have hfree : (makeParents h f s.fs (q' ++ [nn]) parents).2.lookup (nd ++ [nn]) = none := by
      have hl := (@makeParents_new h f s.fs (q' ++ [nn]) parents (by simp)).1
      rw [hnew, Host.lstat, Resolution.lstat_concat] at hl
      have hnd' : h.resolution.canon (makeParents h f s.fs (q' ++ [nn]) parents).2 q' = some nd := hnd
      rwa [hnd'] at hl
    have hstat : h.stat (makeParents h f s.fs (q' ++ [nn]) parents).2 (q ++ [on]) = some v := by
      refine h.resolution.stat_of_lstat ?_ ?_
      · rw [Resolution.lstat_concat, h.resolution.canon_extends hext hd]
        exact hv
      · cases v with
        | leaf l => cases hvdir
        | dir size es => exact id
    obtain rfl : m = v := Option.some.inj (hm.symm.trans hstat)
    refine ⟨d ++ [on], nd ++ [nn], ?_, ⟨by simp, ?_, by simp, ⟨m, hv, hvdir⟩, ?_, ?_⟩, fun hcanon => ?_⟩
    · rw [Resolution.locate_concat, hd]
      rfl
    · rw [Resolution.locate_concat]
      exact congrArg (Option.map (· ++ [nn])) hnd
    · rintro ⟨w, hw, -⟩
      rw [hfree] at hw
      cases hw
    · rcases hcase with ⟨hsame', -⟩ | ⟨hout, -⟩
      · rw [hsame', hfree] at hv
        cases hv
      · exact hout
    · rw [heq]
      have hnd' : h.canon (makeParents h f s.fs (q' ++ [nn]) parents).2
          (q' ++ [nn]).dropLast = some nd := by rwa [dropLast_concat]
      simp only [accountsAfter, if_pos hvdir]
      rw [hnd']
      cases hfault : f.canonNewParent with
      | false => simp
      | true =>
        obtain rfl : nd = [] := by simpa using hcanon hfault
        simp
  · obtain ⟨err, t, herr, -⟩ := renameRelative_error hg
    rw [herr] at hok
    cases hok

/-- **The accounts of a renamed directory.**  A rename of a directory to a path where nothing was moves it from one
real location to another.  If no other directory shares a node of the usage tree with these or with one above them,
nothing is recorded at the new location, and its parent is resolved or is the root: for a directory with a record,
the accounts follow it exactly when the keys of the path given are those of its location, the lossy text of the new
location is its keys, and the total is at least its size. -/
theorem directoryMoves_iff {old new : Path} (hold : h.lstat s.fs (h.relativePath old) = some u) (hdir : u.isDir = true)
    (hnew : h.lstat s.fs (h.relativePath new) = none) (hok : (renamePath h f s old new parents).1 = .ok ())
    (hu64 : ∀ q v, s.accounts.usage.spaceAt q = some v → v.amount ≤ maxAmount) :
    ∃ oldLoc newLoc,
      h.resolution.locate s.fs (h.relativePath old) = some oldLoc ∧
      h.resolution.locate (makeParents h f s.fs (h.relativePath new) parents).2
        (h.relativePath new) = some newLoc ∧
      (OwnNodes (makeParents h f s.fs (h.relativePath new) parents).2 oldLoc newLoc →
        (f.canonNewParent = true → newLoc.dropLast = []) →
        directorySize s.accounts.usage newLoc = none → (∀ r, directorySize s.accounts.usage oldLoc = some r →
          (DirectoryMoves (makeParents h f s.fs (h.relativePath new) parents).2 s.accounts.usage
              (renamePath h f s old new parents).2.accounts.usage oldLoc newLoc ↔
            directoryKeys (h.relativePath old) = directoryKeys oldLoc ∧
              (newLoc.map fun n => toStringLossy n.1) = directoryKeys newLoc ∧
              r.amount ≤ s.accounts.usage.space.amount)) ∧ (directorySize s.accounts.usage oldLoc = none →
          directorySize s.accounts.usage (h.relativePath old) = none →
          DirectoryMoves (makeParents h f s.fs (h.relativePath new) parents).2 s.accounts.usage
            (renamePath h f s old new parents).2.accounts.usage oldLoc newLoc)) := by
  unfold renamePath at hok ⊢
  obtain ⟨oldLoc, newLoc, hlocate, hr, haccounts⟩ := exists_directoryRename hold hdir hnew hok
  refine ⟨oldLoc, newLoc, hlocate, hr.locateNew, fun hown hcanon hfree => ⟨fun r hsize => ?_, fun hn hg => ?_⟩⟩
  · rw [haccounts hcanon]
    rw [directorySize_eq] at hsize
    exact directoryMoves_moveDirectory_iff hr.given hr.new_ne_nil hr.isDirectory hr.absent
      hr.outside hown (by rw [directorySize_eq, hsize]) hfree (hu64 [] _ rfl) (hu64 _ _ hsize)
  · rw [haccounts hcanon]
    exact directoryMoves_of_unrecorded hr.given hg hn hfree

/-- A server with one empty directory `a` that is charged with ten bytes. -/
def chargedDirectory : ServerFs where
  fs := .dir ⟨0, Nat.zero_le _⟩ [(nameA, .dir ⟨0, Nat.zero_le _⟩ [])]
  accounts :=
    { cached := ⟨0, 10, 10, 0⟩
      usage := ⟨⟨10, 10⟩, [(nameA.1, ⟨⟨10, 10⟩, []⟩)]⟩
      sorted := by
        have hs : Sorted [(nameA.1, (⟨⟨10, 10⟩, []⟩ : DiskUsage Name))] := List.pairwise_singleton _ _
        refine DiskUsage.sortedAll_iff.mpr ⟨hs, fun k c hc => ?_⟩
        obtain ⟨-, rfl⟩ : k = nameA.1 ∧ c = ⟨⟨10, 10⟩, []⟩ := by
          simpa using (find_eq_some_iff hs).mp hc
        exact DiskUsage.sortedAll_iff.mpr ⟨List.Pairwise.nil, fun _ _ h => nomatch h⟩ }

/-- The directory is renamed to a name that is not UTF-8: its size is filed under the replacement
character, and is not found under the name. -/
theorem size_lost_under_lossy_name :
    let r := renamePath plainHost .none chargedDirectory [.normal nameA] [.normal rawName] .require
    r.1 = .ok () ∧ directorySize chargedDirectory.accounts.usage [nameA] = some ⟨10, 10⟩ ∧
      plainHost.resolution.locate chargedDirectory.fs [rawName] = some [rawName] ∧
      directorySize r.2.accounts.usage [rawName] = none ∧
      ¬ DirectoryMoves chargedDirectory.fs chargedDirectory.accounts.usage r.2.accounts.usage [nameA]
        [rawName] := by
  refine ⟨rfl, rfl, rfl, rfl, fun hm => ?_⟩
  exact absurd (hm.there []) (by decide)

theorem isDirectory_chargedDirectory {p : Subpath} (h : IsDirectory chargedDirectory.fs p) :
    p = [] ∨ p = [nameA] := by
  obtain ⟨u, hu, -⟩ := h
  cases p with
  | nil => exact .inl rfl
  | cons n p =>
    rw [FileTree.lookup_cons, Option.bind_eq_some_iff] at hu
    obtain ⟨c, hc, hp⟩ := hu
    have hmem : (n, c) ∈ [(nameA, (.dir ⟨0, Nat.zero_le _⟩ []))] := mem_of_entry hc
    obtain ⟨rfl, rfl⟩ : n = nameA ∧ c = .dir ⟨0, Nat.zero_le _⟩ [] := by simpa using hmem
    cases p with
    | nil => exact .inr rfl
    | cons m p => cases hp

theorem spaces_chargedDirectory (q : List Name) (v : UsedSpace)
    (hv : chargedDirectory.accounts.usage.spaceAt q = some v) : v.amount ≤ maxAmount := by
  cases q with
  | nil =>
    obtain rfl : ⟨10, 10⟩ = v := Option.some.inj hv
    decide
  | cons k ks =>
    rw [spaceAt_cons, Option.bind_eq_some_iff] at hv
    obtain ⟨c, hc, hks⟩ := hv
    have hmem := (find_eq_some_iff (pairwise_singleton _ _)).mp hc
    obtain ⟨rfl, rfl⟩ : k = nameA.1 ∧ c = ⟨⟨10, 10⟩, []⟩ := by simpa using hmem
    cases ks with
    | nil =>
      obtain rfl : ⟨10, 10⟩ = v := Option.some.inj hks
      decide
    | cons k' ks => cases hks

theorem directoryMoves_iff_plain :
    DirectoryMoves chargedDirectory.fs chargedDirectory.accounts.usage
      (renamePath plainHost .none chargedDirectory [.normal nameA] [.normal nameB]
        .require).2.accounts.usage [nameA] [nameB] := by
  obtain ⟨oldLoc, newLoc, ho, hn, hiff⟩ := @directoryMoves_iff plainHost .none chargedDirectory .require
    (.dir ⟨0, Nat.zero_le _⟩ []) [.normal nameA] [.normal nameB] rfl rfl rfl rfl
    spaces_chargedDirectory
  obtain rfl : [nameA] = oldLoc := Option.some.inj ho
  obtain rfl : [nameB] = newLoc := Option.some.inj hn
  have hown : OwnNodes chargedDirectory.fs [nameA] [nameB] := by
    intro p q hp hq hk
    have hkeys : ∀ p ∈ [[], [nameA]], ∀ q ∈ [nameA].inits ++ [nameB].inits, directoryKeys p = directoryKeys q → p = q := by
      decide
    have hq' := mem_append.mpr (hq.imp (mem_inits _ _).mpr (mem_inits _ _).mpr)
    exact hkeys p (by simpa using isDirectory_chargedDirectory hp) q hq' hk
  exact ((hiff hown nofun rfl).1 ⟨10, 10⟩ rfl).mpr ⟨rfl, rfl, by decide⟩

end rename

end Wings.Filesystem
