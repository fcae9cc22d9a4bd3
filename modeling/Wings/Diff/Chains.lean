import Mathlib.Data.List.Dedup
import Mathlib.Algebra.Order.Group.Nat
import Mathlib.Algebra.Order.BigOperators.Group.List
import Wings.Diff.Storage

/-!
# Wings.Diff.Chains — what deletions of whole chains leave

* the three deletions of `record_edit` prune, and what is left when they free nothing.
-/

namespace Wings.Diff

namespace Storage

open Lib List RowTable

variable {C : Codec} {s s' s'' : Storage C} {fileId : ℕ} {r : Revision C}

/-- The head of a chain is a row of its file, chains follow the order of the rows within a file, and
no payload is empty. -/
structure Chained (s : Storage C) : Prop where
  head : ∀ r ∈ s.revisions.rows, ∃ h ∈ s.revisions.rows,
    h.fileId = r.fileId ∧ h.chainId = r.chainId ∧ h.id = r.chainId ∧ h.baseId = none
  mono : ∀ r ∈ s.revisions.rows, ∀ r' ∈ s.revisions.rows, r.fileId = r'.fileId → r.id ≤ r'.id →
    r.chainId ≤ r'.chainId
  payload : ∀ r ∈ s.revisions.rows, r.payload ≠ []

def Populated (s : Storage C) : Prop := ∀ f ∈ s.files.rows, ∃ r ∈ s.revisions.rows, r.fileId = f.id

theorem latestRevision_eq_some_iff :
    s.latestRevision fileId = some r ↔ r ∈ s.revisions.rows ∧ r.fileId = fileId ∧
      ∀ r' ∈ s.revisions.rows, r'.fileId = fileId → r'.id ≤ r.id := by
  simp only [latestRevision, newest_eq_some_iff, decide_eq_true_eq]

theorem exists_latestRevision (hr : r ∈ s.revisions.rows) : ∃ r', s.latestRevision r.fileId = some r' := by
  rw [← Option.ne_none_iff_exists']
  intro hnone
  have := newest_eq_none_iff.mp hnone r hr
  simp at this

/-- No row of a file belongs to a later chain than its latest row. -/
theorem Chained.chainId_le_latest (hs : s.Chained) {r' : Revision C}
    (hlatest : s.latestRevision fileId = some r') (hr : r ∈ s.revisions.rows) (hf : r.fileId = fileId) :
    r.chainId ≤ r'.chainId := by
  obtain ⟨hr', hf', hmax⟩ := latestRevision_eq_some_iff.mp hlatest
  exact hs.mono r hr r' hr' (hf.trans hf'.symm) (hmax r hr hf)

/-! ## Chains of a file -/

theorem mem_chainIds {c : ℕ} :
    c ∈ s.chainIds fileId ↔ ∃ r ∈ s.revisions.rows, r.fileId = fileId ∧ r.chainId = c := by
  simp [chainIds, ofFile, and_assoc]

theorem chainCount_le_of_subset {l : List ℕ} (h : s.chainIds fileId ⊆ l) : s.chainCount fileId ≤ l.length :=
  (subperm_of_subset (nodup_dedup _) h).length_le

theorem chainIds_eq_singleton {c : ℕ} (hr : r ∈ s.revisions.rows)
    (hf : r.fileId = fileId) (h : ∀ r ∈ s.revisions.rows, r.fileId = fileId → r.chainId = c) :
    s.chainIds fileId = [c] := by
  refine perm_singleton.mp ((perm_ext_iff_of_nodup (nodup_dedup _) (nodup_singleton c)).mpr fun c' => ?_)
  rw [mem_singleton]
  refine ⟨fun hc' => ?_, ?_⟩
  · obtain ⟨r', hr', hf', rfl⟩ := mem_chainIds.mp hc'
    exact h r' hr' hf'
  · rintro rfl
    exact mem_chainIds.mpr ⟨r, hr, hf, h r hr hf⟩

theorem chainCount_pos (hr : r ∈ s.revisions.rows) (hf : r.fileId = fileId) : 0 < s.chainCount fileId :=
  length_pos_iff.mpr (ne_nil_of_mem (mem_chainIds.mpr ⟨r, hr, hf, rfl⟩))

theorem payloadBytes_pos {l : List (Revision C)} (hr : r ∈ l) (hp : r.payload ≠ []) : 0 < payloadBytes l := by
  have hle : r.payload.length ≤ payloadBytes l :=
    single_le_sum (fun _ _ => Nat.zero_le _) _ (mem_map_of_mem hr)
  have : 0 < r.payload.length := length_pos_iff.mpr hp
  omega

/-! ## Pruning -/

/-- Whole chains are gone, and the latest revision of every file is what it was. -/
structure Pruned (s s' : Storage C) : Prop where
  files : s'.files = s.files
  rows : ∃ drop : ℕ → ℕ → Bool, s'.revisions.rows = s.revisions.rows.filter fun r => !drop r.fileId r.chainId
  latest : ∀ f, s'.latestRevision f = s.latestRevision f

theorem Pruned.refl (s : Storage C) : Pruned s s := ⟨rfl, ⟨fun _ _ => false, by simp⟩, fun _ => rfl⟩

section

variable (h : Pruned s s')
include h

theorem Pruned.trans (h' : Pruned s' s'') : Pruned s s'' := by
  obtain ⟨drop, hrows⟩ := h.rows
  obtain ⟨drop', hrows'⟩ := h'.rows
  refine ⟨h'.files.trans h.files, ⟨fun f c => drop f c || drop' f c, ?_⟩, fun f => (h'.latest f).trans (h.latest f)⟩
  rw [hrows', hrows, filter_filter]
  exact filter_congr fun r _ => by simp [Bool.and_comm]

theorem Pruned.sublist : s'.revisions.rows.Sublist s.revisions.rows := by
  obtain ⟨drop, hrows⟩ := h.rows
  exact hrows ▸ filter_sublist

theorem Pruned.mem_of_chain {r' : Revision C} (hr : r ∈ s'.revisions.rows)
    (hr' : r' ∈ s.revisions.rows) (hf : r'.fileId = r.fileId) (hc : r'.chainId = r.chainId) :
    r' ∈ s'.revisions.rows := by
  obtain ⟨drop, hrows⟩ := h.rows
  rw [hrows, mem_filter] at hr ⊢
  exact ⟨hr', by rw [hf, hc]; exact hr.2⟩

theorem Pruned.chained (hs : s.Chained) : s'.Chained where
  head r hr := by
    obtain ⟨h', hh', hf, hc, hid, hbase⟩ := hs.head r (h.sublist.subset hr)
    exact ⟨h', h.mem_of_chain hr hh' hf hc, hf, hc, hid, hbase⟩
  mono r hr r' hr' := hs.mono r (h.sublist.subset hr) r' (h.sublist.subset hr')
  payload r hr := hs.payload r (h.sublist.subset hr)

theorem Pruned.populated (hs : s.Populated) : s'.Populated := by
  intro f hf
  obtain ⟨r, hr, hid⟩ := hs f (h.files ▸ hf)
  obtain ⟨r', hr'⟩ := exists_latestRevision hr
  rw [← h.latest, latestRevision_eq_some_iff] at hr'
  exact ⟨r', hr'.1, hr'.2.1.trans hid⟩

theorem Pruned.chainCount_le (fileId : ℕ) : s'.chainCount fileId ≤ s.chainCount fileId := by
  refine chainCount_le_of_subset fun c hc => ?_
  obtain ⟨r, hr, hf, hc⟩ := mem_chainIds.mp hc
  exact mem_chainIds.mpr ⟨r, h.sublist.subset hr, hf, hc⟩

theorem Pruned.filePayloadBytes_le (fileId : ℕ) :
    s'.filePayloadBytes fileId ≤ s.filePayloadBytes fileId :=
  ((h.sublist.filter _).map _).sum_le_sum fun _ _ => Nat.zero_le _

end

/-- Dropping chains prunes when the chain of every latest revision stays. -/
theorem pruned_dropChains (drop : ℕ → ℕ → Bool) (h : ∀ f r, s.latestRevision f = some r → drop f r.chainId = false) :
    Pruned s (s.dropChains drop) := by
  refine ⟨rfl, ⟨drop, rfl⟩, fun f => ?_⟩
  cases hlatest : s.latestRevision f with
  | none =>
    have hnone := newest_eq_none_iff.mp hlatest
    exact newest_eq_none_iff.mpr fun r hr => hnone r (mem_select.mp hr).1
  | some r =>
    obtain ⟨hr, hf, hmax⟩ := latestRevision_eq_some_iff.mp hlatest
    refine latestRevision_eq_some_iff.mpr ⟨mem_select.mpr ⟨hr, ?_⟩, hf, ?_⟩
    · rw [hf, h f r hlatest, Bool.not_false]
    · exact fun r' hr' hf' => hmax r' (mem_select.mp hr').1 hf'

/-! ## The deletions of `record_edit` -/

/-- **Pruning keeps the newest `keepChains` chains**, the latest one among them. -/
theorem pruneOldChains_spec (fileId : ℕ) (hs : s.Chained) {keepChains : ℕ} (hkeep : keepChains ≠ 0) :
    Pruned s (s.pruneOldChains fileId keepChains) ∧
      (s.pruneOldChains fileId keepChains).chainCount fileId ≤ keepChains := by
  simp only [pruneOldChains, if_neg hkeep]
  set sorted := (s.chainIds fileId).mergeSort fun a b => b ≤ a with hsorted
  have hperm : sorted.Perm (s.chainIds fileId) := mergeSort_perm _ _
  have hdesc : sorted.Pairwise fun a b => b ≤ a := by
    have hle := @pairwise_mergeSort ℕ (fun a b => decide (b ≤ a))
      (fun a b c hab hbc => by simp at *; omega) (fun a b => by simp; omega) (s.chainIds fileId)
    simpa using hle
  split_ifs with hfew
  · refine ⟨Pruned.refl s, ?_⟩
    rw [length_take] at hfew
    have : sorted.length = s.chainCount fileId := hperm.length_eq
    omega
  · cases hlast : (sorted.take keepChains).getLast? with
    | none =>
      rw [getLast?_eq_none_iff] at hlast
      rw [hlast, length_nil] at hfew
      omega
    | some minKeep =>
      have hmin : minKeep ∈ sorted.take keepChains := mem_of_getLast? hlast
      refine ⟨pruned_dropChains _ fun f r hlatest => ?_, ?_⟩
      · -- the smallest chain kept is a chain of the file, so it is not later than the latest one
        obtain ⟨r', hr', hf', hc'⟩ := mem_chainIds.mp (hperm.subset (take_subset _ _ hmin))
        refine decide_eq_false fun ⟨hf, hlt⟩ => ?_
        subst hf
        have := hs.chainId_le_latest hlatest hr' hf'
        omega
      · refine (chainCount_le_of_subset fun c hc => ?_).trans (length_take_le keepChains sorted)
        obtain ⟨r, hr, hf, rfl⟩ := mem_chainIds.mp hc
        obtain ⟨hr, hkept⟩ := mem_select.mp hr
        have hle : minKeep ≤ r.chainId := by simpa [hf] using hkept
        have hmem : r.chainId ∈ sorted := hperm.symm.subset (mem_chainIds.mpr ⟨r, hr, hf, rfl⟩)
        rw [← take_append_drop keepChains sorted] at hmem hdesc
        rcases mem_append.mp hmem with h | h
        · exact h
        · have := (pairwise_append.mp hdesc).2.2 minKeep hmin _ h
          rwa [show r.chainId = minKeep by omega]

theorem payloadBytes_filter_add (p : Revision C → Bool) (l : List (Revision C)) :
    payloadBytes (l.filter fun r => !p r) + payloadBytes (l.filter p) = payloadBytes l := by
  induction l with
  | nil => rfl
  | cons r l ih =>
    simp only [payloadBytes] at ih ⊢
    cases hp : p r <;> simp [hp] <;> omega

theorem dropChain_freed_pos (hs : s.Chained) (hr : r ∈ s.revisions.rows) : 0 < (s.dropChain r.fileId r.chainId).1 :=
  payloadBytes_pos (mem_filter.mpr ⟨hr, by simp⟩) (hs.payload r hr)

/-- A step of a budget loop: it prunes, and frees nothing only when it changes nothing. -/
structure DropStep (s : Storage C) (res : ℕ × Storage C) : Prop where
  pruned : Pruned s res.2
  total : res.2.totalPayloadBytes + res.1 = s.totalPayloadBytes
  stuck : res.1 = 0 → res.2 = s
  shrinks : res.1 ≠ 0 → res.2.revisions.rows.length < s.revisions.rows.length

theorem dropStep_none (s : Storage C) : DropStep s (0, s) :=
  ⟨Pruned.refl s, rfl, fun _ => rfl, fun h => absurd rfl h⟩

theorem dropStep_dropChain (hs : s.Chained) (hr : r ∈ s.revisions.rows)
    (hspare : ∀ r', s.latestRevision r.fileId = some r' → r'.chainId ≠ r.chainId) :
    DropStep s (s.dropChain r.fileId r.chainId) where
  pruned := by
    refine pruned_dropChains (fun f c => f = r.fileId ∧ c = r.chainId) fun f r' hlatest => ?_
    refine decide_eq_false ?_
    rintro ⟨rfl, hc⟩
    exact hspare r' hlatest hc
  total := payloadBytes_filter_add (fun x => x.fileId = r.fileId ∧ x.chainId = r.chainId) s.revisions.rows
  stuck h := absurd h (dropChain_freed_pos hs hr).ne'
  shrinks _ := length_filter_lt_length_iff_exists.mpr ⟨r, hr, by simp⟩

/-- **`drop_oldest_chain` prunes**, and is stuck only at a file with one chain. -/
theorem dropOldestChain_spec (hs : s.Chained) :
    DropStep s (s.dropOldestChain fileId (s.latestChainId fileId) 1) ∧
      ((s.dropOldestChain fileId (s.latestChainId fileId) 1).1 = 0 → s.chainCount fileId ≤ 1) := by
  simp only [dropOldestChain]
  split_ifs with hcount
  · exact ⟨dropStep_none s, fun _ => by simpa using hcount⟩
  · split
    · rename_i hnone
      -- every chain of the file is the protected one
      rw [min?_eq_none_iff, filter_eq_nil_iff] at hnone
      refine ⟨dropStep_none s, fun _ => ?_⟩
      refine (chainCount_le_of_subset (l := (s.latestChainId fileId).toList) fun c hc => ?_).trans ?_
      · simpa using hnone c hc
      · cases s.latestChainId fileId <;> simp
    · rename_i oldest hmin
      obtain ⟨hmem, hne⟩ := mem_filter.mp (min?_mem hmin)
      obtain ⟨r, hr, rfl, rfl⟩ := mem_chainIds.mp hmem
      refine ⟨dropStep_dropChain hs hr fun r' hr' hc => ?_, fun h => ?_⟩
      · simp [latestChainId, hr', hc] at hne
      · exact absurd h (dropChain_freed_pos hs hr).ne'

variable {protect : Option (ℕ × ℕ)}

theorem droppableHead_iff {h : Revision C} :
    s.droppableHead protect h = true ↔
      h.baseId = none ∧ h.id = h.chainId ∧ protect ≠ some (h.fileId, h.chainId) ∧
        ∃ o ∈ s.revisions.rows, o.fileId = h.fileId ∧ o.chainId ≠ h.chainId := by
  simp only [droppableHead, decide_eq_true_eq]

/-- The chain `drop_globally_oldest_chain` may drop: an unprotected chain of a file that has another. -/
theorem Chained.exists_droppableHead (hs : s.Chained) {o : Revision C}
    (hr : r ∈ s.revisions.rows) (hprotect : protect ≠ some (r.fileId, r.chainId))
    (ho : o ∈ s.revisions.rows) (hf : o.fileId = r.fileId) (hc : o.chainId ≠ r.chainId) :
    ∃ h ∈ s.revisions.rows, h.fileId = r.fileId ∧ h.id = r.chainId ∧ s.droppableHead protect h = true := by
  obtain ⟨h, hh, hhf, hhc, hid, hbase⟩ := hs.head r hr
  refine ⟨h, hh, hhf, hid, droppableHead_iff.mpr ⟨hbase, hid.trans hhc.symm, ?_, o, ho, ?_, ?_⟩⟩
  · rwa [hhf, hhc]
  · rw [hf, hhf]
  · rwa [hhc]

/-- **`drop_globally_oldest_chain` prunes**: the chain of a latest revision is never the oldest that may
be dropped.  It is stuck only when every other file has one chain and the file of the protected chain
no other chain. -/
theorem dropGloballyOldestChain_spec (hs : s.Chained) (hlatest : s.latestRevision fileId = some r) :
    DropStep s (s.dropGloballyOldestChain (some (fileId, r.chainId))) ∧
      ((s.dropGloballyOldestChain (some (fileId, r.chainId))).1 = 0 →
        ∀ a ∈ s.revisions.rows, ∀ b ∈ s.revisions.rows, a.fileId = b.fileId → a.chainId = b.chainId) := by
  simp only [dropGloballyOldestChain]
  split
  · rename_i hnone
    rw [oldest, find?_eq_none] at hnone
    refine ⟨dropStep_none s, fun _ a ha b hb hab => by_contra fun hne => ?_⟩
    have habsurd : ∀ {a b}, a ∈ s.revisions.rows → b ∈ s.revisions.rows → b.fileId = a.fileId →
        b.chainId ≠ a.chainId → some (fileId, r.chainId) = some (a.fileId, a.chainId) := by
      intro a b ha hb hf hc
      by_contra hprotect
      obtain ⟨h, hh, _, _, hdrop⟩ := hs.exists_droppableHead ha hprotect hb hf hc
      exact hnone h hh hdrop
    have ha' := habsurd ha hb hab.symm (Ne.symm hne)
    have hb' := habsurd hb ha hab hne
    simp only [Option.some.injEq, Prod.mk.injEq] at ha' hb'
    exact hne (ha'.2.symm.trans hb'.2)
  · rename_i h hold
    obtain ⟨hh, hdrop, hmin⟩ := oldest_eq_some hold
    obtain ⟨hbase, hid, hprotect, o, ho, hof, hoc⟩ := droppableHead_iff.mp hdrop
    refine ⟨dropStep_dropChain hs hh fun l hl hc => ?_, fun hz => ?_⟩
    · -- an earlier chain of the same file would have been chosen
      have hlt : o.chainId < h.chainId := by
        have := hs.chainId_le_latest hl ho hof
        omega
      have hprotect' : some (fileId, r.chainId) ≠ some (o.fileId, o.chainId) := by
        intro heq
        obtain ⟨rfl, hoc'⟩ := Prod.mk.inj (Option.some.inj heq)
        rw [hof, hl] at hlatest
        obtain rfl := Option.some.inj hlatest
        omega
      obtain ⟨h', hh', _, hid', hdrop'⟩ :=
        hs.exists_droppableHead ho hprotect' hh hof.symm hoc.symm
      have := hmin h' hh' hdrop'
      omega
    · exact absurd hz (dropChain_freed_pos hs hh).ne'

end Storage

end Wings.Diff
