import Wings.Diff.Manager

/-!
# Wings.Diff.Reconstruct — a stored revision gives back what was recorded

* **`revisions_reconstruct`**, **`revision_lost_beyond_limit`**
-/

namespace Wings.Diff

open Lib List RowTable Call

namespace Storage

variable {C : Codec} {s s' : Storage C} {fileId : ℕ}

theorem decodeChain_concat {id : ℕ} {rows : List (Revision C)} (hne : rows ≠ []) (r : Revision C) :
    decodeChain id (rows ++ [r]) = decodeChain id rows >>= fun c => decodeStep id c r := by
  cases rows with
  | nil => exact absurd rfl hne
  | cons head steps =>
    simp only [decodeChain, cons_append, foldlM_append, foldlM_cons, foldlM_nil, bind_assoc, bind_pure]

/-- The row `r` has the content `c`, over `n` rows of its chain back to the snapshot. -/
inductive Rebuilds (s : Storage C) : ℕ → Revision C → Bytes → Prop
  | head (r : Revision C) (c : Bytes) (hr : r ∈ s.revisions.rows) (hbase : r.baseId = none)
      (hp : r.payload = C.compress c) (hh : r.contentHash = C.hash c) : Rebuilds s 1 r c
  | step (n : ℕ) (b r : Revision C) (c d : Bytes) (hr : r ∈ s.revisions.rows)
      (hbase : r.baseId = some b.id) (hf : b.fileId = r.fileId) (hc : b.chainId = r.chainId)
      (hp : r.payload = C.encodeWithDictionary c d) (hh : r.contentHash = C.hash c)
      (h : Rebuilds s n b d) : Rebuilds s (n + 1) r c

namespace Rebuilds

variable {n : ℕ} {r : Revision C} {c : Bytes} (h : Rebuilds s n r c)
include h

theorem mem : r ∈ s.revisions.rows := by cases h <;> assumption

theorem of_chain (hrows : ∀ x ∈ s.revisions.rows, x.fileId = r.fileId → x.chainId = r.chainId → x ∈ s'.revisions.rows)
    : Rebuilds s' n r c := by
  induction h with
  | head r c hr hbase hp hh => exact .head r c (hrows r hr rfl rfl) hbase hp hh
  | step n b r c d hr hbase hf hc hp hh _ ih =>
    refine .step n b r c d (hrows r hr rfl rfl) hbase hf hc hp hh (ih fun x hx hxf hxc => ?_)
    exact hrows x hx (hxf.trans hf) (hxc.trans hc)

theorem collectChain {fuel : ℕ} (id : ℕ) (hfuel : n ≤ fuel) (chain : List (Revision C)) :
    ∃ rows, rows ≠ [] ∧ s.collectChain id fuel r.id chain = .ok (rows ++ chain) ∧ decodeChain id rows = .ok c := by
  induction h generalizing fuel chain with
  | head r c hr hbase hp hh =>
    obtain ⟨fuel, rfl⟩ := Nat.exists_eq_add_of_le' hfuel
    refine ⟨[r], cons_ne_nil _ _, ?_, ?_⟩
    · have hfind := s.revisions.find_of_mem hr
      simp [Storage.collectChain, hfind, hbase]
    · simp [decodeChain, decodeHead, hp, hh, C.decodeAll_compress, bind, Except.bind, pure, Except.pure]
  | step n b r c d hr hbase hf hc hp hh h ih =>
    obtain ⟨fuel, rfl⟩ : ∃ fuel', fuel = fuel' + 1 := ⟨fuel - 1, by omega⟩
    obtain ⟨rows, hne, hcollect, hdecode⟩ := ih (show n ≤ fuel by omega) (r :: chain)
    refine ⟨rows ++ [r], by simp, ?_, ?_⟩
    · have hfind := s.revisions.find_of_mem hr
      simp only [Storage.collectChain, hfind, hbase]
      rw [hcollect, append_assoc, singleton_append]
    · rw [decodeChain_concat hne, hdecode]
      simp [bind, Except.bind, decodeStep, hp, hh, C.decode_encode]

/-- **A revision no deeper than the loop goes reads back.** -/
theorem reconstruct (hn : n ≤ 1000) : s.reconstruct r.id = .ok c := by
  obtain ⟨rows, _, hcollect, hdecode⟩ := h.collectChain r.id hn []
  rw [append_nil] at hcollect
  simp only [Storage.reconstruct, hcollect, bind, Except.bind]
  exact hdecode

end Rebuilds

/-! ## The invariant of runs -/

/-- Every revision rebuilds a content that belongs to it, and its chain is short enough to be read. -/
structure Readable (contents : Revision C → Bytes → Prop) (s : Storage C) : Prop where
  rebuilds : ∀ r ∈ s.revisions.rows, ∃ n c, contents r c ∧ Rebuilds s n r c ∧ n ≤ (s.ofChain r.fileId r.chainId).length
  short : ∀ r ∈ s.revisions.rows, (s.ofChain r.fileId r.chainId).length ≤ 1000

variable {contents contents' : Revision C → Bytes → Prop} {r : Revision C} {n : ℕ} {c : Bytes} {k : ℕ}

theorem Readable.reconstruct (h : Readable contents s) (hr : r ∈ s.revisions.rows) :
    ∃ c, contents r c ∧ s.reconstruct r.id = .ok c := by
  obtain ⟨n, c, hc, hrebuilds, hn⟩ := h.rebuilds r hr
  exact ⟨c, hc, hrebuilds.reconstruct (hn.trans (h.short r hr))⟩

theorem Readable.mono (h : Readable contents s) (himp : ∀ r ∈ s.revisions.rows, ∀ c, contents r c → contents' r c) :
    Readable contents' s where
  rebuilds r hr := by
    obtain ⟨n, c, hc, hrest⟩ := h.rebuilds r hr
    exact ⟨n, c, himp r hr c hc, hrest⟩
  short := h.short

theorem Adds.ofChain (h : Adds n fileId s s' c r) (f ch : ℕ) :
    s'.ofChain f ch = s.ofChain f ch ++ if r.fileId = f ∧ r.chainId = ch then [r] else [] := by
  by_cases hr : r.fileId = f ∧ r.chainId = ch <;>
    simp [Storage.ofChain, h.rows, filter_append, hr]

theorem Adds.length_ofChain_lt (hadd : Adds n fileId s s' c r)
    (hs : s.Chained) (hn : 0 < n) : (s.ofChain r.fileId r.chainId).length < n := by
  cases hadd with
  | snapshot _ hr =>
    -- the chain is new: the chain of a row is named by an id in use
    have hnil : s.ofChain r.fileId r.chainId = [] := by
      refine filter_eq_nil_iff.mpr fun x hx hmem => ?_
      obtain ⟨h, hh, _, _, hid, _⟩ := hs.head x hx
      have hlt := key_lt_nextKey hh
      simp only [hr, decide_eq_true_eq] at hmem
      omega
    rw [hnil]
    exact hn
  | delta base _ d _ hlen _ hr => rwa [hr]

/-- One added revision, on a chain below the limit, is readable with the others. -/
theorem Readable.adds (hread : Readable contents s) (hs : s.Chained) (hn : 0 < n) (hn' : n ≤ 1000)
    (hadd : Adds n fileId s s' c r) : Readable (fun x d => contents x d ∨ x = r ∧ d = c) s' := by
  have hold : ∀ {k x d}, Rebuilds s k x d → Rebuilds s' k x d :=
    fun h => h.of_chain fun x hx _ _ => hadd.mem_iff.mpr (.inl hx)
  have hlt := hadd.length_ofChain_lt hs hn
  have hr' : r ∈ s'.revisions.rows := hadd.mem_iff.mpr (.inr rfl)
  have hlen_r : (s'.ofChain r.fileId r.chainId).length = (s.ofChain r.fileId r.chainId).length + 1 := by
    simp [hadd.ofChain]
  refine ⟨fun x hx => ?_, fun x hx => ?_⟩
  · rcases hadd.mem_iff.mp hx with hx | rfl
    · obtain ⟨k, d, hd, hreb, hk⟩ := hread.rebuilds x hx
      refine ⟨k, d, .inl hd, hold hreb, ?_⟩
      rw [hadd.ofChain, length_append]
      omega
    · cases hadd with
      | snapshot _ hr =>
        exact ⟨1, c, .inr ⟨rfl, rfl⟩, .head x c hr' (by rw [hr]) (by rw [hr]) (by rw [hr]), by omega⟩
      | delta base _ d hlatest _ hd hr =>
        obtain ⟨hb, hbf, _⟩ := latestRevision_eq_some_iff.mp hlatest
        obtain ⟨k, d', _, hreb, hk⟩ := hread.rebuilds base hb
        have hd' := hreb.reconstruct (hk.trans (hread.short base hb))
        obtain rfl : d = d' := Except.ok.inj (hd.symm.trans hd')
        have hf : base.fileId = x.fileId := by rw [hr, hbf]
        have hc : base.chainId = x.chainId := by rw [hr]
        refine ⟨k + 1, c, .inr ⟨rfl, rfl⟩, .step k base x c d hr' (by rw [hr]) hf hc (by rw [hr])
          (by rw [hr]) (hold hreb), ?_⟩
        rw [hf, hc] at hk
        omega
  · by_cases hx' : x.fileId = r.fileId ∧ x.chainId = r.chainId
    · rw [hx'.1, hx'.2]
      omega
    · have hne : ¬(r.fileId = x.fileId ∧ r.chainId = x.chainId) := fun h => hx' ⟨h.1.symm, h.2.symm⟩
      rw [hadd.ofChain, if_neg hne, append_nil]
      rcases hadd.mem_iff.mp hx with hx | rfl
      · exact hread.short x hx
      · exact absurd ⟨rfl, rfl⟩ hne

section Deletions

variable {d : ℕ → ℕ → Bool}
  (hrows : s'.revisions.rows = s.revisions.rows.filter fun r => !d r.fileId r.chainId)

include hrows

theorem ofChain_eq_of_rows {r : Revision C} (hr : r ∈ s'.revisions.rows) :
    s'.ofChain r.fileId r.chainId = s.ofChain r.fileId r.chainId := by
  rw [hrows, mem_filter] at hr
  rw [ofChain, hrows, filter_filter]
  refine filter_congr fun x _ => ?_
  by_cases hx : x.fileId = r.fileId ∧ x.chainId = r.chainId
  · simp only [hx.1, hx.2, hr.2, and_self, decide_true, Bool.and_self]
  · simp [hx]

theorem Readable.of_rows (hread : Readable contents s) : Readable contents s' := by
  have hmem : ∀ r ∈ s'.revisions.rows, r ∈ s.revisions.rows := by
    intro r hr
    rw [hrows] at hr
    exact mem_of_mem_filter hr
  refine ⟨fun r hr => ?_, fun r hr => ?_⟩
  · obtain ⟨n, c, hc, hreb, hn⟩ := hread.rebuilds r (hmem r hr)
    rw [ofChain_eq_of_rows hrows hr]
    refine ⟨n, c, hc, hreb.of_chain fun x hx hf hch => ?_, hn⟩
    rw [hrows, mem_filter] at hr ⊢
    exact ⟨hx, by rw [hf, hch]; exact hr.2⟩
  · rw [ofChain_eq_of_rows hrows hr]
    exact hread.short r (hmem r hr)

end Deletions

theorem Readable.of_revisions (h : s'.revisions = s.revisions) (hread : Readable contents s) : Readable contents s' :=
  hread.of_rows (d := fun _ _ => false) (by simp [h])

/-! ## Runs -/

/-- The content of a revision among those that were passed to `record_edit`: the new one of the file for its latest
revision, the one before for the other one. -/
def Passed (before : Option Bytes) (after : Bytes) (s : Storage C) (r : Revision C) (c : Bytes) : Prop :=
  s.latestRevision r.fileId = some r ∧ c = after ∨ s.latestRevision r.fileId ≠ some r ∧ before = some c

/-- The revision was created by an edit of the run, with the content that the edit was passed, and has been there
since. -/
def CreatedWith (calls : List Call) (r : Revision C) (c : Bytes) : Prop :=
  ∃ pre config path before after post, calls = pre ++ .recordEdit config path before after :: post ∧
    (∀ x ∈ (exec step (empty : Storage C) pre).revisions.rows, x.id ≠ r.id) ∧
    (∀ mid, mid <+: post → r ∈ (exec step empty (pre ++ .recordEdit config path before after :: mid)).revisions.rows) ∧
    Passed before after (exec step empty (pre ++ [.recordEdit config path before after])) r c

variable {calls : List Call}

/-- A call that leaves the revision there. -/
theorem CreatedWith.concat (h : CreatedWith calls r c) {call : Call}
    (hr : r ∈ (exec step (empty : Storage C) (calls ++ [call])).revisions.rows) : CreatedWith (calls ++ [call]) r c := by
  obtain ⟨pre, config, path, before, after, post, rfl, hnew, hsince, hcontent⟩ := h
  refine ⟨pre, config, path, before, after, post ++ [call], by simp, hnew, fun mid hmid => ?_, hcontent⟩
  rcases prefix_concat_iff.mp hmid with rfl | hmid
  · simpa using hr
  · exact hsince mid hmid

/-- An edit continues only a chain with fewer than 1000 rows. -/
def ShortChains (_ : List (Call × Answer)) (s : Storage C) : Call → Prop
  | .recordEdit config path _ _ => ChainBelow 1000 config s path
  | _ => True

/-- The revisions that an edit adds are read back as what it was passed. -/
theorem Readable.recordEdit (hs : s.Sound) (hread : Readable contents s) {config : FileHistory} {path : String}
    {before : Option Bytes} {after : Bytes} {res : Except StorageError Recorded}
    (hshort : ChainBelow 1000 config s path) (h : s.recordEdit config path before after = (res, s')) :
    Readable (fun x d => contents x d ∨ (∀ y ∈ s.revisions.rows, y.id ≠ x.id) ∧ Passed before after s' x d) s' := by
  have hread₁ := hread.of_revisions (upsertFile_spec s path).1
  have hrev := congrArg RowTable.rows (upsertFile_spec s path).1
  cases edited_of_recordEdit (by omega) hshort h with
  | disabled => exact hread.mono fun _ _ _ => .inl
  | kept _ prev => exact hread₁.mono fun _ _ _ => .inl
  | inserted r s₂ hadds =>
    have hchained := upsertFile_chained hs.chained path
    obtain ⟨hp, _⟩ := enforceBudgets_spec ⟨hadds.chained hchained, hadds.latest⟩ config _ rfl
    obtain ⟨drop, hrows⟩ := hp.rows
    have hlatest := (hp.latest (s.upsertFile path).1).trans hadds.latest
    cases hadds with
    | alone h =>
      refine ((hread₁.adds hchained (by omega) le_rfl h).of_rows hrows).mono fun x hx d hxd => hxd.imp_right ?_
      rintro ⟨rfl, rfl⟩
      exact ⟨fun y hy => (h.id_lt (hrev ▸ hy)).ne, .inl ⟨by rw [h.fileId_eq]; exact hlatest, rfl⟩⟩
    | @behind s₁ b r₀ hb h₀ h =>
      have hread₂ := (hread₁.adds hchained (by omega) le_rfl h₀).adds (h₀.chained hchained) (by omega) le_rfl h
      refine (hread₂.of_rows hrows).mono fun x hx d hxd => ?_
      rcases hxd with (hold | ⟨rfl, rfl⟩) | ⟨rfl, rfl⟩
      · exact .inl hold
      · have hlt := h.id_lt (h₀.mem_iff.mpr (.inr rfl))
        refine .inr ⟨fun y hy => (h₀.id_lt (hrev ▸ hy)).ne, .inr ⟨fun heq => ?_, hb⟩⟩
        rw [h₀.fileId_eq, hlatest] at heq
        exact hlt.ne (congrArg Revision.id (Option.some.inj heq)).symm
      · refine .inr ⟨fun y hy => (h.id_lt (h₀.mem_iff.mpr (.inl (hrev ▸ hy)))).ne, .inl ⟨?_, rfl⟩⟩
        rw [h.fileId_eq]
        exact hlatest

theorem Readable.step (hread : Readable (CreatedWith calls) (exec step (empty : Storage C) calls)) (call : Call)
    {tr : List (Call × Answer)} (hshort : ShortChains tr (exec step (empty : Storage C) calls) call) :
    Readable (CreatedWith (calls ++ [call])) (exec step (empty : Storage C) (calls ++ [call])) := by
  have hs : (exec Call.step (empty : Storage C) calls).Sound := sound_exec calls
  have hold : ∀ x ∈ (exec Call.step (empty : Storage C) (calls ++ [call])).revisions.rows, ∀ d, CreatedWith calls x d →
      CreatedWith (calls ++ [call]) x d := fun x hx d h => h.concat hx
  have hexec := exec_concat Call.step (empty : Storage C) calls call
  cases call with
  | recordEdit config path before after =>
    rcases hrec : (exec Call.step (empty : Storage C) calls).recordEdit config path before after with ⟨res, s'⟩
    obtain rfl : _ = s' := hexec.trans (by rw [Call.step, hrec])
    refine (hread.recordEdit hs hshort hrec).mono fun x hx d hd => hd.elim (hold x hx d) fun hnew => ?_
    refine ⟨calls, config, path, before, after, [], rfl, hnew.1, fun mid hmid => ?_, hnew.2⟩
    rw [prefix_nil.mp hmid]
    exact hx
  | renameFile old new =>
    refine Readable.mono ?_ hold
    rw [hexec]
    simp only [Call.step]
    split
    · exact hread.of_revisions (renameFile_spec ‹_›).1
    · exact hread
  | deleteFile path =>
    refine Readable.mono ?_ hold
    rw [hexec]
    refine hread.of_rows
      (d := fun f _ => ∃ g ∈ (exec Call.step (empty : Storage C) calls).files.rows, g.path = path ∧ g.id = f) ?_
    exact filter_congr fun r _ => decide_not

/-! ## A chain longer than `reconstruct` reads -/

/-- Beyond its limit the first loop stops at a delta. -/
theorem Rebuilds.collectChain_deep (id fuel : ℕ) (h : Rebuilds s n r c) (hpos : 0 < fuel) (hdeep : fuel < n)
    (chain : List (Revision C)) :
    ∃ x rest, s.collectChain id fuel r.id chain = .ok (x :: rest) ∧ x ∈ s.revisions.rows ∧ x.baseId ≠ none := by
  induction h generalizing fuel chain with
  | head => omega
  | step n b r c d hr hbase hf hc hp hh h ih =>
    have hfind := s.revisions.find_of_mem hr
    cases fuel with
    | zero => omega
    | succ fuel =>
      simp only [Storage.collectChain, hfind, hbase]
      cases fuel with
      | zero => exact ⟨r, chain, rfl, hr, by simp [hbase]⟩
      | succ fuel => exact ih (fuel + 1) (by omega) (by omega) (r :: chain)

@[irreducible] def toggleTail : Bytes := (range 254).map fun i => Fin.ofNat 256 (i + 2)

/-- Two contents of 255 bytes that are all different, which differ in the first of them. -/
def toggle (k : ℕ) : Bytes := ⟨k % 2, by omega⟩ :: toggleTail

def toggleConfig : FileHistory := ⟨true, 2000, 1, 0, 0⟩

/-- Edits of one file that switch between the two contents. -/
def toggleCall (k : ℕ) : Call := .recordEdit toggleConfig "a" none (toggle k)

def toggleCalls (k : ℕ) : List Call := (range k).map toggleCall

theorem toggleCalls_succ (k : ℕ) : toggleCalls (k + 1) = toggleCalls k ++ [toggleCall k] := by
  simp [toggleCalls, range_succ]

/-- After `k + 1` of these edits: one chain of `k + 1` rows that ends in `r`, and no delta of it is a snapshot. -/
structure Toggled (k : ℕ) (r : Revision frames) (s : Storage frames) : Prop where
  chained : s.Chained
  file : s.findFile "a" = some r.fileId
  latest : s.latestRevision r.fileId = some r
  rebuilds : Rebuilds s (k + 1) r (toggle k)
  length : (s.ofChain r.fileId r.chainId).length = k + 1
  deltas : ∀ x ∈ s.revisions.rows, x.baseId ≠ none → frames.decodeAll x.payload = none

theorem toggled_enforceBudgets {r : Revision frames} {s : Storage frames}
    (h : Toggled k r s) : Toggled k r (s.enforceBudgets toggleConfig r.fileId) := by
  obtain ⟨hp, _⟩ := enforceBudgets_spec ⟨h.chained, h.latest⟩ toggleConfig _ rfl
  have hlatest := (hp.latest r.fileId).trans h.latest
  have hr := (latestRevision_eq_some_iff.mp hlatest).1
  obtain ⟨drop, hrows⟩ := hp.rows
  refine ⟨hp.chained h.chained, ?_, hlatest, ?_, ?_, fun x hx => h.deltas x (hp.sublist.subset hx)⟩
  · rw [findFile, hp.files]
    exact h.file
  · exact h.rebuilds.of_chain fun x hx hf hc => hp.mem_of_chain hr hx hf hc
  · rw [ofChain_eq_of_rows hrows hr]
    exact h.length

theorem upsertFile_of_findFile {path : String} {id : ℕ} (h : s.findFile path = some id) :
    s.upsertFile path = (id, s) := by
  rw [findFile, Option.map_eq_some_iff] at h
  obtain ⟨f, hf, rfl⟩ := h
  unfold upsertFile
  split
  · rename_i f' hf'
    rw [hf] at hf'
    rw [Option.some.inj hf']
  · rename_i hnone
    rw [hf] at hnone
    cases hnone

theorem toggle_ne (k : ℕ) : toggle k ≠ toggle (k + 1) := by
  simp only [toggle, ne_eq, cons.injEq, Fin.mk.injEq, and_true]
  omega

theorem Rebuilds.contentHash_eq (h : Rebuilds s n r c) : r.contentHash = C.hash c := by
  cases h <;> assumption

/-- What is stored for one of the contents, with the other one as the dictionary. -/
def toggleDelta (k : ℕ) : Bytes := frames.encodeWithDictionary (toggle (k + 1)) (toggle k)

theorem toggleDelta_spec (k : ℕ) : (toggleDelta k).length = 18 ∧ frames.decodeAll (toggleDelta k) = none := by
  have hdelta (a b : Byte) (l : Bytes) : (frames.encodeWithDictionary (a :: l) (b :: l)).length = 18 ∧
      frames.decodeAll (frames.encodeWithDictionary (a :: l) (b :: l)) = none := by
    rw [show frames.encodeWithDictionary (a :: l) (b :: l) = _ from if_pos rfl]
    exact ⟨rfl, rfl⟩
  exact hdelta _ _ toggleTail

/-- The delta is smaller than the snapshot by more than a tenth, so that it is what is stored. -/
theorem insertSuccessor_toggle (s : Storage frames) (fileId : ℕ) (base : Revision frames) (k : ℕ) :
    s.insertSuccessor fileId base (toggle k) (toggle (k + 1)) =
      s.insertRow fileId (fun _ => (base.chainId, some base.id)) (toggle (k + 1)) (toggleDelta k) := by
  have hsnapshot : (frames.compress (toggle (k + 1))).length = 264 := by simp [frames, toggle, toggleTail]
  rw [insertSuccessor, ← toggleDelta, (toggleDelta_spec k).1, hsnapshot]
  exact if_neg (by decide)

theorem toggled_step {r : Revision frames} {s : Storage frames} (h : Toggled k r s) (hk : k < 1000) :
    ∃ r', Toggled (k + 1) r' ((toggleCall (k + 1)).step s).1 := by
  obtain ⟨f, hf, _, hid⟩ := findFile_eq_some_iff.mp h.file
  obtain ⟨⟨id, s₂⟩, hrow⟩ := insertRow_isOk ⟨f, hf, hid⟩ (fun _ => (r.chainId, some r.id))
    (toggle (k + 1)) (toggleDelta k)
  have hread := h.rebuilds.reconstruct (by omega)
  have hlen : s.currentChainLength r.fileId = k + 1 :=
    (currentChainLength_eq h.latest).trans h.length
  have hrec : s.recordRevision toggleConfig r.fileId none (toggle (k + 1)) = .ok (.inserted id, s₂) := by
    have hsame : r.contentHash ≠ frames.hash (toggle (k + 1)) :=
      h.rebuilds.contentHash_eq ▸ toggle_ne k
    have hanchor : ¬max toggleConfig.anchorInterval 1 ≤ k + 1 := by
      show ¬max 2000 1 ≤ k + 1
      omega
    simp only [recordRevision, h.latest, if_neg hsame, hlen, if_neg hanchor, hread, bind, Except.bind,
      insertSuccessor_toggle, hrow]
    rfl
  obtain ⟨hnext, hfiles, hrows⟩ := insertRow_eq_ok hrow
  have hadd : Adds 1001 r.fileId s s₂ (toggle (k + 1))
      ⟨id, r.fileId, r.chainId, some r.id, toggleDelta k, frames.hash (toggle (k + 1))⟩ :=
    .delta r _ (toggle k) h.latest (by rw [h.length]; omega) hread (by rw [hnext]; rfl) hfiles hrows
  have hstep : ((toggleCall (k + 1)).step s).1 = s₂.enforceBudgets toggleConfig r.fileId := by
    simp only [toggleCall, step, recordEdit, upsertFile_of_findFile h.file, hrec]
    rfl
  have htoggled : Toggled (k + 1)
      ⟨id, r.fileId, r.chainId, some r.id, toggleDelta k, frames.hash (toggle (k + 1))⟩ s₂ := by
    refine ⟨hadd.chained h.chained, ?_, hadd.latest, ?_, ?_, fun x hx => ?_⟩
    · rw [findFile, hfiles]
      exact h.file
    · refine .step (k + 1) r _ (toggle (k + 1)) (toggle k) (hadd.mem_iff.mpr (.inr rfl)) rfl rfl rfl rfl rfl ?_
      exact h.rebuilds.of_chain fun x hx _ _ => hadd.mem_iff.mpr (.inl hx)
    · rw [hadd.ofChain, length_append, h.length, if_pos ⟨rfl, rfl⟩, length_singleton]
    · rcases hadd.mem_iff.mp hx with hx | rfl
      · exact h.deltas x hx
      · exact fun _ => (toggleDelta_spec k).2
  exact ⟨_, hstep ▸ toggled_enforceBudgets htoggled⟩

theorem toggled_first : ∃ r, Toggled 0 r ((toggleCall 0).step empty).1 := by
  have hempty : (empty : Storage frames).Chained := (sound_exec []).chained
  obtain ⟨⟨id, s₂⟩, hrow⟩ := insertRow_isOk (s := ((empty : Storage frames).upsertFile "a").2)
    ⟨⟨1, "a"⟩, mem_singleton_self _, rfl⟩ (fun id => (id, none)) (toggle 0) (frames.compress (toggle 0))
  have hadd : Adds 1 1 (empty.upsertFile "a").2 s₂ (toggle 0)
      ⟨id, 1, id, none, frames.compress (toggle 0), frames.hash (toggle 0)⟩ := insertSnapshot_adds hrow
  have hstep : ((toggleCall 0).step empty).1 = s₂.enforceBudgets toggleConfig 1 := by
    rw [← (Prod.mk.inj (Except.ok.inj hrow)).2]
    rfl
  have htoggled : Toggled 0 ⟨id, 1, id, none, frames.compress (toggle 0), frames.hash (toggle 0)⟩ s₂ := by
    refine ⟨hadd.chained (upsertFile_chained hempty "a"), ?_, hadd.latest, ?_, ?_, fun x hx => ?_⟩
    · rw [findFile, hadd.files]
      exact (upsertFile_spec empty "a").2.1
    · exact .head _ _ (hadd.mem_iff.mpr (.inr rfl)) rfl rfl rfl
    · exact hadd.length_ofChain_first rfl
    · rcases hadd.mem_iff.mp hx with hx | rfl
      · cases hx
      · exact fun hbase => absurd rfl hbase
  exact ⟨_, hstep ▸ toggled_enforceBudgets htoggled⟩

theorem toggled_exec (hk : k ≤ 1000) : ∃ r, Toggled k r (exec step empty (toggleCalls (k + 1))) := by
  induction k with
  | zero => exact toggled_first
  | succ k ih =>
    obtain ⟨r, hr⟩ := ih (by omega)
    obtain ⟨r', hr'⟩ := toggled_step hr (by omega)
    refine ⟨r', ?_⟩
    rw [toggleCalls_succ, exec_concat]
    exact hr'

/-- In such a chain of more than 1000 rows, the last revision does not read back. -/
theorem Toggled.not_reconstruct {r : Revision frames} {s : Storage frames} (h : Toggled k r s) (hk : 1000 ≤ k) :
    s.reconstruct r.id = .error .decodeSnapshot := by
  obtain ⟨x, rest, hcollect, hx, hbase⟩ := h.rebuilds.collectChain_deep r.id 1000 (by omega) (by omega) []
  have hhead : decodeHead x = .error .decodeSnapshot := by simp only [decodeHead, h.deltas x hx hbase]
  simp only [reconstruct, hcollect, bind, Except.bind, decodeChain, hhead]

theorem toggled_steps (hk : k ≤ 999) :
    Steps step ShortChains (empty : Storage frames) (toggleCalls (k + 1)) := by
  induction k with
  | zero =>
    refine steps_cons.mpr ⟨fun _ => ?_, steps_nil⟩
    show 0 < 1000
    omega
  | succ k ih =>
    obtain ⟨r, hr⟩ := toggled_exec (show k ≤ 1000 by omega)
    rw [toggleCalls_succ, steps_concat]
    refine ⟨ih (by omega), fun _ => ?_⟩
    rw [upsertFile_of_findFile hr.file, currentChainLength_eq hr.latest, hr.length]
    omega

/-! ## Every revision reads back -/

/-- **File history gives back exactly what was recorded**, in every run whose edits continue only chains that
`reconstruct` can read: every revision reads back as the content that was passed to the call that created it. -/
theorem revisions_reconstruct {calls : List Call} (h : Steps step ShortChains (empty : Storage C) calls)
    {r : Revision C} (hr : r ∈ (exec step (empty : Storage C) calls).revisions.rows) :
    ∃ c, CreatedWith calls r c ∧ (exec step (empty : Storage C) calls).reconstruct r.id = .ok c := by
  suffices hread : Readable (CreatedWith calls) (exec step (empty : Storage C) calls) from hread.reconstruct hr
  clear hr
  induction calls using reverseRecOn with
  | nil => exact ⟨nofun, nofun⟩
  | append_singleton calls call ih =>
    obtain ⟨hcalls, hshort⟩ := steps_concat.mp h
    exact (ih hcalls).step call hshort

/-- A thousand edits of one file in one chain. -/
theorem revisions_reconstruct_thousand :
    ∃ r ∈ (exec step (empty : Storage frames) (toggleCalls 1000)).revisions.rows,
      ∃ c, CreatedWith (toggleCalls 1000) r c ∧
        (exec step (empty : Storage frames) (toggleCalls 1000)).reconstruct r.id = .ok c := by
  have hsteps : Steps step ShortChains (empty : Storage frames) (toggleCalls 1000) :=
    toggled_steps le_rfl
  obtain ⟨r, hr⟩ : ∃ r, Toggled 999 r (exec step empty (toggleCalls 1000)) :=
    toggled_exec (by omega)
  exact ⟨r, hr.rebuilds.mem, revisions_reconstruct hsteps hr.rebuilds.mem⟩

/-- **The 1001st revision of a chain cannot be read**: the anchor interval lets the chain grow, and
`reconstruct` stops at a delta. -/
theorem revision_lost_beyond_limit :
    ∃ r ∈ (exec step (empty : Storage frames) (toggleCalls (1000 + 1))).revisions.rows,
      (exec step (empty : Storage frames) (toggleCalls (1000 + 1))).latestRevision r.fileId = some r ∧
      (exec step (empty : Storage frames) (toggleCalls (1000 + 1))).reconstruct r.id = .error .decodeSnapshot := by
  obtain ⟨r, hr⟩ := toggled_exec (le_refl 1000)
  exact ⟨r, hr.rebuilds.mem, hr.latest, hr.not_reconstruct le_rfl⟩

end Storage

end Wings.Diff
