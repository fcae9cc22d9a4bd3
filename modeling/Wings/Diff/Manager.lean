import Wings.Diff.Chains
import Wings.Lib.Run

/-!
# Wings.Diff.Manager — recording an edit within the history budgets

`record_edit` of `diff/manager.rs`: the new content becomes a snapshot or a delta on the latest
revision, then old chains of the file and of the server are dropped until the budgets are met.

* `recordEdit` — the body of the blocking task, with its two loops by fuel.
* `Call.step` — calls one after another.
* **`recordEdit_within_budgets`**
-/

namespace Wings.Diff

open Lib List RowTable

variable {C : Codec}

structure FileHistory where
  enabled : Bool
  anchorInterval : ℕ
  keepChains : ℕ
  perFileDiskBudget : ℕ
  perServerDiskBudget : ℕ

/-- The id that a successful `record_edit` returned, of an old revision or of a new one. -/
inductive Recorded where
  | unchanged (id : ℕ)
  | inserted (id : ℕ)
  deriving DecidableEq

namespace Storage

def reportInsert (res : ℕ × Storage C) : Recorded × Storage C := (.inserted res.1, res.2)

def recordRevision (config : FileHistory) (s : Storage C) (fileId : ℕ) (before : Option Bytes)
    (after : Bytes) : Except StorageError (Recorded × Storage C) :=
  match s.latestRevision fileId with
  | none =>
    match before with
    | none => reportInsert <$> s.insertSnapshot fileId after
    | some before =>
      if before ≠ after then do
        let (baseline, s) ← s.insertSnapshot fileId before
        reportInsert <$> s.insertDelta fileId baseline baseline before after
      else reportInsert <$> s.insertSnapshot fileId after
  | some prev =>
    if prev.contentHash = C.hash after then pure (.unchanged prev.id, s)
    else if max config.anchorInterval 1 ≤ s.currentChainLength fileId then
      reportInsert <$> s.insertSnapshot fileId after
    else do
      let prevContent ← s.reconstruct prev.id
      reportInsert <$> s.insertSuccessor fileId prev prevContent after

/-- `while over { freed = drop(); if freed == 0 { break } }`. -/
def dropLoop (exceeds : Storage C → Bool) (drop : Storage C → ℕ × Storage C) :
    (fuel : ℕ) → Storage C → Storage C
  | 0, s => s
  | fuel + 1, s =>
    if exceeds s then
      if (drop s).1 = 0 then (drop s).2 else dropLoop exceeds drop fuel (drop s).2
    else s

/-- The second loop of `record_edit`, which counts the total down instead of asking again. -/
def serverLoop (budget : ℕ) (protect : Option (ℕ × ℕ)) :
    (fuel total : ℕ) → Storage C → Storage C
  | 0, _, s => s
  | fuel + 1, total, s =>
    if budget < total then
      let (freed, s) := s.dropGloballyOldestChain protect
      if freed = 0 then s else serverLoop budget protect fuel (total - freed) s
    else s

/-- `record_edit` after the insertion.  Each turn of a loop that goes on deletes a row, so the number
of rows bounds the turns. -/
def enforceBudgets (config : FileHistory) (s : Storage C) (fileId : ℕ) : Storage C :=
  let protectedChain := s.latestChainId fileId
  let s := s.pruneOldChains fileId (max config.keepChains 1)
  let s := dropLoop (fun s => config.perFileDiskBudget < s.filePayloadBytes fileId)
    (fun s => s.dropOldestChain fileId protectedChain 1) (s.revisions.rows.length + 1) s
  serverLoop config.perServerDiskBudget (protectedChain.map fun cid => (fileId, cid))
    (s.revisions.rows.length + 1) s.totalPayloadBytes s

def recordEdit (config : FileHistory) (s : Storage C) (path : String) (before : Option Bytes)
    (after : Bytes) : Except StorageError Recorded × Storage C :=
  if config.enabled then
    let (fileId, s) := s.upsertFile path
    match s.recordRevision config fileId before after with
    | .error e => (.error e, s)
    | .ok (.unchanged id, s) => (.ok (.unchanged id), s)
    | .ok (.inserted id, s) => (.ok (.inserted id), s.enforceBudgets config fileId)
  else (.ok (.unchanged 0), s)

end Storage

/-! ## Calls -/

inductive Call where
  | recordEdit (config : FileHistory) (path : String) (before : Option Bytes) (after : Bytes)
  | renameFile (old new : String)
  | deleteFile (path : String)

inductive Answer where
  | recordEdit (res : Except StorageError Recorded)
  | renameFile (res : Except StorageError Unit)
  | deleteFile

def Call.step (s : Storage C) : Call → Storage C × Answer
  | .recordEdit config path before after =>
    let (res, s) := s.recordEdit config path before after
    (s, .recordEdit res)
  | .renameFile old new =>
    match s.renameFile old new with
    | .ok s => (s, .renameFile (.ok ()))
    | .error e => (s, .renameFile (.error e))
  | .deleteFile path => (s.deleteFile path, .deleteFile)

/-! ## What an edit adds -/

namespace Storage

variable {s s' : Storage C} {fileId n : ℕ} {r : Revision C} {before : Option Bytes}

/-- One revision with the content `c` is added to the file: a snapshot, or a delta on the latest revision, whose
chain is still shorter than `n`. -/
inductive Adds (n fileId : ℕ) (s s' : Storage C) (c : Bytes) : Revision C → Prop
  | snapshot (r : Revision C)
      (hr : r = ⟨s.revisions.nextKey, fileId, s.revisions.nextKey, none, C.compress c, C.hash c⟩)
      (hfiles : s'.files = s.files) (hrows : s'.revisions.rows = s.revisions.rows ++ [r]) :
      Adds n fileId s s' c r
  | delta (base r : Revision C) (d : Bytes) (hlatest : s.latestRevision fileId = some base)
      (hlen : (s.ofChain fileId base.chainId).length < n) (hd : s.reconstruct base.id = .ok d)
      (hr : r = ⟨s.revisions.nextKey, fileId, base.chainId, some base.id, C.encodeWithDictionary c d, C.hash c⟩)
      (hfiles : s'.files = s.files) (hrows : s'.revisions.rows = s.revisions.rows ++ [r]) :
      Adds n fileId s s' c r

/-- The revision `r` with the content `after` is added to the file, alone or after a baseline with the content
`before`. -/
inductive Inserts (n fileId : ℕ) (before : Option Bytes) (after : Bytes) (s s' : Storage C) (r : Revision C) : Prop
  | alone (h : Adds n fileId s s' after r)
  | behind {s₁ : Storage C} {b : Bytes} {r₀ : Revision C} (hb : before = some b) (h₀ : Adds n fileId s s₁ b r₀)
      (h : Adds n fileId s₁ s' after r)

variable {c : Bytes} {base : Revision C}

theorem insertSnapshot_adds {id : ℕ} (h : s.insertSnapshot fileId c = .ok (id, s')) :
    Adds n fileId s s' c ⟨id, fileId, id, none, C.compress c, C.hash c⟩ := by
  rw [insertSnapshot] at h
  obtain ⟨rfl, hfiles, hrows⟩ := insertRow_eq_ok h
  exact .snapshot _ rfl hfiles hrows

theorem insertDelta_adds {id : ℕ} {d : Bytes} (hlatest : s.latestRevision fileId = some base)
    (hlen : (s.ofChain fileId base.chainId).length < n) (hd : s.reconstruct base.id = .ok d)
    (h : s.insertDelta fileId base.id base.chainId d c = .ok (id, s')) :
    ∃ r, r.id = id ∧ Adds n fileId s s' c r := by
  rw [insertDelta] at h
  obtain ⟨rfl, hfiles, hrows⟩ := insertRow_eq_ok h
  exact ⟨_, rfl, .delta base _ d hlatest hlen hd rfl hfiles hrows⟩

theorem insertSuccessor_adds {id : ℕ} {d : Bytes} (hlatest : s.latestRevision fileId = some base)
    (hlen : (s.ofChain fileId base.chainId).length < n) (hd : s.reconstruct base.id = .ok d)
    (h : s.insertSuccessor fileId base d c = .ok (id, s')) :
    ∃ r, r.id = id ∧ Adds n fileId s s' c r := by
  simp only [insertSuccessor] at h
  split_ifs at h
  · exact ⟨_, rfl, insertSnapshot_adds h⟩
  · exact insertDelta_adds hlatest hlen hd h

section Adds

variable {n : ℕ} {c : Bytes} {r : Revision C} (h : Adds n fileId s s' c r)

include h

theorem Adds.files : s'.files = s.files := by cases h <;> assumption

theorem Adds.rows : s'.revisions.rows = s.revisions.rows ++ [r] := by cases h <;> assumption

theorem Adds.id_eq : r.id = s.revisions.nextKey := by cases h <;> simp_all

theorem Adds.fileId_eq : r.fileId = fileId := by cases h <;> simp_all

theorem Adds.contentHash_eq : r.contentHash = C.hash c := by cases h <;> simp_all

theorem Adds.mem_iff {x : Revision C} : x ∈ s'.revisions.rows ↔ x ∈ s.revisions.rows ∨ x = r := by
  simp [h.rows]

theorem Adds.id_lt {x : Revision C} (hx : x ∈ s.revisions.rows) : x.id < r.id :=
  h.id_eq ▸ key_lt_nextKey hx

theorem Adds.latest : s'.latestRevision fileId = some r := by
  refine latestRevision_eq_some_iff.mpr ⟨h.mem_iff.mpr (.inr rfl), h.fileId_eq, fun x hx _ => ?_⟩
  rcases h.mem_iff.mp hx with hx | rfl
  · exact (h.id_lt hx).le
  · exact le_rfl

theorem Adds.latest_of_ne {f : ℕ} (hf : f ≠ fileId) : s'.latestRevision f = s.latestRevision f := by
  have hne : r.fileId ≠ f := fun hr => hf (hr.symm.trans h.fileId_eq)
  simp [latestRevision, newest, h.rows, filter_append, hne]

theorem Adds.chained (hs : s.Chained) : s'.Chained := by
  have hhead : ∀ x ∈ s.revisions.rows, x.chainId < s.revisions.nextKey := by
    intro x hx
    obtain ⟨y, hy, _, _, hid, _⟩ := hs.head x hx
    exact hid ▸ key_lt_nextKey hy
  -- the chain of the new row is not before the chain of any row of its file
  have hlast : ∀ x ∈ s.revisions.rows, x.fileId = fileId → x.chainId ≤ r.chainId := by
    intro x hx hf
    cases h with
    | snapshot _ hr => exact hr ▸ (hhead x hx).le
    | delta base _ d hlatest _ _ hr =>
      have hle := hs.chainId_le_latest hlatest hx hf
      rwa [hr]
  refine ⟨fun x hx => ?_, fun x hx y hy hxy hle => ?_, fun x hx => ?_⟩
  · rcases h.mem_iff.mp hx with hx' | rfl
    · obtain ⟨y, hy, hrest⟩ := hs.head x hx'
      exact ⟨y, h.mem_iff.mpr (.inl hy), hrest⟩
    · cases h with
      | snapshot _ hr => exact ⟨x, hx, by simp [hr]⟩
      | delta base _ d hlatest _ _ hr _ hrows =>
        obtain ⟨hb, hf, _⟩ := latestRevision_eq_some_iff.mp hlatest
        obtain ⟨y, hy, hyf, hyc, hyid, hyb⟩ := hs.head base hb
        exact ⟨y, by simp [hrows, hy], by simp [hr, hyf, hf], by simp [hr, hyc], by simp [hr, hyid], hyb⟩
  · rcases h.mem_iff.mp hx with hx' | rfl <;> rcases h.mem_iff.mp hy with hy' | rfl
    · exact hs.mono x hx' y hy' hxy hle
    · exact hlast x hx' (hxy.trans h.fileId_eq)
    · exact absurd (h.id_lt hy') (by omega)
    · exact le_rfl
  · rcases h.mem_iff.mp hx with hx' | rfl
    · exact hs.payload x hx'
    · cases h with
      | snapshot _ hr => exact hr ▸ C.compress_ne_nil c
      | delta base _ d _ _ _ hr => exact hr ▸ C.encode_ne_nil c d

end Adds

theorem reconstruct_snapshot (hr : r ∈ s.revisions.rows)
    (hbase : r.baseId = none) (hp : r.payload = C.compress c) (hh : r.contentHash = C.hash c) :
    s.reconstruct r.id = .ok c := by
  have hfind := s.revisions.find_of_mem hr
  simp [reconstruct, collectChain, hfind, hbase, decodeChain, decodeHead, hp, hh,
    C.decodeAll_compress, bind, Except.bind, pure, Except.pure]

theorem reportInsert_eq_ok {x : Except StorageError (ℕ × Storage C)} {rec : Recorded}
    (h : reportInsert <$> x = .ok (rec, s')) : ∃ id, x = .ok (id, s') ∧ rec = .inserted id := by
  cases x with
  | error e => cases h
  | ok res =>
    obtain ⟨rfl, rfl⟩ := Prod.mk.inj (Except.ok.inj h)
    exact ⟨res.1, rfl, rfl⟩

theorem currentChainLength_eq (h : s.latestRevision fileId = some base) :
    s.currentChainLength fileId = (s.ofChain fileId base.chainId).length := by
  simp [currentChainLength, latestChainId, h]

theorem Adds.length_ofChain_first (h : Adds n fileId s s' c r)
    (hnone : s.latestRevision fileId = none) : (s'.ofChain fileId r.chainId).length = 1 := by
  have hno : ∀ x ∈ s.revisions.rows, x.fileId ≠ fileId := by
    simpa using newest_eq_none_iff.mp hnone
  have hnil : s.ofChain fileId r.chainId = [] :=
    filter_eq_nil_iff.mpr fun x hx => by simp [hno x hx]
  have hall : s'.ofChain fileId r.chainId = s.ofChain fileId r.chainId ++ [r] := by
    simp [ofChain, h.rows, filter_append, h.fileId_eq]
  rw [hall, hnil, nil_append, length_singleton]

variable {config : FileHistory} {after : Bytes} {path : String} {res : Except StorageError Recorded}

/-- **What `record_edit` does to the revisions**: nothing, or it inserts one revision with the new
content, after a baseline when the file has no history and its content is known. -/
theorem recordRevision_spec {rec : Recorded} (hn : 2 ≤ n)
    (hlen : s.currentChainLength fileId < max config.anchorInterval 1 → s.currentChainLength fileId < n)
    (h : s.recordRevision config fileId before after = .ok (rec, s')) :
    (∃ id, rec = .unchanged id ∧ s' = s) ∨ ∃ r, rec = .inserted r.id ∧ Inserts n fileId before after s s' r := by
  have halone : ∀ {x : Except StorageError (ℕ × Storage C)}, reportInsert <$> x = .ok (rec, s') →
      (∀ id, x = .ok (id, s') → ∃ r, r.id = id ∧ Adds n fileId s s' after r) →
      ∃ r, rec = .inserted r.id ∧ Inserts n fileId before after s s' r := by
    intro x hx hadds
    obtain ⟨id, hok, rfl⟩ := reportInsert_eq_ok hx
    obtain ⟨r, rfl, hadd⟩ := hadds id hok
    exact ⟨r, rfl, .alone hadd⟩
  simp only [recordRevision] at h
  cases hlatest : s.latestRevision fileId with
  | none =>
    simp only [hlatest] at h
    refine .inr ?_
    cases before with
    | none => exact halone h fun id hx => ⟨_, rfl, insertSnapshot_adds hx⟩
    | some before =>
      dsimp only at h
      split_ifs at h with hne
      · cases hb : s.insertSnapshot fileId before with
        | error e => rw [hb] at h; cases h
        | ok res =>
          obtain ⟨baseline, s₁⟩ := res
          rw [hb] at h
          have hadd := insertSnapshot_adds (n := n) hb
          obtain ⟨id, hd, rfl⟩ := reportInsert_eq_ok h
          obtain ⟨r, rfl, hdelta⟩ := insertDelta_adds (n := n) hadd.latest
            (by have := hadd.length_ofChain_first hlatest; omega)
            (reconstruct_snapshot (hadd.mem_iff.mpr (.inr rfl)) rfl rfl rfl) hd
          exact ⟨r, rfl, .behind rfl hadd hdelta⟩
      · exact halone h fun id hx => ⟨_, rfl, insertSnapshot_adds hx⟩
  | some prev =>
    simp only [hlatest] at h
    split_ifs at h with hsame hanchor
    · obtain ⟨rfl, rfl⟩ := Prod.mk.inj (Except.ok.inj h)
      exact .inl ⟨prev.id, rfl, rfl⟩
    · exact .inr (halone h fun id hx => ⟨_, rfl, insertSnapshot_adds hx⟩)
    · cases hp : s.reconstruct prev.id with
      | error e => rw [hp] at h; cases h
      | ok prevContent =>
        rw [hp] at h
        refine .inr (halone h fun id hx => insertSuccessor_adds hlatest ?_ hp hx)
        rw [← currentChainLength_eq hlatest]
        exact hlen (not_le.mp hanchor)

theorem recordRevision_first (config : FileHistory) (before : Option Bytes) (after : Bytes)
    (hfile : ∃ f ∈ s.files.rows, f.id = fileId) (hnone : s.latestRevision fileId = none) :
    ∃ id s', s.recordRevision config fileId before after = .ok (.inserted id, s') := by
  have hsnapshot : ∃ id s', reportInsert <$> s.insertSnapshot fileId after = .ok (Recorded.inserted id, s') := by
    obtain ⟨res, hres⟩ := insertRow_isOk hfile (fun id => (id, none)) after (C.compress after)
    refine ⟨res.1, res.2, ?_⟩
    rw [insertSnapshot, insertSnapshotPayload, hres]
    rfl
  simp only [recordRevision, hnone]
  cases before with
  | none => exact hsnapshot
  | some before =>
    dsimp only
    split_ifs with hne
    · obtain ⟨⟨baseline, s₁⟩, hb⟩ := insertRow_isOk hfile (fun id => (id, none)) before (C.compress before)
      have hfile₁ : ∃ f ∈ s₁.files.rows, f.id = fileId := (insertRow_eq_ok hb).2.1 ▸ hfile
      obtain ⟨res, hd⟩ := insertRow_isOk hfile₁ (fun _ => (baseline, some baseline)) after
        (C.encodeWithDictionary after before)
      refine ⟨res.1, res.2, ?_⟩
      rw [insertSnapshot, insertSnapshotPayload, hb]
      simp only [bind, Except.bind, insertDelta, insertDeltaPayload, hd]
      rfl
    · exact hsnapshot

/-! ## The budget loops -/

/-- **A budget loop ends** within the budget or where its step frees nothing. -/
theorem dropLoop_spec (exceeds : Storage C → Bool) (drop : Storage C → ℕ × Storage C)
    (I : Storage C → Prop) (hdrop : ∀ s, I s → DropStep s (drop s))
    (hI : ∀ s s', I s → Pruned s s' → I s') {fuel : ℕ} (hs : I s) (hfuel : s.revisions.rows.length < fuel) :
    Pruned s (dropLoop exceeds drop fuel s) ∧
      (exceeds (dropLoop exceeds drop fuel s) = false ∨ (drop (dropLoop exceeds drop fuel s)).1 = 0) := by
  induction fuel generalizing s with
  | zero => omega
  | succ fuel ih =>
    have hstep := hdrop s hs
    simp only [dropLoop]
    split_ifs with hover hfreed
    · rw [hstep.stuck hfreed]
      exact ⟨Pruned.refl s, .inr hfreed⟩
    · have hlt := hstep.shrinks hfreed
      obtain ⟨hpruned, hend⟩ := ih (hI s _ hs hstep.pruned) (by omega)
      exact ⟨hstep.pruned.trans hpruned, hend⟩
    · exact ⟨Pruned.refl s, .inl (by simpa using hover)⟩

/-- The running total of the second loop is the total of the table. -/
theorem serverLoop_eq_dropLoop {budget : ℕ} {protect : Option (ℕ × ℕ)} (I : Storage C → Prop)
    (hdrop : ∀ s, I s → DropStep s (s.dropGloballyOldestChain protect))
    (hI : ∀ s s', I s → Pruned s s' → I s') {fuel : ℕ} (hs : I s) :
    serverLoop budget protect fuel s.totalPayloadBytes s =
      dropLoop (fun s => budget < s.totalPayloadBytes) (fun s => s.dropGloballyOldestChain protect)
        fuel s := by
  induction fuel generalizing s with
  | zero => rfl
  | succ fuel ih =>
    have hstep := hdrop s hs
    have htotal : s.totalPayloadBytes - (s.dropGloballyOldestChain protect).1 =
        (s.dropGloballyOldestChain protect).2.totalPayloadBytes := by
      have := hstep.total
      omega
    simp only [serverLoop, dropLoop, htotal, ih (hI s _ hs hstep.pruned), decide_eq_true_eq]

/-- The chains are in order and `r` is the latest revision of the file. -/
def LatestIs (fileId : ℕ) (r : Revision C) (s : Storage C) : Prop :=
  s.Chained ∧ s.latestRevision fileId = some r

theorem LatestIs.latestChainId (h : LatestIs fileId r s) : s.latestChainId fileId = some r.chainId :=
  congrArg (Option.map Revision.chainId) h.2

theorem LatestIs.pruned (s s' : Storage C) (h : LatestIs fileId r s) (hp : Pruned s s') : LatestIs fileId r s' :=
  ⟨hp.chained h.1, (hp.latest fileId).trans h.2⟩

section

variable (hs : LatestIs fileId r s)
include hs

theorem fileLoop_spec (budget : ℕ) :
    ∀ s', s' = dropLoop (fun s => budget < s.filePayloadBytes fileId)
        (fun s => s.dropOldestChain fileId (some r.chainId) 1) (s.revisions.rows.length + 1) s →
      Pruned s s' ∧ (s'.filePayloadBytes fileId ≤ budget ∨ s'.chainCount fileId ≤ 1) := by
  rintro s' rfl
  obtain ⟨hp, hend⟩ := dropLoop_spec (fun s => budget < s.filePayloadBytes fileId)
    (fun s => s.dropOldestChain fileId (some r.chainId) 1) (LatestIs fileId r)
    (fun s h => h.latestChainId ▸ (dropOldestChain_spec h.1).1) LatestIs.pruned hs (Nat.lt_succ_self _)
  refine ⟨hp, hend.imp (fun h => by simpa using h) fun hfreed => ?_⟩
  have hs' := hs.pruned _ _ hp
  exact (dropOldestChain_spec hs'.1).2 (by rw [hs'.latestChainId]; exact hfreed)

theorem serverLoop_spec (budget : ℕ) :
    ∀ s', s' = serverLoop budget (some (fileId, r.chainId)) (s.revisions.rows.length + 1)
        s.totalPayloadBytes s →
      Pruned s s' ∧ (s'.totalPayloadBytes ≤ budget ∨
        ∀ a ∈ s'.revisions.rows, ∀ b ∈ s'.revisions.rows, a.fileId = b.fileId → a.chainId = b.chainId) := by
  have hdrop : ∀ s, LatestIs fileId r s →
      DropStep s (s.dropGloballyOldestChain (some (fileId, r.chainId))) :=
    fun s h => (dropGloballyOldestChain_spec h.1 h.2).1
  rintro s' rfl
  rw [serverLoop_eq_dropLoop (LatestIs fileId r) hdrop LatestIs.pruned hs]
  obtain ⟨hp, hend⟩ := dropLoop_spec (fun s => budget < s.totalPayloadBytes)
    (fun s => s.dropGloballyOldestChain (some (fileId, r.chainId))) (LatestIs fileId r) hdrop
    LatestIs.pruned hs (Nat.lt_succ_self _)
  refine ⟨hp, hend.imp (fun h => by simpa using h) fun hfreed => ?_⟩
  have hs' := hs.pruned _ _ hp
  exact (dropGloballyOldestChain_spec hs'.1 hs'.2).2 hfreed

/-- **The budgets are enforced**, and no file loses its latest revision. -/
theorem enforceBudgets_spec (config : FileHistory) :
    ∀ s', s' = s.enforceBudgets config fileId →
      Pruned s s' ∧ s'.chainCount fileId ≤ max config.keepChains 1 ∧
      (s'.filePayloadBytes fileId ≤ config.perFileDiskBudget ∨ s'.chainCount fileId ≤ 1) ∧
      (s'.totalPayloadBytes ≤ config.perServerDiskBudget ∨
        ∀ a ∈ s'.revisions.rows, ∀ b ∈ s'.revisions.rows, a.fileId = b.fileId → a.chainId = b.chainId) := by
  rintro s' rfl
  simp only [enforceBudgets, hs.latestChainId, Option.map_some]
  obtain ⟨hp₁, hcount⟩ := pruneOldChains_spec fileId hs.1 (show max config.keepChains 1 ≠ 0 by omega)
  have hs₁ := hs.pruned _ _ hp₁
  obtain ⟨hp₂, hfile⟩ := fileLoop_spec hs₁ config.perFileDiskBudget _ rfl
  have hs₂ := hs₁.pruned _ _ hp₂
  obtain ⟨hp₃, htotal⟩ := serverLoop_spec hs₂ config.perServerDiskBudget _ rfl
  refine ⟨hp₁.trans (hp₂.trans hp₃), ?_, hfile.imp ?_ ?_, htotal⟩
  · exact ((hp₂.trans hp₃).chainCount_le fileId).trans hcount
  · exact (hp₃.filePayloadBytes_le fileId).trans
  · exact (hp₃.chainCount_le fileId).trans

end

/-! ## Whole calls -/

section

variable {after : Bytes} (h : Inserts n fileId before after s s' r)
include h

/-- What every added revision preserves. -/
theorem Inserts.keeps {P : Storage C → Prop} (hadd : ∀ {t t' c x}, Adds n fileId t t' c x → P t → P t')
    (hs : P s) : P s' := by
  cases h with
  | alone h => exact hadd h hs
  | behind _ h₀ h => exact hadd h (hadd h₀ hs)

theorem Inserts.files : s'.files = s.files :=
  h.keeps (P := fun t => t.files = s.files) (fun hadd => hadd.files.trans) rfl

theorem Inserts.chained (hs : s.Chained) : s'.Chained := h.keeps Adds.chained hs

theorem Inserts.latest_of_ne {f : ℕ} (hf : f ≠ fileId) : s'.latestRevision f = s.latestRevision f :=
  h.keeps (P := fun t => t.latestRevision f = s.latestRevision f) (fun hadd => (hadd.latest_of_ne hf).trans) rfl

theorem Inserts.latest : s'.latestRevision fileId = some r := by
  cases h with
  | alone h => exact h.latest
  | behind _ _ h => exact h.latest

theorem Inserts.contentHash_eq : r.contentHash = C.hash after := by
  cases h with
  | alone h => exact h.contentHash_eq
  | behind _ _ h => exact h.contentHash_eq

end

/-- What a call of `record_edit` comes to: nothing, a file row for a file that has revisions, or
insertions followed by the deletions. -/
inductive Edited (n : ℕ) (config : FileHistory) (path : String) (before : Option Bytes) (after : Bytes) (s : Storage C) :
    Except StorageError Recorded → Storage C → Prop
  | disabled : Edited n config path before after s (.ok (.unchanged 0)) s
  | kept (res : Except StorageError Recorded) (prev : Revision C) (hres : ∀ id, res ≠ .ok (.inserted id))
      (hprev : (s.upsertFile path).2.latestRevision (s.upsertFile path).1 = some prev) :
      Edited n config path before after s res (s.upsertFile path).2
  | inserted (r : Revision C) (s₂ : Storage C)
      (hadds : Inserts n (s.upsertFile path).1 before after (s.upsertFile path).2 s₂ r) :
      Edited n config path before after s (.ok (.inserted r.id)) (s₂.enforceBudgets config (s.upsertFile path).1)

/-- The chains an edit continues are shorter than `n`. -/
def ChainBelow (n : ℕ) (config : FileHistory) (s : Storage C) (path : String) : Prop :=
  (s.upsertFile path).2.currentChainLength (s.upsertFile path).1 < max config.anchorInterval 1 →
    (s.upsertFile path).2.currentChainLength (s.upsertFile path).1 < n

theorem edited_of_recordEdit (hn : 2 ≤ n) (hlen : ChainBelow n config s path)
    (h : s.recordEdit config path before after = (res, s')) : Edited n config path before after s res s' := by
  obtain ⟨rfl, rfl⟩ : (s.recordEdit config path before after).1 = res ∧
      (s.recordEdit config path before after).2 = s' := by rw [h]; exact ⟨rfl, rfl⟩
  simp only [recordEdit]
  split_ifs with henabled
  · obtain ⟨_, hfind, _⟩ := upsertFile_spec s path
    obtain ⟨f, hf, _, hid⟩ := findFile_eq_some_iff.mp hfind
    -- without a revision the insertion succeeds
    have hprev : (∀ id s', (s.upsertFile path).2.recordRevision config (s.upsertFile path).1
        before after ≠ .ok (.inserted id, s')) →
        ∃ prev, (s.upsertFile path).2.latestRevision (s.upsertFile path).1 = some prev := by
      intro hno
      rw [← Option.ne_none_iff_exists']
      intro hnone
      obtain ⟨id, s', h⟩ := recordRevision_first config before after ⟨f, hf, hid⟩ hnone
      exact hno id s' h
    cases hrec : (s.upsertFile path).2.recordRevision config (s.upsertFile path).1 before after with
    | error e =>
      obtain ⟨prev, hprev⟩ := hprev fun _ _ h => by rw [hrec] at h; cases h
      exact .kept _ prev nofun hprev
    | ok res =>
      obtain ⟨rec, s₂⟩ := res
      rcases recordRevision_spec hn hlen hrec with ⟨id, rfl, rfl⟩ | ⟨r, rfl, hadds⟩
      · obtain ⟨prev, hprev⟩ := hprev fun _ _ h => by rw [hrec] at h; cases h
        exact .kept _ prev nofun hprev
      · exact .inserted r s₂ hadds
  · exact .disabled

theorem edited_below_anchor (h : s.recordEdit config path before after = (res, s')) :
    Edited (max config.anchorInterval 2) config path before after s res s' :=
  edited_of_recordEdit (le_max_right _ _) (fun hlt => by omega) h

/-! ## Runs -/

structure Sound (s : Storage C) : Prop where
  chained : s.Chained
  populated : s.Populated

theorem chained_of_revisions (h : s'.revisions = s.revisions) (hs : s.Chained) : s'.Chained := by
  obtain ⟨hhead, hmono, hpayload⟩ := hs
  rw [← h] at hhead hmono hpayload
  exact ⟨hhead, hmono, hpayload⟩

theorem upsertFile_chained (hs : s.Chained) (path : String) : (s.upsertFile path).2.Chained :=
  chained_of_revisions (upsertFile_spec s path).1 hs

theorem latestRevision_upsertFile (s : Storage C) (path : String) (f : ℕ) :
    (s.upsertFile path).2.latestRevision f = s.latestRevision f := by
  rw [latestRevision, (upsertFile_spec s path).1, latestRevision]

/-- A file of a store before a call has a revision as long as its latest revision is there. -/
theorem populated_of_latest (hs : s.Populated) (hfiles : ∀ f ∈ s'.files.rows, f ∈ s.files.rows ∨ f.id = fileId)
    (hlatest : ∀ f ≠ fileId, s'.latestRevision f = s.latestRevision f)
    (hr : s'.latestRevision fileId = some r) : s'.Populated := by
  intro f hf
  by_cases hid : f.id = fileId
  · obtain ⟨hmem, hfile, _⟩ := latestRevision_eq_some_iff.mp hr
    exact ⟨r, hmem, hfile.trans hid.symm⟩
  · obtain ⟨x, hx, hxf⟩ := hs f ((hfiles f hf).resolve_right hid)
    obtain ⟨y, hy⟩ := exists_latestRevision hx
    rw [hxf, ← hlatest f.id hid, latestRevision_eq_some_iff] at hy
    exact ⟨y, hy.1, hy.2.1⟩

theorem sound_recordEdit (hs : s.Sound) (h : s.recordEdit config path before after = (res, s')) : s'.Sound := by
  have hfiles := (upsertFile_spec s path).2.2
  cases edited_below_anchor h with
  | disabled => exact hs
  | kept _ prev _ hprev =>
    exact ⟨upsertFile_chained hs.chained path, populated_of_latest hs.populated hfiles
      (fun f _ => latestRevision_upsertFile s path f) hprev⟩
  | inserted r s₂ hadds =>
    have hchained := hadds.chained (upsertFile_chained hs.chained path)
    obtain ⟨hp, _⟩ := enforceBudgets_spec ⟨hchained, hadds.latest⟩ config _ rfl
    refine ⟨hp.chained hchained, hp.populated (populated_of_latest hs.populated ?_ ?_ hadds.latest)⟩
    · rwa [hadds.files]
    · exact fun f hf => (hadds.latest_of_ne hf).trans (latestRevision_upsertFile s path f)

theorem mem_deleteFile :
    r ∈ (s.deleteFile path).revisions.rows ↔
      r ∈ s.revisions.rows ∧ ∀ f ∈ s.files.rows, f.path = path → f.id ≠ r.fileId := by
  simp [deleteFile]

theorem sound_deleteFile (hs : s.Sound) (path : String) : (s.deleteFile path).Sound := by
  refine ⟨⟨fun r hr => ?_, fun r hr r' hr' => ?_, fun r hr => ?_⟩, fun f hf => ?_⟩
  · obtain ⟨hr, hfile⟩ := mem_deleteFile.mp hr
    obtain ⟨h, hh, hf, hrest⟩ := hs.chained.head r hr
    exact ⟨h, mem_deleteFile.mpr ⟨hh, hf ▸ hfile⟩, hf, hrest⟩
  · exact hs.chained.mono r (mem_deleteFile.mp hr).1 r' (mem_deleteFile.mp hr').1
  · exact hs.chained.payload r (mem_deleteFile.mp hr).1
  · obtain ⟨hf, hpath⟩ := mem_select.mp hf
    obtain ⟨r, hr, hid⟩ := hs.populated f hf
    refine ⟨r, mem_deleteFile.mpr ⟨hr, fun f' hf' hpath' hid' => ?_⟩, hid⟩
    rw [eq_of_key hf' hf (hid'.trans hid)] at hpath'
    simp [hpath'] at hpath

theorem renameFile_spec {old new : String} (h : s.renameFile old new = .ok s') :
    s'.revisions = s.revisions ∧ ∀ f ∈ s'.files.rows, ∃ f' ∈ s.files.rows, f'.id = f.id := by
  simp only [renameFile] at h
  split_ifs at h
  obtain rfl := Except.ok.inj h
  refine ⟨rfl, fun f hf => ?_⟩
  obtain ⟨f', hf', rfl⟩ := mem_map.mp hf
  refine ⟨f', hf', ?_⟩
  split_ifs <;> rfl

theorem sound_renameFile (hs : s.Sound) {old new : String} (h : s.renameFile old new = .ok s') : s'.Sound := by
  obtain ⟨hrev, hfiles⟩ := renameFile_spec h
  refine ⟨chained_of_revisions hrev hs.chained, fun f hf => ?_⟩
  obtain ⟨f', hf', hid⟩ := hfiles f hf
  obtain ⟨r, hr, hrid⟩ := hs.populated f' hf'
  exact ⟨r, hrev ▸ hr, hrid.trans hid⟩

theorem sound_step (hs : s.Sound) (call : Call) : (call.step s).1.Sound := by
  cases call with
  | recordEdit config path before after => exact sound_recordEdit hs rfl
  | renameFile old new =>
    simp only [Call.step]
    split
    · exact sound_renameFile hs ‹_›
    · exact hs
  | deleteFile path => exact sound_deleteFile hs path

theorem sound_exec (calls : List Call) : (exec Call.step (empty : Storage C) calls).Sound := by
  induction calls using reverseRecOn with
  | nil => exact ⟨⟨nofun, nofun, nofun⟩, nofun⟩
  | append_singleton calls call ih =>
    rw [exec_concat]
    exact sound_step ih call

/-- **History budgets are enforced without losing the current state of any file.**  After an edit that inserted a
revision, it is the latest of its file, the other files keep theirs, and the chains that are left are
within the budgets or cannot be dropped. -/
theorem recordEdit_within_budgets (calls : List Call) {config : FileHistory} {path : String}
    {before : Option Bytes} {after : Bytes} {id : ℕ} (hs : s = exec Call.step empty calls)
    (h : s.recordEdit config path before after = (.ok (.inserted id), s')) :
    ∃ fileId r, s'.findFile path = some fileId ∧ s'.latestRevision fileId = some r ∧ r.id = id ∧
      r.contentHash = C.hash after ∧
      (∀ f ≠ fileId, s'.latestRevision f = s.latestRevision f) ∧
      s'.chainCount fileId ≤ max config.keepChains 1 ∧
      (s'.filePayloadBytes fileId ≤ config.perFileDiskBudget ∨ s'.chainCount fileId = 1) ∧
      (s'.totalPayloadBytes ≤ config.perServerDiskBudget ∨
        (∀ f ∈ s'.files.rows, f.id ≠ fileId → s'.chainCount f.id = 1) ∧ s'.chainIds fileId = [r.chainId]) := by
  have hsound : s.Sound := hs ▸ sound_exec calls
  have hsound' := sound_recordEdit hsound h
  cases edited_below_anchor h with
  | kept _ prev hres _ => exact absurd rfl (hres id)
  | inserted r s₂ hadds =>
    have hr := hadds.latest
    have hchained := hadds.chained (upsertFile_chained hsound.chained path)
    obtain ⟨hp, hcount, hfile, htotal⟩ := enforceBudgets_spec ⟨hchained, hr⟩ config _ rfl
    have hr' := (hp.latest _).trans hr
    obtain ⟨hmem, hrf, _⟩ := latestRevision_eq_some_iff.mp hr'
    refine ⟨(s.upsertFile path).1, r, ?_, hr', rfl, hadds.contentHash_eq, fun f hf => ?_, hcount, hfile.imp_right ?_,
      htotal.imp_right fun hone => ⟨fun f hf hne => ?_, ?_⟩⟩
    · rw [findFile, hp.files, hadds.files]
      exact (upsertFile_spec s path).2.1
    · rw [hp.latest, hadds.latest_of_ne hf, latestRevision_upsertFile]
    · have := chainCount_pos hmem hrf
      omega
    · obtain ⟨x, hx, hxf⟩ := hsound'.populated f hf
      rw [chainCount, chainIds_eq_singleton hx hxf fun y hy hyf => hone y hy x hx (hyf.trans hxf.symm)]
      rfl
    · exact chainIds_eq_singleton hmem hrf fun y hy hyf => hone y hy r hmem (hyf.trans hrf.symm)

/-- The frames of zstd for some contents of 255 bytes: one raw block for bytes that are all different, and with
such a dictionary one literal and one match for a content that differs from it in the first byte. -/
def frames : Codec where
  Hash := Bytes
  hashEq := inferInstance
  hash := id
  compress c := [0x28, 0xB5, 0x2F, 0xFD, 0x20, 0xFF, 0xF9, 0x07, 0x00] ++ c
  decodeAll
    | _ :: _ :: _ :: _ :: _ :: _ :: 0xF9 :: _ :: _ :: c => some c
    | _ => none
  encodeWithDictionary c d :=
    if c.tail = d.tail then
      [0x28, 0xB5, 0x2F, 0xFD, 0x20, 0xFF, 0x4D, 0x00, 0x00, 0x08] ++ c.take 1 ++ [0x01, 0x00, 0x7B, 0x01, 0x6A,
        0x09, 0x01]
    else [0x28, 0xB5, 0x2F, 0xFD, 0x20, 0xFF, 0xF9, 0x07, 0x00] ++ c
  decodeWithDictionary p d :=
    match p with
    | _ :: _ :: _ :: _ :: _ :: _ :: 0xF9 :: _ :: _ :: c => some c
    | _ => some ((p.drop 10).take (p.length - 17) ++ d.tail)
  decodeAll_compress _ := rfl
  decode_encode c d := by
    split_ifs with h
    · cases c with
      | nil => exact congrArg some h.symm
      | cons b c => exact congrArg (some <| b :: ·) h.symm
    · rfl
  compress_ne_nil _ := List.cons_ne_nil _ _
  encode_ne_nil c d := by split_ifs <;> exact List.cons_ne_nil _ _

/-- A file with one chain, and one whose first chain goes when there is a second one. -/
theorem recordEdit_within_budgets_pruned :
    let calls : List Call := [.recordEdit ⟨true, 1, 2, 0, 0⟩ "b" none [7], .recordEdit ⟨true, 1, 2, 0, 0⟩ "a" none [1]]
    let s : Storage frames := exec Call.step empty calls
    let s' := (s.recordEdit ⟨true, 1, 1, 900, 900⟩ "a" none [2]).2
    ∃ fileId r, s'.findFile "a" = some fileId ∧ s'.latestRevision fileId = some r ∧ r.id = 3 ∧ s'.chainCount fileId ≤ 1 ∧
      ∀ f ≠ fileId, s'.latestRevision f = s.latestRevision f := by
  intro calls s s'
  have hres : (s.recordEdit ⟨true, 1, 1, 900, 900⟩ "a" none [2]).1 = .ok (.inserted 3) := by decide +kernel
  obtain ⟨fileId, r, hfind, hlatest, hid, _, hothers, hcount, _⟩ := recordEdit_within_budgets calls rfl (Prod.ext hres rfl)
  exact ⟨fileId, r, hfind, hlatest, hid, hcount, hothers⟩

end Storage

end Wings.Diff
