import Wings.Collab.Doc
import Wings.Lib.Run

/-!
# Wings.Collab.Manager — saving, reloading and reconciling one session

The concurrent half of `server/collab/manager.rs`.  A session's document has a lock of its own and
the flag `dirty` is an atomic beside it; `save`, `reload` and a round of the reconciler hold
`save_lock` from beginning to end, `apply_update` does not take it.

* **`clean_session_synced`**
-/

namespace Wings.Collab

open Lib

def divergedRebuildTicks : ℕ := 5

variable (L : Libraries)

structure ConflictState where
  hash : Option L.Hash
  deleted : Bool

/-- `CollabSession`, the fields its document depends on. -/
structure CollabSession where
  doc : CollabDoc L
  dirty : Bool
  divergedTicks : ℕ
  conflict : Option (ConflictState L)

inductive Holder
  /-- `save` has the lock. -/
  | save (force : Bool) (expectedHash : Option String)
  /-- The document is not diverged. -/
  | saveChecked (force : Bool) (expectedHash : Option String)
  /-- The document has been copied. -/
  | saveCopied (force : Bool) (expectedHash : Option String) (content bytes : Name)
      (docDiskHash : L.Hash)
  /-- The copy is on disk. -/
  | saveWritten (content : Name) (writtenHash : L.Hash)
  /-- `reload` has the lock. -/
  | reload
  /-- The file has been read. -/
  | reloadRead (content : DiskContent L)
  /-- The document is replaced, `dirty` is not stored yet. -/
  | reloadReplaced
  /-- A round of the reconciler has the lock. -/
  | round
  /-- Not diverged; `dirty` is loaded next. -/
  | roundLoad
  /-- `dirty` was set; the hashes are compared next. -/
  | roundConverge
  /-- The text was found converged, `dirty` is not stored yet. -/
  | roundStore
  /-- The file is read next. -/
  | roundRead
  /-- The file has been read; its hash is compared next. -/
  | roundCompare (content : DiskContent L)
  /-- The file differs; `dirty` is loaded next. -/
  | roundDiffers (content : DiskContent L)
  /-- `dirty` was not set; the document is replaced next. -/
  | roundReplace (content : DiskContent L)
  /-- The file cannot be read; `dirty` is loaded next. -/
  | roundUnreadable (deleted : Bool)

/-- The session, the holder of `save_lock` and the reconciler's `last_mtime`. -/
structure Machine where
  session : CollabSession L
  holder : Option (Holder L)
  lastMtime : Option ℕ

/-- What the holder of the lock finds outside the session at its next step. -/
structure World where
  serverLocked : Bool
  metadata : Metadata
  /-- The second `async_metadata`, made by `read_content`. -/
  metadataAgain : Metadata
  opened : Opened
  sizeCap : ℕ
  historySizeCap : ℕ
  headroom : Bool
  created : Bool
  written : Bool
  shutDown : Bool

inductive Action
  /-- The document section of one `apply_update`. -/
  | applyUpdate (sizeCap : ℕ) (update : Name)
  /-- `save` asks for the lock. -/
  | save (force : Bool) (expectedHash : Option String)
  /-- `reload` asks for the lock. -/
  | reload
  /-- A round of the reconciler tries the lock. -/
  | round
  /-- The next step of the holder. -/
  | advance (w : World)

/-- What a step does to the pair of document and disk. -/
inductive Event
  | nothing
  | saved (text : Name)
  | loaded (text : Name)
  /-- The reconciler puts `text` in the place of `before`. -/
  | replaced (before text : Name)
  deriving DecidableEq

variable {L}

/-! ## The steps -/

namespace CollabSession

/-- `take_diverged`, with whether it reports a diverged document. -/
def takeDiverged (s : CollabSession L) : CollabSession L × Bool :=
  if s.doc.hasMissingUpdates then
    if s.divergedTicks < divergedRebuildTicks then
      ({ s with divergedTicks := s.divergedTicks + 1 }, true)
    else ({ s with doc := s.doc.rebuild, divergedTicks := 0 }, true)
  else ({ s with divergedTicks := 0 }, false)

def setConflict (s : CollabSession L) (conflict : Option (ConflictState L)) : CollabSession L :=
  { s with conflict }

end CollabSession

namespace World

/-- Whether the file exists and how long it is; `none` where it is not a file. -/
def oldFile (w : World) : Option (Bool × ℕ) :=
  match w.metadata with
  | .missing => some (false, 0)
  | .notFile => none
  | .file size _ => some (true, size)

def oldBytes (w : World) (fileExists : Bool) (oldSize : ℕ) : Option Name :=
  let readCap := max w.historySizeCap w.sizeCap
  if fileExists ∧ 0 < oldSize ∧ oldSize ≤ readCap then
    match w.opened with
    | some (handleSize, some bytes) =>
      if handleSize ≤ readCap ∧ (bytes.take (readCap + 1)).length ≤ readCap then some bytes else none
    | _ => none
  else none

def currentHash (w : World) (fileExists : Bool) (oldSize : ℕ) : Option L.Hash :=
  if fileExists then
    if oldSize = 0 then some (L.hash []) else (w.oldBytes fileExists oldSize).map L.hash
  else none

end World

namespace Machine

def leave (m : Machine L) (session : CollabSession L) : Machine L :=
  { m with session, holder := none }

def goto (m : Machine L) (holder : Holder L) : Machine L := { m with holder := some holder }

/-- `save` from the copy of the document to the file written: the hash on disk must be the one the
document knows, or `force` apply to the hash found. -/
def write (m : Machine L) (w : World) (force : Bool) (expectedHash : Option String)
    (content bytes : Name) (docDiskHash : L.Hash) : Machine L × Event :=
  match w.oldFile with
  | none => (m.leave m.session, .nothing)
  | some (fileExists, oldSize) =>
    let current : Option L.Hash := w.currentHash fileExists oldSize
    let forceApplies := force && (expectedHash.all fun expected => current.any fun hash => L.toHex hash = expected)
    if current = some docDiskHash ∨ forceApplies = true then
      if w.headroom ∧ w.created ∧ w.written ∧ w.shutDown then
        (m.goto (.saveWritten content (L.hash bytes)), .saved content)
      else (m.leave m.session, .nothing)
    else (m.leave (m.session.setConflict (some ⟨current, !fileExists⟩)), .nothing)

def look (m : Machine L) (w : World) : Machine L :=
  match w.metadata with
  | .file size modified =>
    if size ≤ w.sizeCap then
      if modified.isSome ∧ modified = m.lastMtime then m.leave m.session
      else
        match readContent w.metadataAgain w.opened w.sizeCap with
        | .ok content => { m with holder := some (.roundCompare content), lastMtime := modified }
        | .error _ => m.goto (.roundUnreadable false)
    else m.goto (.roundUnreadable false)
  | _ => m.goto (.roundUnreadable true)

def advance (m : Machine L) (w : World) : Holder L → Machine L × Event
  | .save force expected =>
    if w.serverLocked ∨ m.session.doc.hasMissingUpdates then (m.leave m.session, .nothing)
    else (m.goto (.saveChecked force expected), .nothing)
  | .saveChecked force expected =>
    let content := m.session.doc.content
    let bytes := m.session.doc.toDiskBytes content
    (m.goto (.saveCopied force expected content bytes m.session.doc.diskHash), .nothing)
  | .saveCopied force expected content bytes docDiskHash =>
    m.write w force expected content bytes docDiskHash
  | .saveWritten content writtenHash =>
    let doc := { m.session.doc with diskHash := writtenHash, textHash := L.hash content }
    (m.leave { m.session with doc, dirty := doc.content != content, conflict := none }, .nothing)
  | .reload =>
    match readContent w.metadata w.opened w.sizeCap with
    | .ok content => (m.goto (.reloadRead content), .nothing)
    | .error _ => (m.leave m.session, .nothing)
  | .reloadRead content =>
    ({ m with session := { m.session with doc := .fromDisk content }, holder := some .reloadReplaced },
      .loaded content.text)
  | .reloadReplaced => (m.leave { m.session with dirty := false, conflict := none }, .nothing)
  | .round =>
    let (session, diverged) := m.session.takeDiverged
    if diverged then (m.leave session, .nothing)
    else ({ m with session, holder := some .roundLoad }, .nothing)
  | .roundLoad => (m.goto (if m.session.dirty then .roundConverge else .roundRead), .nothing)
  | .roundConverge =>
    let converged := L.hash m.session.doc.content = m.session.doc.textHash
    (m.goto (if converged then .roundStore else .roundRead), .nothing)
  | .roundStore =>
    ({ m with session := { m.session with dirty := false }, holder := some .roundRead }, .nothing)
  | .roundRead => (m.look w, .nothing)
  | .roundCompare content =>
    if m.session.doc.diskHash = content.hash then (m.leave (m.session.setConflict none), .nothing)
    else (m.goto (.roundDiffers content), .nothing)
  | .roundDiffers content =>
    if m.session.dirty then
      (m.leave (m.session.setConflict (some ⟨some content.hash, false⟩)), .nothing)
    else (m.goto (.roundReplace content), .nothing)
  | .roundReplace content =>
    if m.session.dirty = false ∧ m.session.doc.diskHash ≠ content.hash then
      (m.leave { m.session with doc := .fromDisk content, conflict := none },
        .replaced m.session.doc.content content.text)
    else (m.leave m.session, .nothing)
  | .roundUnreadable deleted =>
    if m.session.dirty then (m.leave (m.session.setConflict (some ⟨none, deleted⟩)), .nothing)
    else (m.leave m.session, .nothing)

/-- The document section of `apply_update`; an update that cannot be decoded never gets there. -/
def applyUpdate (m : Machine L) (sizeCap : ℕ) (update : Name) : Machine L :=
  match L.decode update with
  | none => m
  | some decoded =>
    let (doc, stored) := m.session.doc.applyUpdate sizeCap decoded update.length
    { m with session := { m.session with doc, dirty := m.session.dirty || stored } }

/-- Taking `save_lock`: a task that finds it held waits (or, in the reconciler, skips the round). -/
def acquire (m : Machine L) (holder : Holder L) : Machine L :=
  match m.holder with
  | none => m.goto holder
  | some _ => m

def opened (content : DiskContent L) : Machine L :=
  { session := { doc := .fromDisk content, dirty := false, divergedTicks := 0, conflict := none }
    holder := none
    lastMtime := none }

end Machine

def Action.step (m : Machine L) : Action → Machine L × Event
  | .applyUpdate sizeCap update => (m.applyUpdate sizeCap update, .nothing)
  | .save force expected => (m.acquire (.save force expected), .nothing)
  | .reload => (m.acquire .reload, .nothing)
  | .round => (m.acquire .round, .nothing)
  | .advance w =>
    match m.holder with
    | none => (m, .nothing)
    | some holder => m.advance w holder

/-! ## What a run keeps -/

/-- The text last loaded from or saved to disk after the event. -/
def Event.after (text : Name) : Event → Name
  | .nothing => text
  | .saved text' | .loaded text' | .replaced _ text' => text'

/-- The text last loaded from or saved to disk after a run that started with `text`. -/
def lastSynced (text : Name) (tr : List (Action × Event)) : Name :=
  tr.foldl (fun text e => e.2.after text) text

open Machine

@[simp] theorem lastSynced_concat (text : Name) (tr : List (Action × Event)) (a : Action) (e : Event) :
    lastSynced text (tr ++ [(a, e)]) = e.after (lastSynced text tr) := by
  simp [lastSynced]

/-- The reconciler never replaces a document whose text is not the one last loaded or saved. -/
def NoEditReplaced (text : Name) (tr : List (Action × Event)) : Prop :=
  ∀ pre a before new, pre ++ [(a, .replaced before new)] <+: tr → before = lastSynced text pre

theorem noEditReplaced_nil (text : Name) : NoEditReplaced text [] := by
  intro pre a before new h
  simp at h

variable {tr : List (Action × Event)}

theorem noEditReplaced_concat {text : Name} {a : Action} {e : Event}
    (h : NoEditReplaced text tr) (he : ∀ before new, e = .replaced before new → before = lastSynced text tr) :
    NoEditReplaced text (tr ++ [(a, e)]) := by
  intro pre a' before new hp
  rcases List.prefix_concat_iff.mp hp with heq | hp
  · obtain ⟨rfl, hlast⟩ := List.append_inj' heq rfl
    obtain ⟨-, rfl⟩ : a' = a ∧ Event.replaced before new = e := by simpa using hlast
    exact he before new rfl
  · exact h pre a' before new hp

/-- The holder has left a section of the document and has yet to store `dirty`. -/
def Machine.StorePending (m : Machine L) : Prop :=
  m.holder = some .reloadReplaced ∨ m.holder = some .roundStore

/-- No update lands between a document section and the store of `dirty` that belongs to it, and an
update that y-crdt refuses leaves no trace in the text. -/
def NoUpdateBeforeStore (_ : List (Action × Event)) (m : Machine L) : Action → Prop
  | .applyUpdate _ update =>
    ¬ m.StorePending ∧ ∀ decoded, L.decode update = some decoded → m.session.doc.RefusedCleanly decoded
  | _ => True

/-- What the holder of the lock may rely on, `text` being the text last loaded or saved. -/
def Holder.Knows (text : Name) (s : CollabSession L) : Holder L → Prop
  | .saveCopied _ _ content _ _ => s.dirty = false → s.doc.content = content
  | .saveWritten content _ => content = text
  | .reloadReplaced | .roundStore => s.doc.content = text
  | _ => True

/-- Only between the write and its second section does `save` leave the hash of the text behind. -/
def Holder.keepsHash : Holder L → Bool
  | .saveWritten _ _ => false
  | _ => true

/-- **The invariant**, `text` being the text last loaded from or saved to disk. -/
structure Synced (text : Name) (m : Machine L) : Prop where
  clean : m.session.dirty = false → m.session.doc.content = text
  textHash : m.holder.all Holder.keepsHash = true → m.session.doc.textHash = L.hash text
  holder : ∀ h ∈ m.holder, h.Knows text m.session

section Steps

variable {text : Name} {m : Machine L} {h : Holder L}

theorem Synced.leave {s : CollabSession L} (hh : s.doc.textHash = L.hash text)
    (hc : s.dirty = false → s.doc.content = text) : Synced text (m.leave s) where
  clean := hc
  textHash := fun _ => hh
  holder := by
    intro h hm
    cases hm

theorem Synced.of_holder (hm : m.holder = some h) (hh : h.keepsHash = true → m.session.doc.textHash = L.hash text)
    (hc : m.session.dirty = false → m.session.doc.content = text) (hk : h.Knows text m.session) :
    Synced text m where
  clean := hc
  textHash := by
    rw [hm]
    exact hh
  holder := by
    intro h' hm'
    obtain rfl : h = h' := Option.some.inj (hm.symm.trans hm')
    exact hk

theorem Synced.goto (hh : m.session.doc.textHash = L.hash text)
    (hc : m.session.dirty = false → m.session.doc.content = text) (hk : h.Knows text m.session) :
    Synced text (m.goto h) :=
  of_holder rfl (fun _ => hh) hc hk

theorem Synced.acquire (hs : Synced text m) (hk : h.Knows text m.session) : Synced text (m.acquire h) := by
  unfold Machine.acquire
  cases hm : m.holder with
  | none => exact goto (hs.textHash (by rw [hm]; rfl)) hs.clean hk
  | some _ => exact hs

theorem Synced.applyUpdate {sizeCap : ℕ} {update : Name} (hs : Synced text m) (hp : ¬ m.StorePending)
    (hr : ∀ decoded, L.decode update = some decoded → m.session.doc.RefusedCleanly decoded) :
    Synced text (m.applyUpdate sizeCap update) := by
  unfold Machine.applyUpdate
  cases hd : L.decode update with
  | none => exact hs
  | some decoded =>
    have hsame : (m.session.doc.applyUpdate sizeCap decoded update.length).2 = false →
        (m.session.doc.applyUpdate sizeCap decoded update.length).1.content = m.session.doc.content :=
      CollabDoc.content_applyUpdate_of_clean (hr decoded hd)
    refine ⟨fun hdirty => ?_, fun hk => ?_, fun h hm => ?_⟩
    · obtain ⟨hclean, hstored⟩ := Bool.or_eq_false_iff.mp hdirty
      exact (hsame hstored).trans (hs.clean hclean)
    · exact (CollabDoc.textHash_applyUpdate _ _ _ _).trans (hs.textHash hk)
    · have hbefore := hs.holder h hm
      cases h with
      | saveCopied force expected content bytes hash =>
        intro hdirty
        obtain ⟨hclean, hstored⟩ := Bool.or_eq_false_iff.mp hdirty
        exact (hsame hstored).trans (hbefore hclean)
      | saveWritten content hash => exact hbefore
      | reloadReplaced => exact absurd (Or.inl hm) hp
      | roundStore => exact absurd (Or.inr hm) hp
      | _ => exact trivial

theorem takeDiverged_keeps (s : CollabSession L) :
    s.takeDiverged.1.doc.content = s.doc.content ∧
      s.takeDiverged.1.doc.textHash = s.doc.textHash ∧ s.takeDiverged.1.dirty = s.dirty := by
  unfold CollabSession.takeDiverged
  split_ifs <;> simp

variable {w : World}

theorem Synced.write {force : Bool} {expected : Option String} {content bytes : Name} {hash : L.Hash}
    (hh : m.session.doc.textHash = L.hash text) (hc : m.session.dirty = false → m.session.doc.content = text)
    (hcopy : m.session.dirty = false → m.session.doc.content = content) :
    Synced ((m.write w force expected content bytes hash).2.after text)
      (m.write w force expected content bytes hash).1 := by
  unfold Machine.write
  cases w.oldFile with
  | none => exact leave hh hc
  | some old =>
    dsimp only
    split_ifs
    · exact of_holder rfl (fun hkeep => by cases hkeep) hcopy rfl
    · exact leave hh hc
    · exact leave hh hc

theorem Synced.look (hh : m.session.doc.textHash = L.hash text)
    (hc : m.session.dirty = false → m.session.doc.content = text) : Synced text (m.look w) := by
  unfold Machine.look
  cases w.metadata with
  | missing => exact goto hh hc trivial
  | notFile => exact goto hh hc trivial
  | file size modified =>
    dsimp only
    split_ifs
    · exact leave hh hc
    · cases readContent w.metadataAgain w.opened w.sizeCap with
      | error _ => exact goto hh hc trivial
      | ok content =>
        exact of_holder rfl (fun _ => hh) hc trivial
    · exact goto hh hc trivial

/-- The holder's next step keeps the invariant, the text being the one last loaded or saved. -/
theorem Synced.advance (hs : Synced text m) (hm : m.holder = some h) :
    Synced ((m.advance w h).2.after text) (m.advance w h).1 := by
  have hk : h.Knows text m.session := hs.holder h hm
  have hc := hs.clean
  have hh : h.keepsHash = true → m.session.doc.textHash = L.hash text :=
    fun hkeep => hs.textHash (by rw [hm]; exact hkeep)
  cases h with
  | save force expected =>
    simp only [advance]
    split_ifs
    · exact leave (hh rfl) hc
    · exact goto (hh rfl) hc trivial
  | saveChecked force expected => exact goto (hh rfl) hc fun _ => rfl
  | saveCopied force expected content bytes hash => exact write (hh rfl) hc hk
  | saveWritten content hash =>
    obtain rfl : content = text := hk
    exact leave rfl fun hdirty => (bne_eq_false_iff_eq).mp hdirty
  | reload =>
    simp only [advance]
    cases readContent w.metadata w.opened w.sizeCap with
    | ok content => exact goto (hh rfl) hc trivial
    | error _ => exact leave (hh rfl) hc
  | reloadRead content =>
    have hcontent := CollabDoc.content_fromDisk content
    exact of_holder rfl (fun _ => rfl) (fun _ => hcontent) hcontent
  | reloadReplaced => exact leave (hh rfl) fun _ => hk
  | round =>
    obtain ⟨hcontent, hhash, hdirty⟩ := takeDiverged_keeps m.session
    have hh' : m.session.takeDiverged.1.doc.textHash = L.hash text := hhash.trans (hh rfl)
    have hc' : m.session.takeDiverged.1.dirty = false →
        m.session.takeDiverged.1.doc.content = text := by
      rw [hcontent, hdirty]
      exact hc
    simp only [advance]
    split_ifs
    · exact leave hh' hc'
    · exact of_holder rfl (fun _ => hh') hc' trivial
  | roundLoad =>
    refine goto (hh rfl) hc ?_
    split_ifs <;> trivial
  | roundConverge =>
    refine goto (hh rfl) hc ?_
    split_ifs with hconv
    · -- the hashes agree, and blake3 does not collide
      exact L.hash_injective (hconv.trans (hh rfl))
    · trivial
  | roundStore =>
    exact of_holder rfl (fun _ => hh rfl) (fun _ => hk) trivial
  | roundRead => exact look (hh rfl) hc
  | roundCompare content =>
    simp only [advance]
    split_ifs
    · exact leave (hh rfl) hc
    · exact goto (hh rfl) hc trivial
  | roundDiffers content =>
    simp only [advance]
    split_ifs
    · exact leave (hh rfl) hc
    · exact goto (hh rfl) hc trivial
  | roundReplace content =>
    simp only [advance]
    split_ifs
    · exact leave rfl fun _ => CollabDoc.content_fromDisk content
    · exact leave (hh rfl) hc
  | roundUnreadable deleted =>
    simp only [advance]
    split_ifs <;> exact leave (hh rfl) hc

/-- Only the last step of a round replaces a document, and only one that is not dirty. -/
theorem clean_of_replaced {before new : Name} (he : (m.advance w h).2 = .replaced before new) :
    m.session.dirty = false ∧ before = m.session.doc.content := by
  cases h with
  | roundReplace content =>
    simp only [advance] at he
    split_ifs at he with hc
    obtain ⟨rfl, -⟩ := Event.replaced.inj he
    exact ⟨hc.1, rfl⟩
  | saveCopied force expected content bytes hash =>
    simp only [advance, write] at he
    grind
  | _ =>
    simp only [advance] at he
    grind

end Steps

theorem synced_step {text : Name} {m : Machine L} {a : Action} (hs : Synced text m) (hg : NoUpdateBeforeStore tr m a) :
    Synced ((a.step m).2.after text) (a.step m).1 ∧
      ∀ before new, (a.step m).2 = .replaced before new → before = text := by
  cases a with
  | applyUpdate sizeCap update => exact ⟨hs.applyUpdate hg.1 hg.2, fun _ _ he => by cases he⟩
  | save force expected => exact ⟨hs.acquire trivial, fun _ _ he => by cases he⟩
  | reload => exact ⟨hs.acquire trivial, fun _ _ he => by cases he⟩
  | round => exact ⟨hs.acquire trivial, fun _ _ he => by cases he⟩
  | advance w =>
    cases hm : m.holder with
    | none =>
      have hstep : Action.step m (.advance w) = (m, .nothing) := by simp only [Action.step, hm]
      rw [hstep]
      exact ⟨hs, fun _ _ he => by cases he⟩
    | some h =>
      have hstep : Action.step m (.advance w) = m.advance w h := by simp only [Action.step, hm]
      rw [hstep]
      refine ⟨hs.advance hm, fun before new he => ?_⟩
      obtain ⟨hdirty, rfl⟩ := clean_of_replaced he
      exact hs.clean hdirty

theorem synced_opened (content : DiskContent L) : Synced content.text (opened content) where
  clean := fun _ => CollabDoc.content_fromDisk content
  textHash := fun _ => rfl
  holder := by
    intro h hm
    cases hm

/-- **A clean session has no unsaved edit.**  In every run in which no update lands between a
document section and its store of `dirty`: where no such store is pending and `dirty` is not set,
the text is the one last loaded from or saved to disk, and no round of the reconciler has replaced
a document with another text. -/
theorem clean_session_synced (content : DiskContent L) (as : List Action)
    (h : Steps Action.step NoUpdateBeforeStore (opened content) as) :
    let m := exec Action.step (opened content) as
    let tr := trace Action.step (opened content) as
    (¬ m.StorePending → m.session.dirty = false → m.session.doc.content = lastSynced content.text tr) ∧
      NoEditReplaced content.text tr := by
  have hinv := inv_of_steps
    (I := fun tr m => Synced (lastSynced content.text tr) m ∧ NoEditReplaced content.text tr)
    ⟨synced_opened content, noEditReplaced_nil _⟩ (fun tr m a hI hg => ?_) h
  · exact ⟨fun _ => hinv.1.clean, hinv.2⟩
  · obtain ⟨hs, hr⟩ := synced_step hI.1 hg
    exact ⟨by rw [lastSynced_concat]; exact hs, noEditReplaced_concat hI.2 hr⟩

/-! ## The window before the store -/

/-- Documents that are their text, updates that replace it, hashes without any hashing. -/
def plainText : Libraries where
  Doc := Name
  Update := Name
  Hash := Name
  hashEq := inferInstance
  create := id
  getString := id
  len := List.length
  decode := some
  applyUpdate := fun _ update => (update, true)
  hasMissingUpdates := fun _ => false
  hash := id
  toHex := fun _ => ""
  getString_create := fun _ => rfl
  hash_injective := Function.injective_id

/-- A quiet world whose file holds `bytes`, modified at time 1. -/
def worldWith (bytes : Name) : World where
  serverLocked := false
  metadata := .file bytes.length (some 1)
  metadataAgain := .file bytes.length (some 1)
  opened := some (bytes.length, some bytes)
  sizeCap := 100
  historySizeCap := 100
  headroom := true
  created := true
  written := true
  shutDown := true

/-- The file as it was opened: the one letter `a`. -/
def openedA : DiskContent plainText := ⟨[97], [97], false⟩

/-- An edit to `b` and back to `a`, then a round that finds the text converged; `b` is typed again
before the round stores `dirty`.  The file on disk has become `c` meanwhile. -/
def raceRun : List Action :=
  [.applyUpdate 100 [98], .applyUpdate 100 [97], .round, .advance (worldWith [99]),
    .advance (worldWith [99]), .advance (worldWith [99]), .applyUpdate 100 [98], .advance (worldWith [99])]

def raceRest : List Action := List.replicate 4 (.advance (worldWith [99]))

/-- The edit made between the check and the store is unsaved, yet the session is not dirty; the same
round then replaces the document. -/
theorem edit_lost_between_check_and_store :
    let m := exec Action.step (opened openedA) raceRun
    (m.holder = some .roundRead ∧ m.session.dirty = false ∧ m.session.doc.content = [98] ∧
      lastSynced openedA.text (trace Action.step (opened openedA) raceRun) = [97]) ∧
    ¬ NoEditReplaced openedA.text (trace Action.step (opened openedA) (raceRun ++ raceRest)) := by
  refine ⟨⟨rfl, rfl, rfl, rfl⟩, fun h => ?_⟩
  have hbefore := h (trace Action.step (opened openedA) (raceRun ++ raceRest.take 3))
    (.advance (worldWith [99])) [98] [99] ⟨[], rfl⟩
  exact absurd hbefore (by decide)

/-- An edit, a save and a reconciler round around it. -/
theorem clean_session_synced_saved :
    let as : List Action := [.applyUpdate 100 [98], .save false none, .advance (worldWith [97]),
      .advance (worldWith [97]), .advance (worldWith [97]), .advance (worldWith [97]), .round]
    let m := exec Action.step (opened openedA) as
    let tr := trace Action.step (opened openedA) as
    m.session.dirty = false ∧ m.session.doc.content = lastSynced openedA.text tr ∧
      lastSynced openedA.text tr = [98] ∧ NoEditReplaced openedA.text tr := by
  intro as m tr
  have h : Steps Action.step NoUpdateBeforeStore (opened openedA) as := by
    simp only [as, steps_cons, NoUpdateBeforeStore]
    refine ⟨⟨?_, ?_⟩, trivial, trivial, trivial, trivial, trivial, trivial, steps_nil⟩
    · rintro (h | h) <;> cases h
    · intro decoded _ h
      cases h
  obtain ⟨hclean, hkept⟩ := clean_session_synced openedA as h
  exact ⟨rfl, hclean (by rintro (h | h) <;> cases h) rfl, rfl, hkept⟩

end Wings.Collab
