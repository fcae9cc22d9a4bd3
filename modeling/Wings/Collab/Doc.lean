import Wings.Lib.MachineInt
import Wings.Path

/-!
# Wings.Collab.Doc — the document of a collaborative editing session

The document half of `server/collab/manager.rs`.  A document is a y-crdt text together with two
hashes: `diskHash` of the raw bytes on disk, and `textHash` of the text as it was last loaded into
the document or saved from it.

* `normalizeLineEndings`, `DiskContent`, `readContent` — what is read from disk.
-/

namespace Wings.Collab

open Lib List

/-- y-crdt and blake3 as the session uses them. -/
structure Libraries where
  /-- `yrs::Doc` with its text `content`. -/
  Doc : Type
  /-- `yrs::Update`. -/
  Update : Type
  /-- `blake3::Hash`. -/
  Hash : Type
  hashEq : DecidableEq Hash
  /-- A new document with the text inserted. -/
  create : Name → Doc
  /-- `text.get_string`. -/
  getString : Doc → Name
  /-- `text.len`. -/
  len : Doc → ℕ
  /-- `Update::decode_v1`. -/
  decode : Name → Option Update
  /-- `txn.apply_update`: the document afterwards, and whether the update was accepted. -/
  applyUpdate : Doc → Update → Doc × Bool
  hasMissingUpdates : Doc → Bool
  /-- `blake3::hash`. -/
  hash : Name → Hash
  /-- `Hash::to_hex`. -/
  toHex : Hash → String
  getString_create : ∀ text, getString (create text) = text
  hash_injective : Function.Injective hash

instance (L : Libraries) : DecidableEq L.Hash := L.hashEq

/-! ## What is read from disk -/

def carriageReturn : Byte := 13
def lineFeed : Byte := 10

/-- How many line endings of each kind the text has. -/
structure Endings where
  cr : ℕ
  lf : ℕ
  crlf : ℕ

/-- The counting loop of `normalize_line_endings`. -/
def countEndings : Name → Endings
  | [] => ⟨0, 0, 0⟩
  | b :: rest =>
    if b = carriageReturn then
      match rest with
      | [] => ⟨1, 0, 0⟩
      | c :: rest' =>
        if c = lineFeed then { countEndings rest' with crlf := (countEndings rest').crlf + 1 }
        else { countEndings (c :: rest') with cr := (countEndings (c :: rest')).cr + 1 }
    else if b = lineFeed then { countEndings rest with lf := (countEndings rest).lf + 1 }
    else countEndings rest

/-- The rewriting loop: every line ending becomes `eol`. -/
def rewriteEndings (eol : Name) : Name → Name
  | [] => []
  | b :: rest =>
    if b = carriageReturn then
      match rest with
      | [] => eol
      | c :: rest' =>
        if c = lineFeed then eol ++ rewriteEndings eol rest'
        else eol ++ rewriteEndings eol (c :: rest')
    else if b = lineFeed then eol ++ rewriteEndings eol rest
    else b :: rewriteEndings eol rest

def normalizeLineEndings (text : Name) : Name :=
  let n := countEndings text
  let mostlyCrlf := n.cr + n.lf + n.crlf < (n.cr + n.crlf) * 2
  let needsRewrite := if mostlyCrlf then 0 < n.cr ∨ 0 < n.lf else 0 < n.cr ∨ 0 < n.crlf
  if needsRewrite then
    rewriteEndings (if mostlyCrlf then [carriageReturn, lineFeed] else [lineFeed]) text
  else text

-- the majority decides, a tie goes to LF, uniform endings stay
example : normalizeLineEndings [97, 13, 10, 98, 10] = [97, 10, 98, 10] := by decide
example : normalizeLineEndings [97, 13, 98, 13, 99] = [97, 13, 10, 98, 13, 10, 99] := by decide
example : normalizeLineEndings [97, 13, 10, 98, 13, 10] = [97, 13, 10, 98, 13, 10] := by decide

/-! ### Line endings

No other character has CR or LF among its bytes, so that the loop over the characters is one over the bytes. -/

/-- The text split at CR LF, at CR alone and at LF. -/
def pieces : Name → List Name
  | [] => [[]]
  | b :: rest =>
    if b = carriageReturn then
      match rest with
      | [] => [[], []]
      | c :: rest' => if c = lineFeed then [] :: pieces rest' else [] :: pieces (c :: rest')
    else if b = lineFeed then [] :: pieces rest
    else (pieces rest).modifyHead (b :: ·)

theorem exists_pieces (text : Name) : ∃ p ps, pieces text = p :: ps := by
  fun_induction pieces text <;> grind [modifyHead_cons]

theorem not_mem_of_mem_pieces {text p : Name} (hp : p ∈ pieces text) : carriageReturn ∉ p ∧ lineFeed ∉ p := by
  fun_induction pieces text generalizing p with
  | case6 b rest hcr hlf ih =>
    obtain ⟨q, qs, hqs⟩ := exists_pieces rest
    rw [hqs] at ih hp
    grind [modifyHead_cons]
  | _ => grind

theorem rewriteEndings_eq_intercalate (eol text : Name) : rewriteEndings eol text = eol.intercalate (pieces text) := by
  fun_induction pieces text with
  | case1 => rfl
  | case2 => simp [rewriteEndings]
  | case6 b rest hcr hlf ih =>
    obtain ⟨q, qs, hqs⟩ := exists_pieces rest
    rw [rewriteEndings.eq_def, hqs]
    cases qs <;> simp_all
  | case3 rest ih | case4 _ rest _ ih | case5 rest _ ih =>
    obtain ⟨q, qs, hqs⟩ := exists_pieces _
    rw [rewriteEndings.eq_def, hqs]
    simp_all

theorem pieces_rewriteEndings {eol : Name} (heol : eol ∈ [[lineFeed], [carriageReturn, lineFeed]]) (text : Name) :
    pieces (rewriteEndings eol text) = pieces text := by
  have happend (rest : Name) : pieces (eol ++ rest) = [] :: pieces rest := by
    grind [pieces.eq_def, carriageReturn, lineFeed]
  fun_induction rewriteEndings eol text with
  | case2 => simpa [pieces] using happend []
  | _ => grind [pieces.eq_def]

theorem rewriteEndings_lf_eq_iff (text : Name) :
    rewriteEndings [lineFeed] text = text ↔ (countEndings text).cr = 0 ∧ (countEndings text).crlf = 0 := by
  fun_induction countEndings text <;> grind [rewriteEndings.eq_def, lineFeed, carriageReturn]

theorem rewriteEndings_crlf_eq_iff (text : Name) : rewriteEndings [carriageReturn, lineFeed] text = text ↔
    (countEndings text).cr = 0 ∧ (countEndings text).lf = 0 := by
  fun_induction countEndings text <;> grind [rewriteEndings.eq_def, lineFeed, carriageReturn]

/-- **The text keeps its pieces and gets one kind of line ending.** -/
theorem normalizeLineEndings_exact (text : Name) :
    (∃ eol ∈ [[lineFeed], [carriageReturn, lineFeed]], normalizeLineEndings text = eol.intercalate (pieces text)) ∧
      (∀ p ∈ pieces text, carriageReturn ∉ p ∧ lineFeed ∉ p) ∧
      pieces (normalizeLineEndings text) = pieces text ∧
      normalizeLineEndings (normalizeLineEndings text) = normalizeLineEndings text := by
  -- a text that is not rewritten has only the ending that is chosen
  obtain ⟨eol, heol, heq⟩ : ∃ eol ∈ [[lineFeed], [carriageReturn, lineFeed]],
      normalizeLineEndings text = rewriteEndings eol text := by
    simp only [exists_mem_cons_iff]
    grind [normalizeLineEndings, rewriteEndings_lf_eq_iff, rewriteEndings_crlf_eq_iff]
  have hpieces := pieces_rewriteEndings heol text
  have hfix : rewriteEndings eol (rewriteEndings eol text) = rewriteEndings eol text := by
    rw [rewriteEndings_eq_intercalate, hpieces, rewriteEndings_eq_intercalate]
  rw [heq]
  refine ⟨⟨eol, heol, rewriteEndings_eq_intercalate eol text⟩, fun p => not_mem_of_mem_pieces, hpieces, ?_⟩
  -- so the majority is for the ending that the text then has
  grind [normalizeLineEndings, rewriteEndings_lf_eq_iff, rewriteEndings_crlf_eq_iff]

def byteOrderMark : Name := [0xEF, 0xBB, 0xBF]

inductive CollabError
  | user (message : String)
  | internal
  deriving DecidableEq

variable (L : Libraries)

structure DiskContent where
  text : Name
  hash : L.Hash
  bom : Bool

variable {L}

def DiskContent.fromBytes (bytes : Name) : Option (DiskContent L) :=
  if validUtf8 bytes then
    let bom := byteOrderMark.isPrefixOf bytes
    some
      { text := normalizeLineEndings (if bom then bytes.drop byteOrderMark.length else bytes)
        hash := L.hash bytes
        bom }
  else none

inductive Metadata
  | missing
  | notFile
  | file (size : ℕ) (modified : Option ℕ)
  deriving DecidableEq

/-- What `async_read_file` answers: nothing where it fails, else the size of the handle and the
bytes, if they can be read to the end. -/
abbrev Opened := Option (ℕ × Option Name)

def readContent (metadata : Metadata) (opened : Opened) (sizeCap : ℕ) :
    Except CollabError (DiskContent L) :=
  let tooLarge := CollabError.user "file is too large for collaborative editing"
  match metadata with
  | .missing => .error (.user "file not found")
  | .notFile => .error (.user "file is not a file")
  | .file size _ =>
    if sizeCap < size then .error tooLarge
    else
      match opened with
      | none => .error (.user "file not found")
      | some (handleSize, read) =>
        if sizeCap < handleSize then .error tooLarge
        else
          match read with
          | none => .error .internal
          | some bytes =>
            if sizeCap < (bytes.take (sizeCap + 1)).length then .error tooLarge
            else
              match DiskContent.fromBytes bytes with
              | none => .error (.user "file is not editable as text")
              | some content =>
                if sizeCap < content.text.length + (if content.bom then byteOrderMark.length else 0)
                then .error tooLarge
                else .ok content

/-! ## The document -/

variable (L) in
/-- `CollabDoc`; the epoch, a random label handed to clients, is left out. -/
structure CollabDoc where
  doc : L.Doc
  appliedUpdateBytes : ℕ
  diskHash : L.Hash
  textHash : L.Hash
  bom : Bool

namespace CollabDoc

def new (content : Name) : CollabDoc L :=
  { doc := L.create content
    appliedUpdateBytes := 0
    diskHash := L.hash content
    textHash := L.hash content
    bom := false }

def fromDisk (content : DiskContent L) : CollabDoc L :=
  { new content.text with diskHash := content.hash, bom := content.bom }

def bomLen (d : CollabDoc L) : ℕ := if d.bom then byteOrderMark.length else 0

def content (d : CollabDoc L) : Name := L.getString d.doc

def toDiskBytes (d : CollabDoc L) (content : Name) : Name :=
  if d.bom then byteOrderMark ++ content else content

def hasMissingUpdates (d : CollabDoc L) : Bool := L.hasMissingUpdates d.doc

/-- A new document with another text that still claims what the old one knew of the disk. -/
def rebuildWith (d : CollabDoc L) (content : Name) : CollabDoc L :=
  { new content with diskHash := d.diskHash, textHash := d.textHash, bom := d.bom }

def rebuild (d : CollabDoc L) : CollabDoc L := d.rebuildWith d.content

@[simp] theorem content_fromDisk (c : DiskContent L) : (fromDisk c).content = c.text :=
  L.getString_create c.text

@[simp] theorem textHash_fromDisk (c : DiskContent L) : (fromDisk c).textHash = L.hash c.text := rfl

variable (d : CollabDoc L)

@[simp] theorem textHash_rebuildWith (text : Name) :
    (d.rebuildWith text).textHash = d.textHash := rfl

@[simp] theorem content_rebuild : d.rebuild.content = d.content :=
  L.getString_create d.content

@[simp] theorem textHash_rebuild : d.rebuild.textHash = d.textHash := rfl

end CollabDoc

def isCharBoundary (text : Name) (i : ℕ) : Bool :=
  i = 0 || i = text.length || (text[i]?.any fun b => !isContinuation b)

/-- The loop that lowers the cap to a character boundary. -/
def charFloor (text : Name) : ℕ → ℕ
  | 0 => 0
  | cap + 1 => if isCharBoundary text (cap + 1) then cap + 1 else charFloor text cap

namespace CollabDoc

/-- The document after an accepted update: cut to the size cap, or rebuilt once the updates applied
since the last rebuild pass eight times the cap. -/
def settle (d : CollabDoc L) (sizeCap updateLen : ℕ) : CollabDoc L :=
  if sizeCap < L.len d.doc + d.bomLen then
    let cap := min (sizeCap - d.bomLen) d.content.length
    d.rebuildWith (d.content.take (charFloor d.content cap))
  else
    let d := { d with appliedUpdateBytes := d.appliedUpdateBytes + updateLen }
    if clampU64 (sizeCap * 8) < d.appliedUpdateBytes then d.rebuild else d

/-- The part of `apply_update` under the lock of the document: the document afterwards, and whether
`dirty` is stored, which a refused update skips. -/
def applyUpdate (d : CollabDoc L) (sizeCap : ℕ) (update : L.Update) (updateLen : ℕ) :
    CollabDoc L × Bool :=
  match L.applyUpdate d.doc update with
  | (doc, true) => (settle { d with doc } sizeCap updateLen, true)
  | (doc, false) => ({ d with doc }, false)

@[simp] theorem textHash_settle (d : CollabDoc L) (sizeCap updateLen : ℕ) :
    (d.settle sizeCap updateLen).textHash = d.textHash := by
  unfold settle
  dsimp only
  split_ifs <;> rfl

@[simp] theorem textHash_applyUpdate (d : CollabDoc L) (sizeCap : ℕ) (update : L.Update)
    (updateLen : ℕ) : (d.applyUpdate sizeCap update updateLen).1.textHash = d.textHash := by
  unfold applyUpdate
  split
  · exact textHash_settle _ _ _
  · rfl

/-- An update is refused without a trace in the text. -/
def RefusedCleanly (d : CollabDoc L) (update : L.Update) : Prop :=
  (L.applyUpdate d.doc update).2 = false → L.getString (L.applyUpdate d.doc update).1 = L.getString d.doc

theorem content_applyUpdate_of_clean {d : CollabDoc L} {sizeCap updateLen : ℕ} {update : L.Update}
    (hr : d.RefusedCleanly update) (h : (d.applyUpdate sizeCap update updateLen).2 = false) :
    (d.applyUpdate sizeCap update updateLen).1.content = d.content := by
  unfold applyUpdate at h ⊢
  unfold RefusedCleanly at hr
  cases hu : L.applyUpdate d.doc update with
  | mk doc accepted =>
    rw [hu] at hr
    cases accepted with
    | true => simp [hu] at h
    | false => exact hr rfl

end CollabDoc

end Wings.Collab
