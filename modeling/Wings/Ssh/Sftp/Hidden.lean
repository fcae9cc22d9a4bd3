import Wings.Ssh.Sftp.Requests

/-!
# Wings.Ssh.Sftp.Hidden — files that are hidden, and what the calls do to them

A set of files is secret: every name of them is hidden from the user, and none of them is open.

* `insertEntry_spec`, `makeParents_made`, `rename_spec` — what the calls do to the names of files.
-/

namespace Wings.Ssh.Sftp

open Lib Filesystem FileTree Session List

/-! ## Bytes -/

/-- The same lengths, and the same bytes but for secret files. -/
structure Agree (S : Set ℕ) (c c' : ℕ → List UInt8) : Prop where
  length : ∀ ino, (c ino).length = (c' ino).length
  same : ∀ ino ∉ S, c ino = c' ino

/-- No bytes of a secret file are read. -/
def Clean (S : Set ℕ) : Action → Prop
  | .read ino _ _ => ino ∉ S
  | .copy source _ _ => source ∉ S
  | .hash _ _ ino _ _ => ino ∉ S
  | _ => True

variable {S : Set ℕ} {c c' : ℕ → List UInt8}

theorem Agree.update (h : Agree S c c') (ino : ℕ) {data data' : List UInt8} (hlen : data.length = data'.length)
    (hsame : ino ∉ S → data = data') : Agree S (Function.update c ino data) (Function.update c' ino data') := by
  refine ⟨fun i => ?_, fun i hi => ?_⟩
  · rcases eq_or_ne i ino with rfl | hne
    · rw [Function.update_self, Function.update_self, hlen]
    · rw [Function.update_of_ne hne, Function.update_of_ne hne, h.length]
  · rcases eq_or_ne i ino with rfl | hne
    · rw [Function.update_self, Function.update_self, hsame hi]
    · rw [Function.update_of_ne hne, Function.update_of_ne hne, h.same i hi]

theorem perform_agree (h : Agree S c c') {action : Action} (hclean : Clean S action) :
    (perform c action).2 = (perform c' action).2 ∧ Agree S (perform c action).1 (perform c' action).1 := by
  cases action with
  | reply reply => exact ⟨rfl, h⟩
  | truncate ino reply => exact ⟨rfl, h.update ino rfl fun _ => rfl⟩
  | read ino offset len => exact ⟨by rw [perform, perform, h.same ino hclean], h⟩
  | write ino offset data reply =>
    refine ⟨rfl, h.update ino ?_ fun hino => ?_⟩
    · rw [length_store, length_store, h.length]
    · rw [h.same ino hino]
  | copy source destination accepted =>
    have hcleared := @Agree.update _ _ _ h destination [] [] rfl fun _ => rfl
    have hdata := hcleared.same source hclean
    cases accepted with
    | none => exact ⟨rfl, hcleared.update destination (by rw [hdata]) fun _ => hdata⟩
    | some n => exact ⟨rfl, hcleared.update destination (by rw [hdata]) fun _ => by rw [hdata]⟩
  | hash hashAlgorithm digest ino startOffset length => exact ⟨by rw [perform, perform, h.same ino hclean], h⟩

/-! ## Names -/

/-- Every file of the second tree is in the first one, under the same name. -/
def FilesFrom (t t' : Tree) : Prop :=
  ∀ path ino, t'.lookup path = some (.leaf (.file ino)) → t.lookup path = some (.leaf (.file ino))

theorem FilesFrom.refl (t : Tree) : FilesFrom t t := fun _ _ h => h

theorem FilesFrom.trans {t t' t'' : Tree} (h : FilesFrom t t') (h' : FilesFrom t' t'') : FilesFrom t t'' :=
  fun path ino hfile => h path ino (h' path ino hfile)

theorem filesFrom_eraseAt (t : Tree) (d : Subpath) (n : FileName) : FilesFrom t (t.eraseAt d n) :=
  fun _ _ h => leaf_of_eraseAt h

/-- Every name of a secret file is hidden, and no secret file is open. -/
structure Hidden (session : Session) (S : Set ℕ) (l : Layout) : Prop where
  names : ∀ ino ∈ S, ∀ path, l.tree.lookup path = some (.leaf (.file ino)) → session.hides path = true
  handles : ∀ id handle, (id, ServerHandle.file handle) ∈ l.handles → handle.ino ∉ S
  allocated : ∀ ino ∈ S, ino < l.nextIno

/-- What a request decides keeps secret files hidden and does not read them. -/
structure Safe (session : Session) (S : Set ℕ) (result : Layout × Action) : Prop where
  hidden : Hidden session S result.1
  clean : Clean S result.2

variable {session : Session} {env : Env} {size : ℕ → ℕ} {l : Layout} {t t' : Tree} {path : Subpath} {ino : ℕ}
  {handle : ServerHandle}

section

variable (h : Hidden session S l)
include h

theorem Hidden.status (code : StatusCode) : Safe session S (l.status code) := ⟨h, trivial⟩

theorem Hidden.reply (reply : Reply) : Safe session S (l, .reply reply) := ⟨h, trivial⟩

theorem Hidden.not_mem (hfile : l.tree.lookup path = some (.leaf (.file ino)))
    (hvisible : session.hides path = false) : ino ∉ S := fun hmem => by
  rw [h.names ino hmem path hfile] at hvisible
  cases hvisible

theorem Hidden.of_filesFrom (hfrom : FilesFrom l.tree t) : Hidden session S { l with tree := t } :=
  ⟨fun ino hino path hfile => h.names ino hino path (hfrom path ino hfile), h.handles, h.allocated⟩

theorem Hidden.relocate (f : Subpath → Option Subpath) :
    Hidden session S (l.relocate f) := by
  refine ⟨h.names, fun id handle hmem => ?_, h.allocated⟩
  obtain ⟨⟨id', handle'⟩, hmem', heq⟩ := mem_map.mp hmem
  cases handle' with
  | file handle' => cases heq; exact h.handles id handle hmem'
  | dir handle' => cases heq

theorem Hidden.setHandle (id : ℕ) (hhandle : ∀ file, handle = .file file → file.ino ∉ S) :
    Hidden session S (l.setHandle id handle) := by
  refine ⟨h.names, fun id' file hmem => ?_, h.allocated⟩
  obtain ⟨⟨i, old⟩, hmem', heq⟩ := mem_map.mp hmem
  dsimp only at heq
  split_ifs at heq
  · cases heq; exact hhandle file rfl
  · cases heq; exact h.handles _ file hmem'

theorem Hidden.insertHandle (opens : Bool) (hhandle : ∀ file, handle = .file file → file.ino ∉ S) :
    Hidden session S (l.insertHandle opens handle).1 := by
  rw [Layout.insertHandle]
  split_ifs
  · refine ⟨h.names, fun id file hmem => ?_, h.allocated⟩
    rcases mem_append.mp hmem with hmem | hmem
    · exact h.handles id file hmem
    · cases mem_singleton.mp hmem
      exact hhandle file rfl
  · exact { h with }

end

theorem dir_not_secret (dir : DirHandle) : ∀ file, ServerHandle.dir dir = .file file → file.ino ∉ S :=
  fun _ heq => by cases heq

theorem file_not_secret {handle : FileHandle} (hino : handle.ino ∉ S) :
    ∀ file, ServerHandle.file handle = .file file → file.ino ∉ S := fun _ heq => by cases heq; exact hino

theorem mem_of_lookup {id : ℕ} {handles : List (ℕ × ServerHandle)}
    (h : handles.lookup id = some handle) : (id, handle) ∈ handles := by
  obtain ⟨l₁, l₂, rfl, -⟩ := lookup_eq_some_iff.mp h
  simp

/-! ## The calls -/

open FileTree.RealPath

variable {location : Subpath}

theorem insertEntry_spec {place : Option (Subpath × FileName)} {node : Tree}
    (h : insertEntry t place node = some (t', location)) :
    ∃ d n parent, place = some (d, n) ∧ t.lookup d = some parent ∧ parent.isDir = true ∧ t.lookup (d ++ [n]) = none ∧
      t' = t.insertAt d n node := by
  cases place with
  | none => cases h
  | some place =>
    obtain ⟨d, n⟩ := place
    unfold insertEntry at h
    dsimp only at h
    split at h
    · rename_i parent hd hn
      split_ifs at h with hdir
      cases h
      exact ⟨d, n, parent, rfl, hd, hdir, hn, rfl⟩
    · cases h

variable {d : Subpath} {n : FileName}

theorem Hidden.insertAt (h : Hidden session S l) {parent : Tree} {e : Entry}
    (hd : l.tree.lookup d = some parent) (hdir : parent.isDir = true) (he : ∀ ino, e = .file ino → ino ∉ S) :
    Hidden session S { l with tree := l.tree.insertAt d n (.leaf e) } := by
  refine ⟨fun ino hino path hfile => ?_, h.handles, h.allocated⟩
  rcases leaf_of_insertAt hd hdir hfile with hfile | ⟨rest, rfl, hleaf⟩
  · exact h.names ino hino path hfile
  · cases rest with
    | nil => cases hleaf; exact absurd hino (he ino rfl)
    | cons m rest => cases hleaf

theorem place_spec (h : session.place t path = some (d, n)) :
    ∃ q, path = q ++ [n] ∧ session.realPath.canon t q = some d := by
  rw [place] at h
  split at h
  · cases h
  · rename_i name hlast
    obtain ⟨d', hcanon, heq⟩ := Option.map_eq_some_iff.mp h
    cases heq
    obtain ⟨q, rfl⟩ := getLast?_eq_some_iff.mp hlast
    rw [dropLast_concat] at hcanon
    exact ⟨q, rfl, hcanon⟩

variable {fault : Option MkdirError}

theorem createDir_spec (h : session.createDir t fault path = .ok t') :
    ∃ q n d parent, path = q ++ [n] ∧ session.realPath.canon t q = some d ∧ t.lookup d = some parent ∧
    parent.isDir = true ∧
      t.lookup (d ++ [n]) = none ∧ t' = t.insertAt d n (.dir () []) := by
  unfold Session.createDir at h
  cases fault with
  | some err => cases h
  | none =>
    dsimp only at h
    split at h
    · cases h
    · rename_i d n hplace
      split at h
      · cases h
      · rename_i parent hd
        split_ifs at h with hdir
        split at h
        · cases h
        · rename_i hn
          cases h
          obtain ⟨q, hq, hcanon⟩ := place_spec hplace
          exact ⟨q, n, d, parent, hq, hcanon, hd, by simpa using hdir, hn, rfl⟩

/-- What making directories up to `path` does to a tree. -/
structure Made (session : Session) (t t' : Tree) (path : Subpath) : Prop where
  extends_ : FileTree.Extends t t'
  files : FilesFrom t t'
  plain : Plain session.realPath t path → Plain session.realPath t' path

theorem Made.refl (t : Tree) (path : Subpath) : Made session t t path := ⟨.refl t, .refl t, id⟩

theorem Made.trans {t'' : Tree} (h : Made session t t' path) (h' : Made session t' t'' path) : Made session t t'' path :=
  ⟨h.extends_.trans h'.extends_, h.files.trans h'.files, fun hplain => h'.plain (h.plain hplain)⟩

theorem createDir_made {q : Subpath} (hq : q <+: path)
    (h : session.createDir t fault q = .ok t') : Made session t t' path := by
  obtain ⟨q, n, d, parent, rfl, hcanon, hd, hdir, hn, rfl⟩ := createDir_spec h
  refine ⟨extends_insertAt _ hd hdir hn, fun p ino hfile => ?_, fun hplain => hplain.insertDir hq hcanon hd hdir hn⟩
  rcases leaf_of_insertAt hd hdir hfile with hfile | ⟨rest, rfl, hleaf⟩
  · exact hfile
  · cases rest with
    | nil => cases hleaf
    | cons m rest => cases hleaf

variable {P : Tree → Prop}

section

variable (hstep : ∀ {t t' fault q}, P t → q <+: path → session.createDir t fault q = .ok t' → P t')
include hstep

theorem createDirs_induction {done rest : Subpath} (i : ℕ) (hpath : done ++ rest <+: path) (ht : P t) :
    P (session.createDirs env i t done rest).2 := by
  induction rest generalizing i t done with
  | nil => exact ht
  | cons n rest ih =>
    have hrest : done ++ [n] ++ rest <+: path := by simpa using hpath
    rw [Session.createDirs]
    cases hc : session.createDir t (env.faults.mkdir i) (done ++ [n]) with
    | ok t' =>
      have ht' := hstep ht ((prefix_append _ _).trans hrest) hc
      split_ifs
      · exact ht'
      · exact ih (i + 1) hrest ht'
    | error err =>
      cases err with
      | alreadyExists => exact ih (i + 1) hrest ht
      | notFound => exact ht
      | other => exact ht

/-- What a directory that is made keeps is kept when all of them are made. -/
theorem createChownedDirAll_induction (ht : P t) : P (session.createChownedDirAll env t path).2 := by
  unfold createChownedDirAll
  split_ifs
  · exact ht
  · cases hc : session.createDir t (env.faults.mkdir 0) path with
    | ok t' => exact hstep ht prefix_rfl hc
    | error err =>
      cases err with
      | alreadyExists => exact ht
      | notFound => exact createDirs_induction hstep 1 prefix_rfl ht
      | other => exact ht

end

theorem makeParents_induction (ht : P t)
    (hstep : ∀ {t t' fault q}, P t → q <+: path.dropLast → session.createDir t fault q = .ok t' → P t') :
    P (session.makeParents env t path).2 := by
  rw [Session.makeParents]
  split_ifs
  · exact createChownedDirAll_induction hstep ht
  · exact ht

theorem makeParents_made : Made session t (session.makeParents env t path).2 path.dropLast :=
  makeParents_induction (P := fun t' => Made session t t' path.dropLast) (.refl _ _) fun hmade hq hc =>
    hmade.trans (createDir_made hq hc)

section

variable (hplain : Plain session.realPath t path.dropLast)
include hplain

theorem place_of_plain (h : session.place t path = some (d, n)) : d ++ [n] = path := by
  obtain ⟨q, rfl, hcanon⟩ := place_spec h
  rw [dropLast_concat] at hplain
  rw [hplain.canon_eq hcanon]

theorem locate_of_plain (h : session.realPath.locate t path = some location) : location = path := by
  rw [Resolution.locate] at h
  split at h
  · rename_i hnil
    cases h
    exact (getLast?_eq_none_iff.mp hnil).symm
  · rename_i name hlast
    obtain ⟨d, hcanon, rfl⟩ := Option.map_eq_some_iff.mp h
    obtain ⟨q, rfl⟩ := getLast?_eq_some_iff.mp hlast
    rw [dropLast_concat] at hplain hcanon
    rw [hplain.canon_eq hcanon]

end

theorem plain_of_canonicalize {text : Subpath} (h : session.canonicalize t text = some path) :
    Plain session.realPath t path.dropLast := by
  have habove := dropLast_prefix path
  exact plain_of_literal (literal_above (session.realPath.canon_literal h) habove)

/-! ## Renaming -/

theorem rename_spec {old new : Subpath} {change : Option (Subpath × Subpath)}
    (h : session.rename t old new = some (t', change)) :
    ∃ od on nd nn u parent, session.place t old = some (od, on) ∧ session.place t new = some (nd, nn) ∧
      t.lookup (od ++ [on]) = some u ∧ t.lookup nd = some parent ∧ parent.isDir = true ∧
      (od ++ [on] = nd ++ [nn] ∧ t' = t ∨ ¬ od ++ [on] <+: nd ++ [nn] ∧
        ((t.lookup (nd ++ [nn])).any (sameFile u) = true ∧ t' = t ∨ (t.lookup (nd ++ [nn])).any (sameFile u) = false ∧
          (t.lookup (nd ++ [nn])).all (replaces u) = true ∧ t' = t.moveTo od on nd nn u)) := by
  unfold Session.rename at h
  split at h
  · rename_i od on nd nn hold hnew
    split at h
    · rename_i u parent hu hparent
      refine ⟨od, on, nd, nn, u, parent, hold, hnew, hu, hparent, ?_⟩
      split_ifs at h with hdir hsame hbelow hfile hreplace
      · cases h; exact ⟨by simpa using hdir, .inl ⟨hsame, rfl⟩⟩
      · cases h; exact ⟨by simpa using hdir, .inr ⟨hbelow, .inl ⟨hfile, rfl⟩⟩⟩
      · cases h; exact ⟨by simpa using hdir, .inr ⟨hbelow, .inr ⟨by simpa using hfile, hreplace, rfl⟩⟩⟩
    · cases h
  · cases h

/-- What `rename_path` leaves: the parents of the new path, and if it succeeds what `rename` makes of them. -/
theorem renamePath_spec (env : Env) (l : Layout) (old new : Subpath) :
    (∃ t, Made session l.tree t new.dropLast ∧ session.renamePath env l old new = (false, { l with tree := t })) ∨
    ∃ t' change, session.rename (session.makeParents env l.tree new).2 old new = some (t', change) ∧
      session.renamePath env l old new = (true, { l with tree := t' }.relocate (moved change)) := by
  have hmade := @makeParents_made session env l.tree new
  unfold Session.renamePath
  split
  · exact .inl ⟨_, .refl _ _, rfl⟩
  · generalize session.makeParents env l.tree new = result at hmade
    obtain ⟨made, t⟩ := result
    dsimp only at hmade ⊢
    split
    · exact .inl ⟨t, hmade, rfl⟩
    split
    · exact .inl ⟨t, hmade, rfl⟩
    split
    · exact .inl ⟨t, hmade, rfl⟩
    · rename_i t' change hrename
      split_ifs at hrename
      exact .inr ⟨t', change, hrename, rfl⟩

variable {old new text text' : Subpath}

theorem places_of_rename {od nd : Subpath} {on nn : FileName}
    (hold : session.canonicalize t text = some old) (hnew : new = session.canonicalizeParent t text')
    (ho : session.place (session.makeParents env t new).2 old = some (od, on))
    (hn : session.place (session.makeParents env t new).2 new = some (nd, nn)) : od ++ [on] = old ∧ nd ++ [nn] = new := by
  have hmade := @makeParents_made session env t new
  have hliteral := (session.realPath.canon_literal hold).of_extends hmade.extends_
  exact ⟨place_of_plain (plain_of_literal (literal_above hliteral (List.dropLast_prefix old))) ho,
    place_of_plain (hmade.plain (hnew ▸ canonicalizeParent_plain text')) hn⟩

variable (session) in
/-- The files that are hidden below the old path are hidden below the new one. -/
def KeepsBelow (t : Tree) (old new : Subpath) : Prop :=
  ∀ rest ino, rest ≠ [] → t.lookup (old ++ rest) = some (.leaf (.file ino)) → session.hides (old ++ rest) = true →
    session.hides (new ++ rest) = true

/-- **A rename keeps secret files hidden** if what is moved is visible and what is below it stays hidden. -/
theorem renamePath_hidden (h : Hidden session S l)
    (hold : session.canonicalize l.tree text = some old) (hnew : new = session.canonicalizeParent l.tree text')
    (hvisible : ∀ ino, l.tree.lookup old = some (.leaf (.file ino)) → session.hides old = false)
    (hbelow : KeepsBelow session l.tree old new) : Hidden session S (session.renamePath env l old new).2 := by
  rcases renamePath_spec env l old new with ⟨t, hmade, heq⟩ | ⟨t', change, hrename, heq⟩
  · rw [heq]
    exact h.of_filesFrom hmade.files
  rw [heq]
  have hmade := @makeParents_made session env l.tree new
  have hparents := h.of_filesFrom hmade.files
  refine Hidden.relocate ?_ _
  obtain ⟨od, on, nd, nn, u, parent, ho, hn, hu, hparent, hdir, hcases⟩ := rename_spec hrename
  rcases hcases with ⟨-, rfl⟩ | ⟨hnot, ⟨-, rfl⟩ | ⟨-, -, rfl⟩⟩
  · exact hparents
  · exact hparents
  · obtain ⟨rfl, rfl⟩ := places_of_rename hold hnew ho hn
    refine ⟨fun ino hino path hfile => ?_, h.handles, h.allocated⟩
    rcases leaf_of_moveTo hu hparent hdir hnot hfile with hleaf | ⟨rest, rfl, hleaf⟩
    · exact hparents.names ino hino path hleaf
    · have hbefore := hmade.files _ _ hleaf
      have hhidden := h.names ino hino _ hbefore
      rcases eq_or_ne rest [] with rfl | hne
      · rw [append_nil] at hbefore hhidden
        rw [hvisible ino hbefore] at hhidden
        cases hhidden
      · have hmoved := hbelow rest ino hne hbefore hhidden
        rwa [append_assoc] at hmoved

end Wings.Ssh.Sftp
