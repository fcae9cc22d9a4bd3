import Wings.Ssh.Sftp.Hidden

/-!
# Wings.Ssh.Sftp.Replies — the replies on two copies of a tree

Two copies of a tree differ in the bytes of files that are hidden from the user.  A request decides by the layout,
which is the same for both, and no request reads bytes of a hidden file.  The user cannot move a hidden file, but
can move a directory with hidden files in it, and a pattern with a path in it does not follow.

* `opendir_safe`, … `checkFile_safe`, `plan_safe` — one lemma for every request.
* `step_agree` — one request on both copies.
* **`replies_agree`**
-/

namespace Wings.Ssh.Sftp

open Lib Filesystem FileTree.RealPath FileTree Option Session

variable {S : Set ℕ} {session : Session} {env : Env} {size : ℕ → ℕ} {l : Layout} {t t' : Tree} {path : Subpath} {ino : ℕ}
  {location : Subpath}

/-! ## The requests -/

section

variable (h : Hidden session S l)
include h

theorem opendir_safe (name : Name) : Safe session S (session.opendir env l name) := by
  unfold opendir
  dsimp only
  repeat' split
  all_goals first | exact h.status _ | skip
  exact (h.insertHandle _ (dir_not_secret _)).reply _

theorem readdir_safe (id : ℕ) : Safe session S (session.readdir env size l id) := by
  unfold readdir
  repeat' split
  all_goals first | exact h.status _ | skip
  · exact (h.setHandle id (dir_not_secret _)).status _
  · exact (h.setHandle id (dir_not_secret _)).reply _

variable (name : Name)

theorem stat_safe : Safe session S (session.stat env size l name) := by
  unfold stat
  repeat' split
  all_goals first | exact h.status _ | exact h.reply _

theorem lstat_safe : Safe session S (session.lstat env size l name) := by
  unfold lstat
  dsimp only
  repeat' split
  all_goals first | exact h.status _ | exact h.reply _

theorem readlink_safe : Safe session S (session.readlink env size l name) := by
  unfold readlink
  dsimp only
  repeat' split
  all_goals first | exact h.status _ | exact h.reply _

theorem mkdir_safe (hasPermissions : Bool) :
    Safe session S (session.mkdir env size l name hasPermissions) := by
  unfold mkdir
  dsimp only
  repeat' split
  all_goals first | exact h.status _ | skip
  all_goals
    rename_i hcreate _
    exact (h.of_filesFrom (createDir_made List.prefix_rfl hcreate).files).status _

end

theorem removeDir_files (h : session.removeDir env t path = some (t', location)) : FilesFrom t t' := by
  unfold removeDir at h
  split_ifs at h
  split at h
  · cases h
  · split at h
    · cases h; exact filesFrom_eraseAt t _ _
    · cases h

theorem removeFile_spec (h : session.removeFile env t path = some t') :
    ∃ d n e, session.place t path = some (d, n) ∧ t.lookup (d ++ [n]) = some (.leaf e) ∧ t' = t.eraseAt d n := by
  unfold removeFile at h
  split_ifs at h
  split at h
  · cases h
  · rename_i d n hplace
    split at h
    · rename_i e he
      cases h
      exact ⟨d, n, e, hplace, he, rfl⟩
    · cases h

theorem removeFile_files (h : session.removeFile env t path = some t') : FilesFrom t t' := by
  obtain ⟨d, n, _, _, _, rfl⟩ := removeFile_spec h
  exact filesFrom_eraseAt t d n

section

variable (h : Hidden session S l)
include h

theorem rmdir_safe (name : Name) : Safe session S (session.rmdir env size l name) := by
  unfold rmdir
  repeat' split
  all_goals first | exact h.status _ | skip
  rename_i hremove
  exact ((h.of_filesFrom (removeDir_files hremove)).relocate _).status _

theorem remove_safe (name : Name) : Safe session S (session.remove env size l name) := by
  unfold remove
  dsimp only
  repeat' split
  all_goals first | exact h.status _ | skip
  rename_i hremove
  exact (h.of_filesFrom (removeFile_files hremove)).status _

theorem Hidden.insertEntry {place : Option (Subpath × FileName)} {e : Entry}
    (hinsert : insertEntry l.tree place (.leaf e) = some (t, location))
    (he : ∀ ino, e = .file ino → ino ∉ S) : Hidden session S { l with tree := t } := by
  obtain ⟨d, n, parent, -, hd, hdir, -, rfl⟩ := insertEntry_spec hinsert
  exact h.insertAt hd hdir he

theorem symlink_safe (link target : Name) : Safe session S (session.symlink env size l link target) := by
  unfold symlink
  dsimp only
  repeat' split
  all_goals first | exact h.status _ | skip
  rename_i hinsert
  split_ifs at hinsert
  exact (h.insertEntry hinsert fun _ heq => by cases heq).status _

theorem Hidden.not_mem_of_canonicalize {text : Subpath} (hpath : session.canonicalize l.tree text = some path)
    (hfile : (session.realPath.locate l.tree path).bind l.tree.lookup = some (.leaf (.file ino)))
    (hvisible : session.hides path = false) : ino ∉ S := by
  obtain ⟨location, hlocate, hlookup⟩ := bind_eq_some_iff.mp hfile
  rw [locate_of_plain (plain_of_canonicalize hpath) hlocate] at hlookup
  exact h.not_mem hlookup hvisible

theorem hardlink_safe (target link : Name) : Safe session S (session.hardlink env l target link) := by
  unfold hardlink
  dsimp only
  repeat' split
  all_goals first | exact h.status _ | skip
  rename_i hpath _ ino hfile hvisible _ _ _ hinsert
  split_ifs at hinsert
  rw [Bool.or_eq_true, not_or] at hvisible
  have hino : ino ∉ S := h.not_mem_of_canonicalize hpath hfile (Bool.not_eq_true _ ▸ hvisible.1)
  exact (h.insertEntry hinsert fun _ heq => by cases heq; exact hino).status _

theorem close_safe (id : ℕ) : Safe session S (close l id) :=
  ⟨⟨h.names, fun id' file hmem => h.handles id' file (List.mem_of_mem_filter hmem), h.allocated⟩, trivial⟩

theorem read_safe (id offset len : ℕ) : Safe session S (read env size l id offset len) := by
  unfold Session.read
  dsimp only
  split
  · exact h.status _
  · split
    · rename_i handle hhandle
      have hino : handle.ino ∉ S := h.handles id handle (mem_of_lookup hhandle)
      have hset : ∀ eofAt, Hidden session S (l.setHandle id (.file { handle with eofAt })) := fun eofAt =>
        h.setHandle id (file_not_secret hino)
      repeat' split
      all_goals first | exact (hset _).status _ | exact ⟨hset _, hino⟩
    · exact h.status _

theorem write_safe (id offset : ℕ) (data : List UInt8) :
    Safe session S (session.write env l id offset data) := by
  unfold write
  split
  · exact h.status _
  · split
    · rename_i handle hhandle
      have hino : handle.ino ∉ S := h.handles id handle (mem_of_lookup hhandle)
      repeat' split
      all_goals first
        | exact h.status _
        | exact ⟨h, trivial⟩
        | exact ⟨h.setHandle id (file_not_secret hino), trivial⟩
    · exact h.status _

theorem checkFile_safe (file : ℕ ⊕ Name) (hash : Name) (startOffset length : ℕ) :
    Safe session S (session.checkFile env l file hash startOffset length) := by
  unfold checkFile
  extract_lets name
  repeat' split
  all_goals first | exact h.status _ | skip
  rename_i hpath _ ino hfile hvisible _ _ _ _ _ _
  obtain ⟨text, -, hpath⟩ := bind_eq_some_iff.mp hpath
  exact ⟨h, h.not_mem_of_canonicalize hpath hfile (Bool.not_eq_true _ ▸ hvisible)⟩

end

/-! ## Opening files -/

variable {o : Opened}

theorem openWith_spec {nextIno : ℕ} {flags : OpenFlags} (h : session.openWith env t nextIno path flags = some o) :
    (session.canonicalize t path = some o.location ∧ t.lookup o.location = some (.leaf (.file o.ino)) ∧ o.tree = t ∧
        o.nextIno = nextIno) ∨
      (o.ino = nextIno ∧ o.nextIno = nextIno + 1 ∧ ∃ place,
        insertEntry t place (.leaf (.file nextIno)) = some (o.tree, o.location)) := by
  unfold openWith at h
  iterate 3 (split at h; · cases h)
  split at h
  · rename_i location hcanon
    split at h
    · rename_i ino hfile
      split_ifs at h
      cases h
      exact .inl ⟨hcanon, hfile, rfl, rfl⟩
    · cases h
  · split_ifs at h
    obtain ⟨⟨t', location⟩, hinsert, heq⟩ := map_eq_some_iff.mp h
    cases heq
    exact .inr ⟨rfl, rfl, _, hinsert⟩

theorem Hidden.next_not_mem (h : Hidden session S l) : l.nextIno ∉ S := fun hmem => lt_irrefl _ (h.allocated _ hmem)

theorem Hidden.openWith (h : Hidden session S l) {flags : OpenFlags}
    (ho : session.openWith env l.tree l.nextIno path flags = some o) :
    Hidden session S { l with tree := o.tree, nextIno := o.nextIno } := by
  rcases openWith_spec ho with ⟨-, -, htree, hnext⟩ | ⟨-, hnext, place, hinsert⟩
  · rw [htree, hnext]
    exact h
  · have hnew := h.insertEntry hinsert fun _ heq => by cases heq; exact h.next_not_mem
    refine ⟨hnew.names, hnew.handles, fun ino hino => ?_⟩
    rw [hnext]
    exact Nat.lt_succ_of_lt (h.allocated ino hino)

theorem exists_located (h : session.canonicalize t path = some location) :
    ∃ location' u, session.realPath.locate t path = some location' ∧ t.lookup location' = some u ∧
      (¬ u.IsLink Entry.isLink → location' = location) := by
  rw [canonicalize] at h
  rcases List.eq_nil_or_concat' path with rfl | ⟨q, n, rfl⟩
  · exact ⟨[], t, rfl, rfl, fun _ => some.inj ((session.realPath.canon_nil t).symm.trans h)⟩
  · cases hq : session.realPath.canon t q with
    | none => rw [session.realPath.canon_parent hq] at h; cases h
    | some d =>
      cases hu : t.lookup (d ++ [n]) with
      | none => rw [session.realPath.canon_missing hq hu] at h; cases h
      | some u =>
        refine ⟨d ++ [n], u, by rw [Resolution.locate_concat, hq]; rfl, hu, fun hlink => ?_⟩
        rw [session.realPath.canon_concat hq hu hlink] at h
        exact some.inj h

theorem lookup_of_canonicalize (hplain : Plain session.realPath t path.dropLast)
    (htype : ∀ u, (session.realPath.locate t path).bind t.lookup = some u → typeOf u = .file)
    (hcanon : session.canonicalize t path = some location) :
    location = path := by
  obtain ⟨location', u, hlocate, hu, heq⟩ := exists_located hcanon
  have hnot : ¬ u.IsLink Entry.isLink := by
    have hfile := htype u (by rw [hlocate]; exact hu)
    cases u with
    | dir _ _ => cases hfile
    | leaf e =>
      cases e with
      | file ino => exact Bool.false_ne_true
      | symlink target => cases hfile
      | special => cases hfile
  rw [← heq hnot, locate_of_plain hplain hlocate]

theorem opened_safe {l : Layout} (h : Hidden session S l) (truncated : Bool) (reply : Reply) :
    Safe session S (opened l o truncated reply) := by
  unfold opened
  split
  · exact ⟨h, trivial⟩
  · exact h.reply _

theorem openChecked_safe (h : Hidden session S l) (flags : OpenFlags) (hvisible : session.hides path = false)
    (hlookup : ∀ location, session.canonicalize l.tree path = some location → location = path) :
    Safe session S (session.openChecked env size l path flags) := by
  unfold openChecked
  dsimp only
  split
  · exact h.status _
  · rename_i o ho
    have hopened := h.openWith ho
    have hino : o.ino ∉ S := by
      rcases openWith_spec ho with ⟨hcanon, hfile, -⟩ | ⟨hino, -⟩
      · rw [hlookup _ hcanon] at hfile
        exact h.not_mem hfile hvisible
      · rw [hino]
        exact h.next_not_mem
    generalize (if o.isNew = true then 0 else size o.ino) = previousSize
    split
    · exact opened_safe hopened _ _
    · split
      · exact opened_safe hopened _ _
      · exact opened_safe (hopened.insertHandle _ (file_not_secret hino)) _ _

theorem hides_of_not_ignored (h : ¬ (session.mayIgnore && session.isIgnored t path .file) = true) :
    session.hides path = false := by
  cases hmay : session.mayIgnore with
  | false => exact session.isIgnored_of_not_mayIgnore _ hmay path .file
  | true =>
    rw [hmay] at h
    exact Bool.not_eq_true _ ▸ h

theorem plain_of_getD (text : Subpath) :
    Plain session.realPath t ((session.canonicalize t text).getD (session.canonicalizeParent t text)).dropLast := by
  cases hcanon : session.canonicalize t text with
  | some path => exact plain_of_canonicalize hcanon
  | none => exact canonicalizeParent_plain text

theorem symlinkMetadata_eq_some {metadata : Metadata} (h : session.symlinkMetadata env size t path = some metadata) :
    ∃ u, (session.realPath.locate t path).bind t.lookup = some u ∧ metadata.fileType = typeOf u := by
  obtain ⟨location, hlocate, hmap⟩ := bind_eq_some_iff.mp h
  obtain ⟨u, hu, rfl⟩ := map_eq_some_iff.mp hmap
  exact ⟨u, by rw [hlocate]; exact hu, rfl⟩

theorem symlinkMetadata_eq_none (h : session.symlinkMetadata env size t path = none) :
    (session.realPath.locate t path).bind t.lookup = none := by
  rw [Session.symlinkMetadata] at h
  cases hlocate : session.realPath.locate t path with
  | none => rfl
  | some location =>
    rw [hlocate] at h
    exact map_eq_none_iff.mp h

theorem typeOf_of_opensAt {create : Bool} (h : opensAt create (session.symlinkMetadata env size t path) = true)
    {u : Tree} (hu : (session.realPath.locate t path).bind t.lookup = some u) : typeOf u = .file := by
  cases hmetadata : session.symlinkMetadata env size t path with
  | none =>
    rw [symlinkMetadata_eq_none hmetadata] at hu
    cases hu
  | some metadata =>
    obtain ⟨u', hu', htype⟩ := symlinkMetadata_eq_some hmetadata
    rw [hu] at hu'
    cases hu'
    rw [hmetadata] at h
    exact htype.symm.trans (of_decide_eq_true h)

section

variable (h : Hidden session S l)
include h

theorem openFile_safe (filename : Name) (flags : OpenFlags) :
    Safe session S (session.openFile env size l filename flags) := by
  unfold openFile
  dsimp only
  have hplain : Plain session.realPath l.tree ((session.canonicalize l.tree (session.relativeText filename)).getD
      (session.canonicalizeParent l.tree (session.relativeText filename))).dropLast := plain_of_getD _
  iterate 6 (split; · exact h.status _)
  split
  · exact h.status _
  · rename_i hopens
    split
    · exact h.status _
    · rename_i hignored
      split
      · exact h.status _
      · exact openChecked_safe h flags (hides_of_not_ignored hignored) fun location hcanon =>
          lookup_of_canonicalize hplain (fun u hu => typeOf_of_opensAt (by simpa using hopens) hu) hcanon

theorem quotaCopy_safe {source text : Subpath} (destination : Subpath)
    (hsource : session.canonicalize l.tree text = some source) (hvisible : session.hides source = false) :
    Safe session S (session.quotaCopy env size l source destination) := by
  unfold quotaCopy
  split
  · exact h.status _
  split
  · exact h.status _
  split
  · rename_i reader writer hreader hwriter
    have hino : reader.ino ∉ S := by
      rcases openWith_spec hreader with ⟨hcanon, hfile, -⟩ | ⟨hino, -⟩
      · rw [canonicalize, session.realPath.canon_canon hsource] at hcanon
        cases hcanon
        exact h.not_mem hfile hvisible
      · rw [hino]
        exact h.next_not_mem
    split
    · exact ⟨h.openWith hwriter, trivial⟩
    · exact ⟨h.openWith hwriter, hino⟩
  · exact h.status _

theorem copyFile_safe (source destination : Name) (overwrite : Bool) :
    Safe session S (session.copyFile env size l source destination overwrite) := by
  unfold copyFile
  dsimp only
  repeat' split
  all_goals first | exact h.status _ | skip
  · rename_i hsource _ _ _ _ hvisible _ _ _
    exact quotaCopy_safe h _ hsource (Bool.not_eq_true _ ▸ hvisible)
  · rename_i hsource _ _ _ _ hvisible _ _ _ _ _ _
    exact quotaCopy_safe h _ hsource (Bool.not_eq_true _ ▸ hvisible)

end

variable (session) in
/-- A request to move a directory leaves the hidden files below it hidden. -/
def KeepsHidden (l : Layout) : Request → Prop
  | .rename oldPath newPath | .posixRename oldPath newPath =>
    ∀ old, session.canonicalize l.tree (session.relativeText oldPath) = some old →
      KeepsBelow session l.tree old (session.canonicalizeParent l.tree (session.relativeText newPath))
  | _ => True

theorem renameRequest_safe (h : Hidden session S l) (replaces : Bool) {oldPath newPath : Name}
    (hkeeps : ∀ old, session.canonicalize l.tree (session.relativeText oldPath) = some old →
      KeepsBelow session l.tree old (session.canonicalizeParent l.tree (session.relativeText newPath))) :
    Safe session S (session.renameRequest env size l replaces oldPath newPath) := by
  unfold renameRequest
  dsimp only
  iterate 3 (split; · exact h.status _)
  split
  · exact h.status _
  · rename_i old hold
    split
    · exact h.status _
    · rename_i metadata hmetadata
      split
      · exact h.status _
      · rename_i hignored
        have hvisible : ∀ ino, l.tree.lookup old = some (.leaf (.file ino)) → session.hides old = false :=
          fun ino hfile => by
          obtain ⟨u, hu, htype⟩ := symlinkMetadata_eq_some hmetadata
          obtain ⟨location, hlocate, hu⟩ := bind_eq_some_iff.mp hu
          rw [locate_of_plain (plain_of_canonicalize hold) hlocate, hfile] at hu
          cases hu
          rw [Bool.or_eq_true, Bool.or_eq_true, not_or, not_or, htype] at hignored
          exact Bool.not_eq_true _ ▸ hignored.1.2
        have hrenamed : Hidden session S (session.renamePath env l old _).2 :=
          renamePath_hidden h hold rfl hvisible (hkeeps old hold)
        split
        · exact hrenamed.status _
        · exact hrenamed.status _

/-- **One request** keeps secret files hidden and reads none of their bytes. -/
theorem plan_safe (h : Hidden session S l) {request : Request} (hkeeps : KeepsHidden session l request) :
    Safe session S (session.plan env size l request) := by
  cases request with
  | opendir path => exact opendir_safe h path
  | readdir handle => exact readdir_safe h handle
  | «open» filename flags => exact openFile_safe h filename flags
  | read handle offset len => exact read_safe h handle offset len
  | write handle offset data => exact write_safe h handle offset data
  | close handle => exact close_safe h handle
  | stat path => exact stat_safe h path
  | lstat path => exact lstat_safe h path
  | readlink path => exact readlink_safe h path
  | mkdir path hasPermissions => exact mkdir_safe h path hasPermissions
  | rmdir path => exact rmdir_safe h path
  | remove filename => exact remove_safe h filename
  | rename oldPath newPath => exact renameRequest_safe h false hkeeps
  | posixRename oldPath newPath => exact renameRequest_safe h true hkeeps
  | symlink linkPath targetPath => exact symlink_safe h linkPath targetPath
  | hardlink target linkName => exact hardlink_safe h target linkName
  | copyFile source destination overwrite => exact copyFile_safe h source destination overwrite
  | checkFile file hash startOffset length => exact checkFile_safe h file hash startOffset length

/-! ## Two copies -/

/-- Two states at the start of a session, without hard links, that differ in the bytes of hidden files. -/
structure Copies (session : Session) (s s' : State) : Prop where
  layout : s.layout = s'.layout
  closed : s.layout.handles = []
  allocated : ∀ path ino, s.layout.tree.lookup path = some (.leaf (.file ino)) → ino < s.layout.nextIno
  oneName : ∀ path path' ino, s.layout.tree.lookup path = some (.leaf (.file ino)) →
    s.layout.tree.lookup path' = some (.leaf (.file ino)) → path = path'
  length : ∀ ino, (s.content ino).length = (s'.content ino).length
  same : ∀ ino, (∀ path, s.layout.tree.lookup path = some (.leaf (.file ino)) → session.hides path = false) →
    s.content ino = s'.content ino

variable {s s' : State}

theorem step_agree (hlayout : s.layout = s'.layout) (hhidden : Hidden session S s.layout)
    (hagree : Agree S s.content s'.content)
    {request : Request × Env} (hkeeps : KeepsHidden session s.layout request.1) :
    (session.step s request).2 = (session.step s' request).2 ∧
    (session.step s request).1.layout = (session.step s' request).1.layout ∧
      Hidden session S (session.step s request).1.layout ∧
      Agree S (session.step s request).1.content (session.step s' request).1.content := by
  have hsize : (fun ino => (s'.content ino).length) = fun ino => (s.content ino).length :=
    funext fun ino => (hagree.length ino).symm
  have hsafe : Safe session S (session.plan request.2 (fun ino => (s.content ino).length) s.layout request.1) :=
    plan_safe hhidden hkeeps
  unfold step
  rw [hsize, ← hlayout]
  obtain ⟨hreply, hcontent⟩ := perform_agree hagree hsafe.clean
  exact ⟨hreply, rfl, hsafe.hidden, hcontent⟩

/-- **Hidden files stay hidden.**  If every request that moves a directory leaves the hidden files below it hidden,
the replies to any sequence of requests are the same on both copies. -/
theorem replies_agree (h : Copies session s s') {requests : List (Request × Env)}
    (hkeeps : Steps session.step (fun _ t request => KeepsHidden session t.layout request.1) s requests) :
    trace session.step s requests = trace session.step s' requests := by
  have hhidden : Hidden session {ino | ∃ path, s.layout.tree.lookup path = some (.leaf (.file ino)) ∧
      session.hides path = true}
      s.layout := by
    refine ⟨?_, fun id handle hmem => ?_, ?_⟩
    · rintro ino ⟨path, hfile, hhides⟩ path' hfile'
      rwa [h.oneName path' path ino hfile' hfile]
    · rw [h.closed] at hmem
      cases hmem
    · rintro ino ⟨path, hfile, -⟩
      exact h.allocated path ino hfile
  have hagree : Agree {ino | ∃ path, s.layout.tree.lookup path = some (.leaf (.file ino)) ∧ session.hides path = true}
      s.content s'.content := by
    refine ⟨h.length, fun ino hino => h.same ino fun path hfile => ?_⟩
    by_contra hhides
    exact hino ⟨path, hfile, Bool.not_eq_false _ ▸ hhides⟩
  generalize {ino | ∃ path, s.layout.tree.lookup path = some (.leaf (.file ino)) ∧
    session.hides path = true} = S at hhidden hagree
  let R (t t' : State) : Prop := t.layout = t'.layout ∧ Hidden session S t.layout ∧ Agree S t.content t'.content
  refine trace_eq_of_steps (R := R) ⟨h.layout, hhidden, hagree⟩ (fun _ t t' request hR hG => ?_) hkeeps
  exact step_agree hR.1 hR.2.1 hR.2.2 hG

/-! ## A hidden file in a directory -/

/-- Patterns without any of the characters that are not taken literally, with a slash in front. -/
def literalGit : Gitignore where
  accepts _ := true
  hits _ pattern path _ := pattern = slash :: [slash].intercalate path

/-- A user from whom `/a/b` is hidden, and who may do everything else. -/
def userWithoutB : Session where
  git := literalGit
  basePath := [.rootDir, .normal nameA, .normal nameA]
  realPath := .literal FileName Entry Unit Entry.isLink
  createAt _ path := path.getLast?.map (path.dropLast, ·)
  isProtected _ _ := false
  isVirtualWriteTarget _ _ := false
  mayBeVirtual := false
  may_of_virtual _ _ h := by cases h
  diskIgnored := ⟨[], false, [], false⟩
  ignoredFiles := .matcher (.fromLines literalGit false [[slash, 0x61, slash, 0x62]])
  hasPermission _ := true
  readOnly := false
  maxHandlesPerChannel := 128
  directoryEntryLimit := 1000
  directoryEntrySendAmount := 100
  digest _ := none

def oneFile (bytes : List UInt8) : State where
  layout := ⟨.dir () [(nameA, .dir () [(nameB, .leaf (.file 0))])], 1, 0, []⟩
  content ino := if ino = 0 then bytes else []

def Env.fine : Env := ⟨true, true, fun _ => (0, 0o644), fun _ => 4096, fun _ => false, none, .none⟩

def readOnlyFlags : OpenFlags := ⟨true, false, false, false, false, false⟩

theorem oneFile_lookup {bytes : List UInt8} (h : (oneFile bytes).layout.tree.lookup path = some (.leaf (.file ino))) :
    path = [nameA, nameB] ∧ ino = 0 := by
  rcases path with _ | ⟨n, _ | ⟨m, rest⟩⟩
  · cases h
  · simp only [oneFile, lookup_cons, child, entries, entry] at h
    split_ifs at h
    · cases h
    · cases h
  · simp only [oneFile, lookup_cons, child, entries, entry] at h
    split_ifs at h with hn
    · simp only [bind_some, entry] at h
      split_ifs at h with hm
      · cases rest with
        | nil => cases h; exact ⟨by rw [hn, hm], rfl⟩
        | cons k rest => cases h
      · cases h
    · cases h

theorem copies_oneFile : Copies userWithoutB (oneFile [0x31]) (oneFile [0x32]) where
  layout := rfl
  closed := rfl
  allocated path ino h := by rw [(oneFile_lookup h).2]; exact Nat.one_pos
  oneName path path' ino h h' := (oneFile_lookup h).1.trans (oneFile_lookup h').1.symm
  length ino := by
    simp only [oneFile]
    split_ifs <;> rfl
  same ino hvisible := by
    rcases eq_or_ne ino 0 with rfl | hne
    · exact absurd (hvisible [nameA, nameB] rfl) (by decide)
    · simp [oneFile, hne]

/-- The hidden file can neither be opened nor moved; another file is written and read. -/
theorem replies_agree_two_files :
    let requests : List (Request × Env) := [(.open [slash, 0x61, slash, 0x62] readOnlyFlags, .fine),
      (.rename [slash, 0x61, slash, 0x62] [slash, 0x63], .fine),
      (.open [slash, 0x61, slash, 0x63] ⟨true, true, false, true, false, false⟩, .fine), (.write 0 0 [0x33], .fine),
      (.read 0 0 100, .fine)]
    Copies userWithoutB (oneFile [0x31]) (oneFile [0x32]) ∧
      (trace userWithoutB.step (oneFile [0x31]) requests).map Prod.snd =
        [.status .noSuchFile, .status .failure, .handle 0, .status .ok, .data [0x33]] ∧
      trace userWithoutB.step (oneFile [0x31]) requests = trace userWithoutB.step (oneFile [0x32]) requests := by
  refine ⟨copies_oneFile, by decide, replies_agree copies_oneFile ?_⟩
  simp only [steps_cons]
  refine ⟨trivial, ?_, trivial, trivial, trivial, steps_nil⟩
  intro old hold rest ino hne hfile
  cases hold
  exact absurd (List.append_cancel_left (oneFile_lookup hfile).1) hne

/-- The directory is moved to `c`, and `c/b` is read. -/
theorem moved_directory_reveals :
    Copies userWithoutB (oneFile [0x31]) (oneFile [0x32]) ∧
    let requests : List (Request × Env) := [(.rename [slash, 0x61] [slash, 0x63], .fine),
      (.open [slash, 0x63, slash, 0x62] readOnlyFlags, .fine), (.read 0 0 100, .fine)]
    (trace userWithoutB.step (oneFile [0x31]) requests).map Prod.snd = [.status .ok, .handle 0, .data [0x31]] ∧
    (trace userWithoutB.step (oneFile [0x32]) requests).map Prod.snd = [.status .ok, .handle 0, .data [0x32]] := by
  refine ⟨copies_oneFile, by decide, by decide⟩

end Wings.Ssh.Sftp
