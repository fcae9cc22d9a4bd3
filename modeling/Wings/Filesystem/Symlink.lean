import Wings.Filesystem.Tree

/-!
# Wings.Filesystem.Symlink — what is written into a symbolic link

`CapFilesystem::resolve_symlink_contents`: the checks of the `create_symlink` route are made on the resolved
target, and the link is given a path from its own directory to it.

* **`resolveSymlinkContents_follow`**
-/

namespace Wings.Filesystem

open List

def stripRoot (path : Path) : Option Path := if [.rootDir] <+: path then some (path.drop 1) else none

/-- What two paths have after the components they begin with in common. -/
def dropCommon : Subpath → Subpath → Subpath × Subpath
  | a :: as, b :: bs => if a = b then dropCommon as bs else (a :: as, b :: bs)
  | as, bs => (as, bs)

def pushText (text : Name) (component : Component) : Name :=
  if text = [] then component.asOsStr else text ++ slash :: component.asOsStr

def pathText (path : Path) : Name := path.foldl pushText []

/-- The directory of a link; the root is its own. -/
def linkDirectory (link : Path) : Subpath := (resolvePath ((stripRoot link).getD link)).dropLast

def resolveSymlinkContents (link target : Path) : Name × Subpath :=
  let directory := linkDirectory link
  let resolved :=
    match stripRoot target with
    | some target => resolvePath target
    | none => resolvePath (Path.join (directory.map .normal) target)
  let (up, down) := dropCommon directory resolved
  let contents := pathText (up.map (fun _ => .parentDir) ++ down.map .normal)
  (if contents = [] then Component.curDir.asOsStr else contents, resolved)

/-- The directory that is reached from another; `none` above the root. -/
def follow : Subpath → Path → Option Subpath
  | dir, [] => some dir
  | dir, .normal name :: rest => follow (dir ++ [name]) rest
  | dir, .parentDir :: rest => if dir = [] then none else follow dir.dropLast rest
  | dir, .curDir :: rest => follow dir rest
  | _, .rootDir :: _ => none

/-! ## The text of a path -/

variable {dir : Subpath} {path : Path} {component : Component}

/-- A component that is written as such between slashes. -/
def IsStep : Component → Prop
  | .parentDir | .normal _ => True
  | .rootDir | .curDir => False

theorem asOsStr_step (h : IsStep component) :
    component.asOsStr ≠ [] ∧ slash ∉ component.asOsStr ∧ Path.componentOf component.asOsStr = some component := by
  cases component with
  | parentDir => decide
  | normal name => exact ⟨name.2.1, name.2.2.1, dif_pos name.2⟩
  | rootDir => exact h.elim
  | curDir => exact h.elim

theorem parts_pathText (hpath : path ≠ []) (h : ∀ c ∈ path, IsStep c) :
    pathText path ≠ [] ∧ Path.parts [] (pathText path) = path.map Component.asOsStr := by
  induction path using reverseRecOn with
  | nil => exact absurd rfl hpath
  | append_singleton path c ih =>
    obtain ⟨hinit, hc⟩ := forall_mem_append.1 h
    obtain ⟨hne, hslash, -⟩ := asOsStr_step (hc c (mem_singleton_self c))
    rw [pathText, foldl_append, ← pathText, foldl_cons, foldl_nil]
    rcases eq_or_ne path [] with rfl | hpath
    · exact ⟨hne, Path.parts_of_no_slash hslash⟩
    · obtain ⟨htext, hparts⟩ := ih hpath hinit
      rw [pushText, if_neg htext, Path.parts_append_slash, hparts, Path.parts_of_no_slash hslash, map_append]
      exact ⟨by simp, rfl⟩

/-- A path that is pushed together is read as it was; it does not begin with a slash. -/
theorem components_pathText (h : ∀ c ∈ path, IsStep c) :
    ¬ [slash] <+: pathText path ∧ Path.components (pathText path) = path := by
  rcases eq_or_ne path [] with rfl | hpath
  · decide
  obtain ⟨-, hparts⟩ := parts_pathText hpath h
  have hroot : ¬ [slash] <+: pathText path := by
    rintro ⟨rest, hrest⟩
    -- a leading slash ends an empty part, and no component is written so
    rw [← hrest, singleton_append, Path.parts, if_pos rfl] at hparts
    obtain ⟨c, hc, hempty⟩ := mem_map.1 (hparts ▸ mem_cons_self)
    exact (asOsStr_step (h c hc)).1 hempty
  refine ⟨hroot, ?_⟩
  rw [Path.components, if_neg hroot, hparts, filterMap_map]
  exact (filterMap_congr fun c hc => (asOsStr_step (h c hc)).2.2).trans filterMap_some

/-! ## Following the contents -/

theorem dropCommon_spec (as bs : Subpath) :
    ∃ common, as = common ++ (dropCommon as bs).1 ∧ bs = common ++ (dropCommon as bs).2 := by
  induction as generalizing bs with
  | nil => exact ⟨[], rfl, rfl⟩
  | cons a as ih =>
    cases bs with
    | nil => exact ⟨[], rfl, rfl⟩
    | cons b bs =>
      rw [dropCommon]
      split_ifs with heq
      · obtain ⟨common, has, hbs⟩ := ih bs
        exact ⟨a :: common, congrArg (a :: ·) has, heq ▸ congrArg (a :: ·) hbs⟩
      · exact ⟨[], rfl, rfl⟩

theorem follow_up (up : Subpath) (rest : Path) :
    follow (dir ++ up) (up.map (fun _ => .parentDir) ++ rest) = follow dir rest := by
  induction up using reverseRecOn with
  | nil => simp
  | append_singleton up name ih =>
    have hcomm : (up ++ [name]).map (fun _ => Component.parentDir) = .parentDir :: up.map fun _ => .parentDir := by
      rw [map_const', map_const', length_append]
      rfl
    rw [hcomm, cons_append, follow, if_neg (by simp), ← append_assoc, dropLast_concat, ih]

theorem follow_down (down : Subpath) : follow dir (down.map .normal) = some (dir ++ down) := by
  induction down generalizing dir with
  | nil => simp [follow]
  | cons name down ih => rw [map_cons, follow, ih, append_assoc]; rfl

/-- **The contents of a symbolic link lead to where the checks looked**: they are relative and not empty, and from
the link's directory they lead to the resolved target, at no step above the root. -/
theorem resolveSymlinkContents_follow (link target : Path) :
    (resolveSymlinkContents link target).1 ≠ [] ∧ ¬ [slash] <+: (resolveSymlinkContents link target).1 ∧
      follow (linkDirectory link) (Path.components (resolveSymlinkContents link target).1) =
        some (resolveSymlinkContents link target).2 := by
  unfold resolveSymlinkContents
  extract_lets directory resolved
  obtain ⟨common, hdir, hres⟩ := dropCommon_spec directory resolved
  generalize dropCommon directory resolved = paths at hdir hres ⊢
  obtain ⟨up, down⟩ := paths
  dsimp only at hdir hres ⊢
  have hstep : ∀ c ∈ up.map (fun _ => Component.parentDir) ++ down.map .normal, IsStep c := by
    intro c hc
    rcases mem_append.1 hc with hc | hc
    · obtain ⟨-, -, rfl⟩ := mem_map.1 hc
      exact trivial
    · obtain ⟨name, -, rfl⟩ := mem_map.1 hc
      exact trivial
  have hfollow : follow directory (up.map (fun _ => .parentDir) ++ down.map .normal) = some resolved := by
    rw [hdir, follow_up, follow_down, ← hres]
  obtain ⟨hroot, hcomponents⟩ := components_pathText hstep
  split_ifs with hempty
  · refine ⟨by decide, by decide, ?_⟩
    rw [hempty] at hcomponents
    rw [← hcomponents] at hfollow
    exact hfollow
  · exact ⟨hempty, hroot, hcomponents.symm ▸ hfollow⟩

end Wings.Filesystem
