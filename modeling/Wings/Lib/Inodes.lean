import Mathlib.Data.List.Basic

/-!
# Wings.Lib.Inodes — files under names, and files that are held open

A file is an inode with a content; a name is bound to at most one inode, and several names may be bound to one.  A
handle is the inode itself, so that it follows the file when its name is moved and outlives it when the name is
taken away.  The structure carries that names are bound to allocated inodes.
-/

namespace Wings.Lib

open Function Option

/-- Names `κ` bound to inodes, each with a list of `α` as its content. -/
structure Inodes (κ α : Type*) where
  names : κ → Option ℕ
  content : ℕ → List α
  next : ℕ
  allocated : ∀ k ino, names k = some ino → ino < next

namespace Inodes

variable {κ α : Type*} {d d' : Inodes κ α} {k k' : κ} {ino : ℕ}

def empty : Inodes κ α := ⟨fun _ => none, fun _ => [], 0, nofun⟩

/-- What is found under a name. -/
def file (d : Inodes κ α) (k : κ) : Option (List α) := (d.names k).map d.content

theorem file_of_names (h : d.names k = some ino) : d.file k = some (d.content ino) := by
  rw [file, h, map_some]

/-- The content of an inode is replaced, through a handle. -/
def setContent (d : Inodes κ α) (ino : ℕ) (bytes : List α) : Inodes κ α :=
  { d with content := Function.update d.content ino bytes }

@[simp] theorem content_setContent_self (bytes : List α) : (d.setContent ino bytes).content ino = bytes :=
  update_self _ _ _

theorem content_setContent_of_ne {ino' : ℕ} (h : ino' ≠ ino) (bytes : List α) :
    (d.setContent ino bytes).content ino' = d.content ino' :=
  update_of_ne h _ _

/-! ## Frames -/

/-- On the names of `F`, bindings and contents are unchanged. -/
structure Frame (F : Set κ) (d d' : Inodes κ α) : Prop where
  names : ∀ k ∈ F, d'.names k = d.names k
  content : ∀ k ∈ F, ∀ ino, d.names k = some ino → d'.content ino = d.content ino

/-- An inode that has no name in `F`. -/
def Outside (F : Set κ) (d : Inodes κ α) (ino : ℕ) : Prop := ∀ k ∈ F, d.names k ≠ some ino

variable {F : Set κ}

theorem Frame.refl (F : Set κ) (d : Inodes κ α) : Frame F d d := ⟨fun _ _ => rfl, fun _ _ _ _ => rfl⟩

theorem Frame.file (h : Frame F d d') (hk : k ∈ F) : d'.file k = d.file k := by
  rw [Inodes.file, Inodes.file, h.names k hk]
  cases hino : d.names k with
  | none => rfl
  | some ino => rw [map_some, map_some, h.content k hk ino hino]

/-- The name has the inode, with so many elements in it. -/
structure Sized (d : Inodes κ α) (k : κ) (ino n : ℕ) : Prop where
  names : d.names k = some ino
  length : (d.content ino).length = n

theorem Sized.frame {n : ℕ} (h : d.Sized k ino n) (hframe : Frame F d d') (hk : k ∈ F) : d'.Sized k ino n := by
  refine ⟨(hframe.names k hk).trans h.names, ?_⟩
  rw [hframe.content k hk ino h.names, h.length]

theorem frame_setContent (h : Outside F d ino) (bytes : List α) : Frame F d (d.setContent ino bytes) := by
  refine ⟨fun _ _ => rfl, fun k hk ino' hino' => content_setContent_of_ne ?_ bytes⟩
  rintro rfl
  exact h k hk hino'

/-! ## Operations on names -/

section Names

variable [DecidableEq κ]

/-- `open` with `O_CREAT`: a handle for the file, which is made if there is none. -/
def openFile (d : Inodes κ α) (k : κ) : ℕ × Inodes κ α :=
  match h : d.names k with
  | some ino => (ino, d)
  | none =>
    (d.next,
      { names := Function.update d.names k (some d.next)
        content := Function.update d.content d.next []
        next := d.next + 1
        allocated := by
          intro k' ino hk'
          by_cases heq : k' = k
          · rw [heq, Function.update_self] at hk'
            have := Option.some.inj hk'
            omega
          · rw [Function.update_of_ne heq] at hk'
            have := d.allocated k' ino hk'
            omega })

def unlink (d : Inodes κ α) (k : κ) : Inodes κ α :=
  { d with
    names := Function.update d.names k none
    allocated := by
      intro k' ino hk'
      by_cases heq : k' = k
      · rw [heq, Function.update_self] at hk'
        cases hk'
      · rw [Function.update_of_ne heq] at hk'
        exact d.allocated k' ino hk' }

@[simp] theorem names_unlink_self : (d.unlink k).names k = none := update_self _ _ _

theorem names_unlink_of_ne (h : k' ≠ k) : (d.unlink k).names k' = d.names k' := update_of_ne h _ _

theorem names_of_unlink (h : (d.unlink k).names k' = some ino) : k' ≠ k ∧ d.names k' = some ino := by
  by_cases heq : k' = k
  · rw [heq, names_unlink_self] at h
    cases h
  · rw [names_unlink_of_ne heq] at h
    exact ⟨heq, h⟩

/-- A name is bound to the inode that is taken from another name; if it has that inode already, nothing happens. -/
def rename (d : Inodes κ α) (k k' : κ) : Option (Inodes κ α) :=
  match h : d.names k with
  | none => none
  | some ino =>
    if d.names k' = some ino then some d
    else
      some
        { d.unlink k with
          names := Function.update (d.unlink k).names k' (some ino)
          allocated := by
            intro k₁ ino₁ h₁
            by_cases heq : k₁ = k'
            · rw [heq, Function.update_self] at h₁
              exact Option.some.inj h₁ ▸ d.allocated k ino h
            · rw [Function.update_of_ne heq] at h₁
              exact d.allocated k₁ ino₁ (names_of_unlink h₁).2 }

/-! ## What the operations do -/

theorem openFile_of_some (h : d.names k = some ino) : d.openFile k = (ino, d) := by
  unfold openFile
  split
  next ino' h' =>
    rw [h] at h'
    cases h'
    rfl
  next h' =>
    rw [h] at h'
    cases h'

theorem openFile_spec (d : Inodes κ α) (k : κ) :
    (d.openFile k).2.names k = some (d.openFile k).1 ∧
      (∀ k', k' ≠ k → (d.openFile k).2.names k' = d.names k') ∧
      (d.openFile k).2.content (d.openFile k).1 = (d.file k).getD [] ∧
      (∀ ino < d.next, (d.openFile k).2.content ino = d.content ino) ∧ d.next ≤ (d.openFile k).2.next ∧
      (d.names k = none → (d.openFile k).1 = d.next) := by
  unfold openFile
  split
  next ino h =>
    refine ⟨h, fun _ _ => rfl, ?_, fun _ _ => rfl, Nat.le_refl _, fun hnone => ?_⟩
    · rw [file_of_names h, getD_some]
    · rw [h] at hnone
      cases hnone
  next h =>
    refine ⟨update_self _ _ _, fun k' hne => update_of_ne hne _ _, ?_, fun ino hlt => ?_,
      Nat.le_succ _, fun _ => rfl⟩
    · rw [file, h]
      exact update_self _ _ _
    · exact update_of_ne (Nat.ne_of_lt hlt) _ _

theorem rename_spec (h : d.rename k k' = some d') :
    ∃ ino, d.names k = some ino ∧ d'.content = d.content ∧ d'.next = d.next ∧ d'.names k' = some ino ∧
      (d' = d ∨ d'.names k = none) ∧ ∀ k₁, k₁ ≠ k → k₁ ≠ k' → d'.names k₁ = d.names k₁ := by
  unfold rename at h
  split at h
  · cases h
  next ino hino =>
    split_ifs at h with hsame <;> cases h
    · exact ⟨ino, hino, rfl, rfl, hsame, .inl rfl, fun _ _ _ => rfl⟩
    · have hne : k ≠ k' := fun heq => hsame (heq ▸ hino)
      exact ⟨ino, hino, rfl, rfl, update_self _ _ _, .inr ((update_of_ne hne _ _).trans names_unlink_self),
        fun k₁ hk hk' => (update_of_ne hk' _ _).trans (names_unlink_of_ne hk)⟩

/-! ## What they leave alone -/

theorem frame_openFile (hk : k ∉ F) : Frame F d (d.openFile k).2 := by
  obtain ⟨_, hnames, _, hcontent, _⟩ := d.openFile_spec k
  refine ⟨fun k' hk' => hnames k' ?_, fun k' _ ino hino => hcontent ino (d.allocated k' ino hino)⟩
  rintro rfl
  exact hk hk'

/-- A file that is opened has no name in `F` if it had none, or is new. -/
theorem outside_openFile (hk : k ∉ F) (h : ∀ ino, d.names k = some ino → Outside F d ino) :
    Outside F (d.openFile k).2 (d.openFile k).1 := by
  obtain ⟨_, hnames, _, _, _, hfresh⟩ := d.openFile_spec k
  intro k' hk' hino
  rw [hnames k' fun heq => hk (heq ▸ hk')] at hino
  cases hold : d.names k with
  | none => exact absurd (d.allocated k' _ hino) (by rw [hfresh hold]; exact Nat.lt_irrefl _)
  | some ino =>
    rw [openFile_of_some hold] at hino
    exact h ino hold k' hk' hino

theorem frame_unlink (hk : k ∉ F) : Frame F d (d.unlink k) := by
  refine ⟨fun k' hk' => names_unlink_of_ne ?_, fun _ _ _ _ => rfl⟩
  rintro rfl
  exact hk hk'

theorem frame_rename (hk : k ∉ F) (hk' : k' ∉ F) (h : d.rename k k' = some d') : Frame F d d' := by
  obtain ⟨_, _, hcontent, _, _, _, hnames⟩ := rename_spec h
  refine ⟨fun k₁ hk₁ => hnames k₁ ?_ ?_, fun _ _ _ _ => by rw [hcontent]⟩
  · rintro rfl
    exact hk hk₁
  · rintro rfl
    exact hk' hk₁

end Names

end Inodes

end Wings.Lib
