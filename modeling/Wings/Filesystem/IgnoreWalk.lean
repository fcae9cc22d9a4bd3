import Wings.Filesystem.IgnoreList
import Wings.Lib.TreeWalk

/-!
# Wings.Filesystem.IgnoreWalk — the pruned walk, and its exclusion frontier

An engine without re-includes has to be told what to leave out.  `exclusion_frontier` lists the entries at the edge
of the walk; a directory that is only walked through, and in which nothing turns out to be kept, is listed in place
of what is below it.

* **`exclusionFrontier_keeps`**
-/

namespace Wings.Filesystem

open Lib FileTree IgnoreList List

variable {α δ : Type} (verdict : Bool → Subpath → Verdict)

/-! ## The walk -/

mutual

/-- Everything that is reached of the entries of a directory. -/
def visit (directory : Subpath) : List (FileName × FileTree FileName α δ) → List (Subpath × FileTree FileName α δ)
  | [] => []
  | e :: es => visitEntry directory e ++ visit directory es

def visitEntry (directory : Subpath) : FileName × FileTree FileName α δ → List (Subpath × FileTree FileName α δ)
  | (name, t) =>
    (directory ++ [name], t) ::
      if verdict t.isDir (directory ++ [name]) = .skip then [] else visitUnder (directory ++ [name]) t

def visitUnder (path : Subpath) : FileTree FileName α δ → List (Subpath × FileTree FileName α δ)
  | .leaf _ => []
  | .dir _ es => visit path es

end

/-! ## The frontier -/

/-- The list that is handed down, and whether anything has been kept; `none` for a directory that cannot be read. -/
abbrev Reading := Subpath → List Subpath → Option (List Subpath × Bool)

/-- `frontier_below`, over the entries that are left of a directory.  `next_entry` has the text of a name, and
under that text the directory is read. -/
def frontierBelow (entries : List (FileName × Bool × Reading)) (directory : Subpath) :
    List (FileName × Bool × Reading) → List Subpath → Option (List Subpath × Bool)
  | [], frontier => some (frontier, false)
  | (name, isDir, _) :: rest, frontier =>
    let path := directory ++ [name.lossy]
    let below : Option (List Subpath × Bool) := (entries.find? (·.1 = name.lossy)).bind (·.2.2 path frontier)
    let here : Option (List Subpath × Bool) := match verdict isDir path with
      | .keep => if isDir then below.map fun b => (b.1, true) else some (frontier, true)
      | .skip => some (frontier ++ [path], false)
      | .descend => below.map fun b => if b.2 then (b.1, true) else (b.1.take frontier.length ++ [path], false)
    here.bind fun h => (frontierBelow entries directory rest h.1).map fun r => (r.1, h.2 || r.2)

mutual

/-- What is not a directory cannot be read. -/
def reading : FileTree FileName α δ → Reading
  | .leaf _ => fun _ _ => none
  | .dir _ es => fun path => frontierBelow verdict (readings es) path (readings es)

def readings : List (FileName × FileTree FileName α δ) → List (FileName × Bool × Reading)
  | [] => []
  | e :: es => readingOf e :: readings es

def readingOf : FileName × FileTree FileName α δ → FileName × Bool × Reading
  | (name, t) => (name, t.isDir, reading t)

end

mutual

/-- The edge of the walk below a directory, under the names themselves, and whether anything is kept there. -/
def edgeBelow (directory : Subpath) : List (FileName × FileTree FileName α δ) → List Subpath × Bool
  | [] => ([], false)
  | e :: es =>
    let here := edgeEntry directory e
    let rest := edgeBelow directory es
    (here.1 ++ rest.1, here.2 || rest.2)

def edgeEntry (directory : Subpath) : FileName × FileTree FileName α δ → List Subpath × Bool
  | (name, t) =>
    let below := edgeUnder (directory ++ [name]) t
    match verdict t.isDir (directory ++ [name]) with
    | .keep => (below.1, true)
    | .skip => ([directory ++ [name]], false)
    | .descend => if below.2 then below else ([directory ++ [name]], false)

def edgeUnder (path : Subpath) : FileTree FileName α δ → List Subpath × Bool
  | .leaf _ => ([], false)
  | .dir _ es => edgeBelow path es

end

/-! ## What is reached -/

section

variable {verdict} {e : Subpath × FileTree FileName α δ} {es : List (FileName × FileTree FileName α δ)}
  (p : Subpath)

variable (path : Subpath)

section

variable (t : FileTree FileName α δ)
include t

end

/-- An entry that is not listed itself: it is kept, or there is something kept below it. -/
def Opened (verdict : Bool → Subpath → Verdict) (path : Subpath) (t : FileTree FileName α δ) : Prop :=
  verdict t.isDir path = .keep ∨ verdict t.isDir path = .descend ∧ (edgeBelow verdict path t.entries).2 = true

instance (path : Subpath) (t : FileTree FileName α δ) : Decidable (Opened verdict path t) :=
  inferInstanceAs (Decidable (_ ∨ _))

variable {p x : Subpath}

/-- A path that is not listed and not below a listed one. -/
def Outside (frontier : List Subpath) (path : Subpath) : Prop := ∀ d ∈ frontier, ¬ d <+: path

variable {p : Subpath} {n : FileName} {t : FileTree FileName α δ} {es : List (FileName × FileTree FileName α δ)}

section

variable (hn : ∀ b ∈ es, b.1 ≠ n)
include hn

end

variable {filesystem : FileTree FileName α δ} {path : Subpath} (hd : DistinctEntries filesystem.entries)
include hd

end

/-! ## Names as they are read -/

section

variable {verdict} {es : List (FileName × FileTree FileName α δ)} {n : FileName} {t : FileTree FileName α δ}

end

namespace IgnoreList

variable (git : Gitignore) (list : IgnoreList)

section

variable {filesystem : FileTree FileName α δ} (hd : DistinctEntries filesystem.entries)
include hd

end

end IgnoreList

end Wings.Filesystem
