import Mathlib.Data.List.DropRight
import Wings.Path

/-!
# Wings.Filesystem.IgnoreList — which entries a walk keeps

`server/filesystem/ignore_list.rs`: the lines of an ignore file become patterns, of which the last one that matches
an entry decides.  A line gets a companion for what is inside of what it matches.  A directory that is excluded is
still entered if a re-included path may lie below it, which is told from the literal beginning and the depth of the
pattern.
-/

namespace Wings.Filesystem

/-! ## Patterns -/

/-- The matcher of the crate `ignore`: which lines it accepts, and which paths a pattern matches, with the case of
letters ignored or not.  A pattern is a line without the `!` in front that negates it. -/
structure Gitignore where
  accepts : Name → Bool
  hits : Bool → Name → List Name → Bool → Bool

def isNegated (line : Name) : Bool := line.head? = some 0x21

/-- The line without the `!` that negates it. -/
def bodyOf (line : Name) : Name := if isNegated line then line.tail else line

structure Rule where
  pattern : Name
  isWhitelist : Bool
  deriving DecidableEq

def ruleOf (line : Name) : Rule := { pattern := bodyOf line, isWhitelist := isNegated line }

def inside : Name := [slash, 0x2A, 0x2A]

def hasDoubleStar (text : Name) : Bool := [0x2A, 0x2A] <:+: text

structure DescendRule where
  literalPrefix : Name
  tail : Option ℕ
  deriving DecidableEq

def isLiteral (segment : Name) : Bool := segment.all fun b => b ≠ 0x2A && b ≠ 0x3F && b ≠ 0x5B

/-- The segments of a pattern that are taken literally, and those from the first one that is not. -/
def literalSegments (pattern : Name) : List Name × List Name :=
  (Path.parts [] (pattern.dropWhile (· = slash))).span isLiteral

namespace DescendRule

def parse (pattern : Name) : Option DescendRule :=
  let pattern := pattern.rdropWhile (· = slash)
  if slash ∉ pattern then none
  else
    let literalPrefix := [slash].intercalate (literalSegments pattern).1
    if literalPrefix = [] then none
    else
      let rest := (literalSegments pattern).2
      some { literalPrefix, tail := if rest.any hasDoubleStar then none else some rest.length }

def covers (rule : DescendRule) (path : Name) : Bool :=
  if path = rule.literalPrefix then true
  else if path <+: rule.literalPrefix then (rule.literalPrefix.drop path.length).head? = some slash
  else if rule.literalPrefix <+: path then
    let rest := path.drop rule.literalPrefix.length
    rest.head? = some slash &&
      match rule.tail with
      | none => true
      | some tail => rest.count slash < tail
  else false

end DescendRule

/-! ## The list -/

structure IgnoreList where
  rules : List Rule
  caseInsensitive : Bool
  descend : List DescendRule
  descendAll : Bool

/-- The text that negates a pattern, or nothing. -/
def bangOf (negated : Bool) : Name := if negated then [0x21] else []

/-- `IgnoreListBuilder::try_push_line`: the companion of a line, and whether the line needs a rule for
descending. -/
def companionOf (body : Name) (negated : Bool) : Option Name × Bool :=
  let dirOnly := body.getLast? = some slash
  let stem := body.rdropWhile (· = slash)
  if inside <:+ stem then
    let parent := stem.take (stem.length - inside.length)
    if parent = [] then (none, negated)
    else if dirOnly then (none, true)
    else if slash ∈ parent then (some (bangOf negated ++ parent), negated)
    else (some (bangOf negated ++ slash :: parent), negated)
  else if stem = [] then (none, negated)
  else if slash ∈ stem then (some (bangOf negated ++ stem ++ inside), negated)
  else (some (bangOf negated ++ [0x2A, 0x2A, slash] ++ stem ++ inside), negated)

namespace IgnoreList

variable (git : Gitignore)

def addLine (list : IgnoreList) (line : Name) : Option IgnoreList :=
  if git.accepts line then some { list with rules := list.rules ++ [ruleOf line] } else none

/-- `try_push_line`, of a line that has been trimmed; `none` if it is not accepted. -/
def tryPushLine (list : IgnoreList) (trimmed : Name) : Option IgnoreList :=
  if trimmed = [] ∨ trimmed.head? = some 0x23 then some list
  else
    let body := bodyOf trimmed
    if body = [] then some list
    else
      (list.addLine git trimmed).map fun list =>
        let (companion, needsDescend) := companionOf body (isNegated trimmed)
        let list := (companion.bind (list.addLine git)).getD list
        if needsDescend then
          match DescendRule.parse body with
          | some rule => { list with descend := list.descend ++ [rule] }
          | none => { list with descendAll := true }
        else list

/-- `push_line`: a line that is not accepted has no effect. -/
def pushLine (list : IgnoreList) (trimmed : Name) : IgnoreList := (list.tryPushLine git trimmed).getD list

def fromLines (caseInsensitive : Bool) (lines : List Name) : IgnoreList :=
  lines.foldl (pushLine git) ⟨[], caseInsensitive, [], false⟩

/-- `target_name`: the name that an upload in progress gets in the end, unless that is empty. -/
def targetName (name : Name) : Option Name :=
  let suffix : Name := [0x2E, 0x75, 0x70, 0x6C, 0x6F, 0x61, 0x64, 0x2D, 0x70, 0x61, 0x72, 0x74]
  if suffix <:+ name ∧ name ≠ suffix ∧ validUtf8 name = true then some (name.take (name.length - suffix.length))
  else none

/-- `ignore_match_path`: an upload in progress is treated as the file that it becomes. -/
def ignoreMatchPath (path : Subpath) : List Name :=
  match path.getLast?.bind fun name => targetName name.1 with
  | some target => path.dropLast.map (·.1) ++ [target]
  | none => path.map (·.1)

/-- `excluded`, and `is_ignored`: the last rule that matches decides. -/
def excluded (list : IgnoreList) (path : Subpath) (isDir : Bool) : Bool :=
  if path = [] then false
  else
    match list.rules.reverse.find? fun rule => git.hits list.caseInsensitive rule.pattern (ignoreMatchPath path) isDir with
    | some rule => !rule.isWhitelist
    | none => false

/-- `should_descend`.  The path of an entry has no `/` or `./` in front that would have to be trimmed. -/
def shouldDescend (list : IgnoreList) (path : Subpath) : Bool :=
  list.descendAll || list.descend.any (·.covers ([slash].intercalate (path.map (·.lossy.1))))

inductive Verdict where
  | keep
  | skip
  | descend
  deriving DecidableEq

def verdict (list : IgnoreList) (isDir : Bool) (path : Subpath) : Verdict :=
  if !list.excluded git path isDir then .keep
  else if isDir && list.shouldDescend path then .descend
  else .skip

end IgnoreList

end Wings.Filesystem
