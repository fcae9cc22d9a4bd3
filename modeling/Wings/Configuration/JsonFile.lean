import Wings.Configuration.Process
import Wings.Lib.Json

/-!
# Wings.Configuration.JsonFile — replacements in JSON files

`server/configuration/process/json.rs`.  A replacement names a place in the document by a path of keys and indices;
`*` stands for all children of a node.

* `PathSegment`, `parsePath`, `expandMatchPath` — paths, and what a `*` stands for.
* `getNestedValue`, `setNestedValue` — the value at a path; setting it makes, pads and replaces what is on the way.
* `processFile` — all replacements of a file.
* **`nested_assignment_laws`**
-/

namespace Wings.Configuration

open Lib List

/-! ## Paths -/

inductive PathSegment
  | key (key : String)
  | index (index : ℕ)
  deriving DecidableEq

namespace PathSegment

def parseUsize (text : Text) : Option ℕ :=
  let digits := if text.head? = some '+' then text.tail else text
  if digits ≠ [] ∧ digits.all Char.isDigit then
    let n := digits.foldl (fun n c => n * 10 + (c.toNat - '0'.toNat)) 0
    if n < 2 ^ 64 then some n else none
  else none

/-- The loop over the brackets of a part; every round takes a `]`. -/
def parseBrackets : ℕ → Text → List PathSegment
  | 0, _ => []
  | fuel + 1, rest =>
    let head := rest.takeWhile (· ≠ ']')
    match rest.drop head.length with
    | [] => []
    | _ :: tail =>
      (if head.head? = some '[' then ((parseUsize head.tail).map index).toList else []) ++ parseBrackets fuel tail

def parsePart (part : Text) : List PathSegment :=
  if part = [] then []
  else
    let key := part.takeWhile (· ≠ '[')
    let rest := part.drop key.length
    if rest = [] then [.key (String.ofList part)]
    else (if key = [] then [] else [.key (String.ofList key)]) ++ parseBrackets rest.length rest

end PathSegment

def parsePath (raw : Text) : List PathSegment := (raw.splitOn '.').flatMap PathSegment.parsePart

/-- `split_once(".*")`, after what has been read. -/
def splitOnceWildcard (before : Text) : Text → Option (Text × Text)
  | '.' :: '*' :: rest => some (before, rest)
  | c :: rest => splitOnceWildcard (before ++ [c]) rest
  | [] => none

def splitWildcard (raw : Text) : Option (Text × Text) :=
  match raw with
  | '*' :: remaining => some ([], remaining)
  | _ => splitOnceWildcard [] raw

def trimDots (text : Text) : Text := (text.dropWhile (· = '.')).rdropWhile (· = '.')

def rejectLeftoverWildcards (paths : List (List PathSegment)) : List (List PathSegment) :=
  paths.filter fun path => .key "*" ∉ path

/-- `expand_match_path`, from the segments of the children of a node. -/
def expandMatch (childrenAt : List PathSegment → List PathSegment) (raw : Text) : List (List PathSegment) :=
  match splitWildcard raw with
  | none => rejectLeftoverWildcards [parsePath raw]
  | some (base, remaining) =>
    let base := parsePath (trimDots base)
    rejectLeftoverWildcards ((childrenAt base).map fun segment => base ++ segment :: parsePath (trimDots remaining))

namespace JsonFile

variable {ν : Type}

/-! ## Values at a path -/

def get : PathSegment → Json ν → Option (Json ν)
  | .key key, .obj members => getMember key members
  | .index index, .arr items => items[index]?
  | _, _ => none

def getNestedValue (json : Json ν) : List PathSegment → Option (Json ν)
  | [] => some json
  | segment :: path => (get segment json).bind (getNestedValue · path)

def childSegments : Json ν → List PathSegment
  | .arr items => (List.range items.length).map .index
  | .obj members => members.map (.key ·.1)
  | _ => []

def expandMatchPath (json : Json ν) (raw : Text) : List (List PathSegment) :=
  expandMatch (fun base => ((getNestedValue json base).map childSegments).getD []) raw

/-- An empty container that a segment can be looked up in. -/
def emptyFor : PathSegment → Json ν
  | .key _ => .obj []
  | .index _ => .arr []

/-- A segment can be looked up in the value. -/
def Suits : PathSegment → Json ν → Prop
  | .key _, .obj _ => True
  | .index _, .arr _ => True
  | _, _ => False

/-- What a value becomes before a segment is looked up: anything that is of another type is replaced. -/
def container : PathSegment → Json ν → Json ν
  | .key _, .obj members => .obj members
  | .index _, .arr items => .arr items
  | segment, _ => emptyFor segment

/-- The step down to a child, which is made if there is none; an array is padded for that. -/
def descend (default : Json ν) (f : Json ν → Json ν) : PathSegment → Json ν → Json ν
  | .key key, .obj members => .obj (setMember key (f ((getMember key members).getD default)) members)
  | .index index, .arr items => .arr ((items ++ List.replicate (index + 1 - items.length) default).modify index f)
  | _, json => json

def assign (value : Json ν) (insertNew updateExisting : Bool) : PathSegment → Json ν → Json ν
  | .key key, .obj members =>
    let found := (getMember key members).isSome
    if (found && updateExisting) || (!found && insertNew) then .obj (setMember key value members)
    else .obj members
  | .index index, .arr items =>
    if index < items.length then
      if updateExisting then .arr (items.set index value) else .arr items
    else if insertNew then .arr (items ++ List.replicate (index - items.length) .null ++ [value])
    else .arr items
  | _, json => json

def setNestedValue (value : Json ν) (insertNew updateExisting : Bool) : List PathSegment → Json ν → Json ν
  | [], json => json
  | [segment], json => assign value insertNew updateExisting segment (container segment json)
  | segment :: next :: path, json =>
    descend (emptyFor next) (setNestedValue value insertNew updateExisting (next :: path)) segment (container segment json)

/-! ## Replacements -/

structure Serde (ν : Type) where
  fromStr : Text → Option (Json ν)
  display : Json ν → Text
  toVecPretty : Json ν → Text

structure JsonReplacement (ν : Type) extends ResolvedReplacement where
  replaceWith : Json ν

def isString : Json ν → Bool
  | .str _ => true
  | _ => false

variable (serde : Serde ν)

def valueToText : Json ν → Text
  | .str s => s.toList
  | .null => []
  | other => serde.display other

def coerceValue (replacement : JsonReplacement ν) (gate : Replacement) (existingIsString : Bool) : Json ν :=
  let parsed (text : Text) : Json ν := (serde.fromStr text).getD (.str (String.ofList text))
  match gate with
  | .substituted text => if existingIsString then .str (String.ofList text) else parsed text
  | .value => if isString replacement.replaceWith then parsed replacement.value else replacement.replaceWith

def replaceAt (replacement : JsonReplacement ν) (json : Json ν) (path : List PathSegment) : Json ν :=
  let existing := getNestedValue json path
  match replacement.gate (existing.map (valueToText serde)) with
  | none => json
  | some gate =>
    setNestedValue (coerceValue serde replacement gate (existing.any isString)) replacement.insertNew
      replacement.updateExisting path json

def applyReplacement (json : Json ν) (replacement : JsonReplacement ν) : Json ν :=
  (expandMatchPath json replacement.match_).foldl (replaceAt serde replacement) json

def processFile (replacements : List (JsonReplacement ν)) (content : Text) : Text :=
  let json := if trim content = [] then .obj [] else (serde.fromStr content).getD (.obj [])
  serde.toVecPretty (replacements.foldl (applyReplacement serde) json)

/-! ## One step -/

variable {serde}

section Step

variable {segment other : PathSegment} {json default value child : Json ν} {insertNew updateExisting : Bool}

theorem get_container (segment : PathSegment) (json : Json ν) :
    get segment (container segment json) = get segment json := by
  cases segment <;> cases json <;> rfl

theorem container_of_suits (h : Suits segment json) : container segment json = json := by
  cases segment <;> cases json <;> first | rfl | cases h

theorem suits_container (segment : PathSegment) (json : Json ν) : Suits segment (container segment json) := by
  cases segment <;> cases json <;> trivial

variable (f : Json ν → Json ν)

theorem get_descend_self (h : Suits segment json) :
    get segment (descend default f segment json) = some (f ((get segment json).getD default)) := by
  cases segment with
  | key key =>
    cases json with
    | obj members => exact (getMember_setMember ..).trans (if_pos rfl)
    | _ => cases h
  | index index =>
    cases json with
    | arr items =>
      rw [descend, get, get, getElem?_modify_eq]
      by_cases hindex : index < items.length
      · rw [getElem?_append_left hindex, getElem?_eq_getElem hindex]
        rfl
      · rw [getElem?_append_right (by omega), getElem?_replicate, if_pos (by omega), getElem?_eq_none (by omega)]
        rfl
    | _ => cases h

theorem get_descend_of_ne (hne : other ≠ segment) (h : get other json = some child) :
    get other (descend default f segment json) = some child := by
  cases segment with
  | key key =>
    cases json with
    | obj members =>
      cases other with
      | key other =>
        have hkey : other ≠ key := fun heq => hne (congrArg _ heq)
        exact (getMember_setMember ..).trans ((if_neg hkey).trans h)
      | index => cases h
    | _ => exact h
  | index index =>
    cases json with
    | arr items =>
      cases other with
      | key => cases h
      | index other =>
        have hother : other < items.length := (List.getElem?_eq_some_iff.mp h).1
        have hindex : index ≠ other := fun heq => hne (congrArg _ heq.symm)
        rw [descend, get, getElem?_modify_ne _ _ hindex, getElem?_append_left hother]
        exact h
    | _ => exact h

/-- An assignment that is allowed is a step down to a child that becomes the value. -/
theorem assign_eq : assign value insertNew updateExisting segment json =
    if (get segment json).isSome && updateExisting || !(get segment json).isSome && insertNew then
      descend .null (fun _ => value) segment json else json := by
  cases segment with
  | key key =>
    cases json with
    | obj members => rfl
    | _ => exact (ite_self _).symm
  | index index =>
    cases json with
    | arr items =>
      rw [assign, descend, get, ← set_eq_modify]
      by_cases hindex : index < items.length
      · simp [hindex, Nat.sub_eq_zero_of_le hindex]
      · have hpad : List.replicate (index + 1 - items.length) (.null : Json ν) =
            List.replicate (index - items.length) .null ++ [.null] := by
          rw [← replicate_succ', Nat.sub_add_comm (Nat.le_of_not_lt hindex)]
        rw [hpad, set_append_right _ _ (Nat.le_of_not_lt hindex), set_append_right _ _ (by simp)]
        simp [hindex]
    | _ => exact (ite_self _).symm

theorem get_assign_self (h : Suits segment json)
    (hflags : (get segment json).isSome ∧ updateExisting = true ∨ get segment json = none ∧ insertNew = true) :
    get segment (assign value insertNew updateExisting segment json) = some value := by
  rw [assign_eq, if_pos, get_descend_self _ h]
  rcases hflags with ⟨hsome, hupdate⟩ | ⟨hnone, hinsert⟩
  · simp [hsome, hupdate]
  · simp [hnone, hinsert]

theorem get_assign_of_ne (hne : other ≠ segment) (h : get other json = some child) :
    get other (assign value insertNew updateExisting segment json) = some child := by
  rw [assign_eq]
  split_ifs
  · exact get_descend_of_ne _ hne h
  · exact h

end Step

/-! ## The laws -/

section Laws

variable {value : Json ν} {insertNew updateExisting : Bool}

/-- The node at a place on the way of a path, where the path goes on with a segment that cannot be looked up
there. -/
def Replaced (json : Json ν) (path place : List PathSegment) : Prop :=
  ∃ segment rest node, path = place ++ segment :: rest ∧ getNestedValue json place = some node ∧ ¬ Suits segment node

/-- **Put and get**: what has been set is read back. -/
theorem getNestedValue_setNestedValue {path : List PathSegment} {json : Json ν} (hpath : path ≠ [])
    (hflags : (getNestedValue json path).isSome ∧ updateExisting = true ∨
      getNestedValue json path = none ∧ insertNew = true) :
    getNestedValue (setNestedValue value insertNew updateExisting path json) path = some value := by
  induction path generalizing json with
  | nil => exact absurd rfl hpath
  | cons segment path ih =>
    cases path with
    | nil =>
      simp only [getNestedValue, Option.bind_fun_some] at hflags ⊢
      exact get_assign_self (suits_container segment json) (by rwa [get_container])
    | cons next path =>
      rw [setNestedValue, getNestedValue, get_descend_self _ (suits_container segment json), get_container]
      refine ih (cons_ne_nil _ _) ?_
      rw [getNestedValue] at hflags
      cases hget : get segment json with
      | some child => rwa [hget] at hflags
      | none =>
        -- nothing is there, and nothing is in the child that is made
        rw [hget] at hflags
        exact .inr ⟨by cases next <;> rfl, (hflags.resolve_left fun h => nomatch h.1).2⟩

/-- **Frame**: what is elsewhere stays. -/
theorem getNestedValue_of_elsewhere {path place : List PathSegment} {json node : Json ν}
    (hplace : getNestedValue json place = some node) (hbelow : ¬ path <+: place) (habove : ¬ place <+: path)
    (hkept : ∀ replaced, Replaced json path replaced → ¬ replaced <+: place) :
    getNestedValue (setNestedValue value insertNew updateExisting path json) place = some node := by
  induction path generalizing json place with
  | nil => exact absurd nil_prefix hbelow
  | cons segment path ih =>
    cases place with
    | nil => exact absurd nil_prefix habove
    | cons other place =>
      rw [getNestedValue, Option.bind_eq_some_iff] at hplace
      obtain ⟨child, hchild, hplace⟩ := hplace
      have hsuits : Suits segment json := by
        by_contra hmismatch
        exact hkept [] ⟨segment, path, json, rfl, rfl, hmismatch⟩ nil_prefix
      by_cases hother : other = segment
      · subst hother
        rw [cons_prefix_cons, eq_self, true_and] at hbelow habove
        cases path with
        | nil => exact absurd nil_prefix hbelow
        | cons next path =>
          rw [setNestedValue, container_of_suits hsuits, getNestedValue, get_descend_self _ hsuits, hchild]
          refine ih hplace hbelow habove ?_
          rintro replaced ⟨segment, rest, node, hpath, hnode, hmismatch⟩ hprefix
          refine hkept (other :: replaced) ⟨segment, rest, node, ?_, ?_, hmismatch⟩
            (cons_prefix_cons.mpr ⟨rfl, hprefix⟩)
          · rw [hpath, cons_append]
          · rwa [getNestedValue, hchild]
      · cases path with
        | nil =>
          rw [setNestedValue, container_of_suits hsuits, getNestedValue, get_assign_of_ne hother hchild]
          exact hplace
        | cons next path =>
          rw [setNestedValue, container_of_suits hsuits, getNestedValue, get_descend_of_ne _ hother hchild]
          exact hplace

theorem applyReplacement_of_rejected {json : Json ν} {replacement : JsonReplacement ν}
    (h : ∀ path ∈ expandMatchPath json replacement.match_,
      replacement.gate ((getNestedValue json path).map (valueToText serde)) = none) :
    applyReplacement serde json replacement = json := by
  rw [applyReplacement]
  generalize expandMatchPath json replacement.match_ = paths at h
  induction paths with
  | nil => rfl
  | cons path paths ih =>
    rw [forall_mem_cons] at h
    rw [foldl_cons, replaceAt, h.1]
    exact ih h.2

/-- **Nested assignment**: what has been set is read back, and every value stays that is neither on the way, nor
below the place that is set, nor below a node of another type that had to be replaced.  A rejected replacement
changes nothing. -/
theorem nested_assignment_laws (json value : Json ν) (path : List PathSegment) (insertNew updateExisting : Bool) :
    (path ≠ [] → ((getNestedValue json path).isSome ∧ updateExisting = true ∨
        getNestedValue json path = none ∧ insertNew = true) →
      getNestedValue (setNestedValue value insertNew updateExisting path json) path = some value ∧
        ∀ place node, getNestedValue json place = some node → ¬ path <+: place → ¬ place <+: path →
          (∀ replaced, Replaced json path replaced → ¬ replaced <+: place) →
          getNestedValue (setNestedValue value insertNew updateExisting path json) place = some node) ∧
      ∀ (serde : Serde ν) (replacement : JsonReplacement ν),
        (replacement.gate ((getNestedValue json path).map (valueToText serde)) = none →
          replaceAt serde replacement json path = json) ∧
        ((∀ path ∈ expandMatchPath json replacement.match_,
            replacement.gate ((getNestedValue json path).map (valueToText serde)) = none) →
          applyReplacement serde json replacement = json) := by
  refine ⟨fun hpath hflags =>
    ⟨getNestedValue_setNestedValue hpath hflags, fun place node hplace hbelow habove hkept => ?_⟩,
    fun serde replacement => ⟨fun hgate => ?_, fun hgates => applyReplacement_of_rejected hgates⟩⟩
  · exact getNestedValue_of_elsewhere hplace hbelow habove hkept
  · rw [replaceAt, hgate]

/-- The document `{"a": 1, "b": true}`: setting `a[1].c` replaces the number by an array and leaves `b`. -/
theorem nested_assignment_into_number :
    let json : Json ℕ := .obj [("a", .num 1), ("b", .bool true)]
    let path : List PathSegment := [.key "a", .index 1, .key "c"]
    getNestedValue (setNestedValue .null true false path json) path = some .null ∧
      getNestedValue (setNestedValue .null true false path json) [.key "b"] = some (.bool true) := by
  intro json path
  obtain ⟨hread, hframe⟩ := (nested_assignment_laws json .null path true false).1 (cons_ne_nil _ _) (.inr ⟨rfl, rfl⟩)
  refine ⟨hread, hframe _ _ rfl (by decide) (by decide) ?_⟩
  rintro replaced ⟨segment, rest, node, hpath, hnode, hmismatch⟩ hplace
  rcases (@prefix_concat_iff _ replaced [] _).mp hplace with rfl | hnil
  · exact absurd (cons.inj hpath).1 (by decide)
  · obtain rfl := prefix_nil.mp hnil
    obtain rfl : .key "a" = segment := (cons.inj hpath).1
    obtain rfl : json = node := Option.some.inj hnode
    exact hmismatch trivial

end Laws

end JsonFile

end Wings.Configuration
