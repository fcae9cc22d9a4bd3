import Mathlib.Data.List.InsertIdx
import Wings.Configuration.JsonFile
import Wings.Lib.IndexMap

/-!
# Wings.Configuration.TomlFile — replacements in TOML files

`server/configuration/process/toml.rs`.  A document is read through `Node::at`, which goes through tables, inline
tables, arrays and arrays of tables, and written by `set_nested_value`, which walks the document on its own.

* **`takes_effect_iff`**
-/

namespace Wings.Configuration.TomlFile

open Lib List IndexMap Option

/-! ## Documents -/

/-- `toml_edit::Value` without the containers. -/
inductive Scalar (φ δ : Type)
  | string (value : Text)
  | integer (value : ℤ)
  | float (value : φ)
  | boolean (value : Bool)
  | datetime (value : δ)

/-- `toml_edit::Item`; an entry without a value is not kept. -/
inductive Item (φ δ : Type)
  | scalar (value : Scalar φ δ)
  | array (values : List (Item φ δ))
  | inline (items : List (String × Item φ δ))
  | table (items : List (String × Item φ δ))
  | tables (values : List (Item φ δ))

variable {φ δ : Type}

/-- The entries of a table or an inline table. -/
abbrev Items (φ δ : Type) := IndexMap String (Item φ δ)

inductive Node (φ δ : Type)
  | table (items : Items φ δ)
  | array (values : List (Item φ δ))
  | tables (values : List (Item φ δ))
  | leaf (value : Scalar φ δ)

namespace Node

def ofItem : Item φ δ → Node φ δ
  | .scalar value => .leaf value
  | .array values => .array values
  | .inline items => .table items
  | .table items => .table items
  | .tables values => .tables values

/-- `of_value`, for an item that is a value. -/
def ofValue : Item φ δ → Option (Node φ δ)
  | .scalar value => some (.leaf value)
  | .array values => some (.array values)
  | .inline items => some (.table items)
  | _ => none

def ofTable : Item φ δ → Option (Node φ δ)
  | .table items => some (.table items)
  | _ => none

def child : Node φ δ → PathSegment → Option (Node φ δ)
  | .table items, .key key => (IndexMap.find key items).map ofItem
  | .array values, .index index => values[index]?.bind ofValue
  | .tables values, .index index => values[index]?.bind ofTable
  | _, _ => none

/-- `Node::at`, from a node. -/
def at_ (node : Node φ δ) : List PathSegment → Option (Node φ δ)
  | [] => some node
  | segment :: path => (node.child segment).bind (at_ · path)

def childSegments : Node φ δ → List PathSegment
  | .table items => items.map (.key ·.1)
  | .array values => (List.range values.length).map .index
  | .tables values => (List.range values.length).map .index
  | .leaf _ => []

def isString : Node φ δ → Bool
  | .leaf (.string _) => true
  | _ => false

end Node

/-! ## The writer -/

/-- An index at the end of a path, in an array. -/
def setIndex (value : Item φ δ) (insertNew updateExisting : Bool) (index : ℕ) (values : List (Item φ δ)) :
    List (Item φ δ) :=
  if index < values.length then
    if updateExisting then (values.eraseIdx index).insertIdx index value else values
  else if insertNew then values ++ List.replicate (index - values.length) (.inline []) ++ [value]
  else values

/-- The array of tables that an index goes on from. -/
def padTables (insertNew : Bool) (index : ℕ) (values : List (Item φ δ)) : List (Item φ δ) :=
  if values.length ≤ index ∧ insertNew = true then
    values ++ List.replicate (index + 1 - values.length) (.table [])
  else values

/-- What happens to a table, and only to a table. -/
def inTable (f : Items φ δ → Items φ δ) : Item φ δ → Item φ δ
  | .table items => .table (f items)
  | item => item

def inTableLike (f : Items φ δ → Items φ δ) : Item φ δ → Item φ δ
  | .table items => .table (f items)
  | .inline items => .inline (f items)
  | item => item

/-- `set_nested_value`.  An entry on the way is made if it is not there, also if nothing is written in the end. -/
def setNestedValue (value : Item φ δ) (insertNew updateExisting : Bool) : List PathSegment → Items φ δ → Items φ δ
  | [.key key], items =>
    let found := (IndexMap.find key items).isSome
    if (found && updateExisting) || (!found && insertNew) then IndexMap.insert key value items else items
  | .key key :: .key next :: path, items =>
    let child := (IndexMap.find key items).getD (.table [])
    IndexMap.insert key (inTableLike (setNestedValue value insertNew updateExisting (.key next :: path)) child) items
  | [.key key, .index index], items =>
    let child := (IndexMap.find key items).getD (.array [])
    match child with
    | .array values => IndexMap.insert key (.array (setIndex value insertNew updateExisting index values)) items
    | child => IndexMap.insert key child items
  | .key key :: .index index :: .key next :: path, items =>
    let child := (IndexMap.find key items).getD (.tables [])
    match child with
    | .tables values =>
      IndexMap.insert key (.tables ((padTables insertNew index values).modify index
        (inTable (setNestedValue value insertNew updateExisting (.key next :: path))))) items
    | child => IndexMap.insert key child items
  | _, items => items

/-! ## Replacements -/

/-- `toml_edit`, and the numbers of `serde_json`. -/
structure TomlEdit (φ δ ν : Type) where
  parseDocument : Text → Option (Items φ δ)
  parseValue : Text → Option (Item φ δ)
  displayDocument : Items φ δ → Text
  displayFloat : φ → Text
  displayDatetime : δ → Text
  number : ν → Scalar φ δ

variable {ν : Type} (toml : TomlEdit φ δ ν)

def Node.text : Node φ δ → Text
  | .leaf (.string value) => value
  | .leaf (.integer value) => (toString value).toList
  | .leaf (.float value) => toml.displayFloat value
  | .leaf (.boolean value) => (toString value).toList
  | .leaf (.datetime value) => toml.displayDatetime value
  | _ => []

def expandMatchPath (items : Items φ δ) (raw : Text) : List (List PathSegment) :=
  expandMatch (fun base => (((Node.table items).at_ base).map Node.childSegments).getD []) raw

mutual

def jsonToTomlValue : Json ν → Item φ δ
  | .null => .scalar (.string ['n', 'u', 'l', 'l'])
  | .bool b => .scalar (.boolean b)
  | .num n => .scalar (toml.number n)
  | .str s => .scalar (.string s.toList)
  | .arr items => .array (jsonToTomlValues items)
  | .obj members => .inline (jsonToTomlMembers members)

def jsonToTomlValues : List (Json ν) → List (Item φ δ)
  | [] => []
  | json :: rest => jsonToTomlValue json :: jsonToTomlValues rest

def jsonToTomlMembers : List (String × Json ν) → List (String × Item φ δ)
  | [] => []
  | (key, json) :: rest => (key, jsonToTomlValue json) :: jsonToTomlMembers rest

end

def coerceValue (replacement : JsonFile.JsonReplacement ν) (gate : Replacement) (existingIsString : Bool) : Item φ δ :=
  let parsed (text : Text) : Item φ δ := (toml.parseValue text).getD (.scalar (.string text))
  match gate with
  | .substituted text => if existingIsString then .scalar (.string text) else parsed text
  | .value =>
    if JsonFile.isString replacement.replaceWith then parsed replacement.value
    else jsonToTomlValue toml replacement.replaceWith

def replaceAt (replacement : JsonFile.JsonReplacement ν) (items : Items φ δ) (path : List PathSegment) : Items φ δ :=
  let existing := (Node.table items).at_ path
  match replacement.gate (existing.map (Node.text toml)) with
  | none => items
  | some gate =>
    setNestedValue (coerceValue toml replacement gate (existing.any Node.isString)) replacement.insertNew
      replacement.updateExisting path items

def processFile (replacements : List (JsonFile.JsonReplacement ν)) (content : Text) : Text :=
  let items := if trim content = [] then [] else (toml.parseDocument content).getD []
  toml.displayDocument <| replacements.foldl
    (fun items replacement => (expandMatchPath items replacement.match_).foldl (replaceAt toml replacement) items) items

/-! ## What is reached -/

/-- The places that the writer reaches among those that exist. -/
def Writable : List PathSegment → Items φ δ → Prop
  | [.key _], _ => True
  | .key key :: .key next :: path, items =>
    ∃ inner, (IndexMap.find key items = some (.table inner) ∨ IndexMap.find key items = some (.inline inner)) ∧
      Writable (.key next :: path) inner
  | [.key key, .index _], items => ∃ values, IndexMap.find key items = some (.array values)
  | .key key :: .index index :: .key next :: path, items =>
    ∃ values inner, IndexMap.find key items = some (.tables values) ∧ values[index]? = some (.table inner) ∧
      Writable (.key next :: path) inner
  | _, _ => False

section Reach

variable {items : Items φ δ} {key : String} {item value : Item φ δ} {node : Node φ δ} {insertNew : Bool}
  {path : List PathSegment}

open Node

theorem ofItem_of_ofValue (h : ofValue value = some node) : ofItem value = node := by
  cases value <;> cases h <;> rfl

theorem child_insert_self (key : String) (item : Item φ δ) (items : Items φ δ) :
    (table (insert key item items)).child (.key key) = some (ofItem item) := by
  rw [child, find_insert_self, map_some]

variable {segment : PathSegment}

theorem child_insert_of_ne (hne : segment ≠ .key key) (item : Item φ δ) (items : Items φ δ) :
    (table (insert key item items)).child segment = (table items).child segment := by
  cases segment with
  | key other =>
    have hother : other ≠ key := fun heq => hne (congrArg _ heq)
    rw [child, child, find_insert_of_ne hother]
  | index => rfl

theorem find_of_at (h : ((table items).at_ (.key key :: path)).isSome) :
    ∃ item, find key items = some item ∧ ((ofItem item).at_ path).isSome := by
  rw [at_, child] at h
  cases hfind : find key items with
  | none => rw [hfind] at h; cases h
  | some item => rw [hfind] at h; exact ⟨item, rfl, h⟩

variable {values : List (Item φ δ)} {index : ℕ}

theorem tables_of_at (h : ((tables values).at_ (.index index :: path)).isSome) :
    ∃ inner, values[index]? = some (.table inner) ∧ ((table inner).at_ path).isSome := by
  rw [at_, child] at h
  cases hvalue : values[index]? with
  | none => rw [hvalue] at h; cases h
  | some item =>
    rw [hvalue] at h
    cases item with
    | table inner => exact ⟨inner, rfl, h⟩
    | _ => cases h

theorem padTables_of_some (h : values[index]? = some item) : padTables insertNew index values = values :=
  if_neg fun hpad => by
    have := (List.getElem?_eq_some_iff.mp h).1
    omega

theorem modify_of_some (h : values[index]? = some item) (f : Item φ δ → Item φ δ) :
    values.modify index f = values.set index (f item) := by
  rw [modify_eq_set_getElem?, h]
  rfl

theorem setNestedValue_of_not_writable : ∀ (path : List PathSegment) (items : Items φ δ),
    ((table items).at_ path).isSome → ¬ Writable path items → setNestedValue value insertNew true path items = items
  | [], _, _, _ => rfl
  | .index _ :: _, _, _, _ => rfl
  | [.key _], _, _, hreach => absurd trivial hreach
  | .key _ :: .index _ :: .index _ :: _, _, _, _ => rfl
  | .key key :: .key next :: path, items, hat, hreach => by
    obtain ⟨item, hfind, hat⟩ := find_of_at hat
    rw [setNestedValue, hfind, getD_some]
    refine (congrArg (insert key · items) ?_).trans (insert_find hfind)
    cases item with
    | table inner =>
      have hinner : ¬ Writable (.key next :: path) inner := fun h => hreach ⟨inner, .inl hfind, h⟩
      rw [inTableLike, setNestedValue_of_not_writable _ inner hat hinner]
    | inline inner =>
      have hinner : ¬ Writable (.key next :: path) inner := fun h => hreach ⟨inner, .inr hfind, h⟩
      rw [inTableLike, setNestedValue_of_not_writable _ inner hat hinner]
    | _ => rfl
  | [.key key, .index index], items, hat, hreach => by
    obtain ⟨item, hfind, -⟩ := find_of_at hat
    rw [setNestedValue, hfind]
    cases item with
    | array values => exact absurd ⟨values, hfind⟩ hreach
    | _ => exact insert_find hfind
  | .key key :: .index index :: .key next :: path, items, hat, hreach => by
    obtain ⟨item, hfind, hat⟩ := find_of_at hat
    rw [setNestedValue, hfind, getD_some]
    cases item with
    | tables values =>
      obtain ⟨inner, hvalue, hat⟩ := tables_of_at hat
      have hinner : ¬ Writable (.key next :: path) inner := fun h => hreach ⟨values, inner, hfind, hvalue, h⟩
      obtain ⟨hlt, hvalue'⟩ := List.getElem?_eq_some_iff.mp hvalue
      dsimp only
      rw [padTables_of_some hvalue, modify_of_some hvalue, inTable, setNestedValue_of_not_writable _ inner hat hinner,
        ← hvalue', set_getElem_self]
      exact insert_find hfind
    | _ => exact insert_find hfind

/-- The value is read back, and nothing changes elsewhere. -/
structure TakesEffect (path : List PathSegment) (items items' : Items φ δ) (node : Node φ δ) : Prop where
  reads : (Node.table items').at_ path = some node
  frame : ∀ place, ¬ path <+: place → ¬ place <+: path → (Node.table items').at_ place = (Node.table items).at_ place

theorem at_cons_of_child {parent parent' child child' : Node φ δ}
    (hself : parent'.child segment = some child')
    (hothers : ∀ other, other ≠ segment → parent'.child other = parent.child other)
    (hold : parent.child segment = some child) (hreads : child'.at_ path = some node)
    (hframe : ∀ place, ¬ path <+: place → ¬ place <+: path → child'.at_ place = child.at_ place) :
    parent'.at_ (segment :: path) = some node ∧
      ∀ place, ¬ segment :: path <+: place → ¬ place <+: segment :: path → parent'.at_ place = parent.at_ place := by
  refine ⟨by rw [at_, hself, bind_some, hreads], fun place hbelow habove => ?_⟩
  cases place with
  | nil => exact absurd nil_prefix habove
  | cons other place =>
    by_cases hother : other = segment
    · subst hother
      rw [cons_prefix_cons, eq_self, true_and] at hbelow habove
      rw [at_, at_, hself, hold, bind_some, bind_some, hframe place hbelow habove]
    · rw [at_, at_, hothers other hother]

theorem takesEffect_below {item' : Item φ δ} (hfind : find key items = some item)
    (hchange : (ofItem item').at_ path = some node ∧
      ∀ place, ¬ path <+: place → ¬ place <+: path → (ofItem item').at_ place = (ofItem item).at_ place) :
    TakesEffect (.key key :: path) items (insert key item' items) node := by
  obtain ⟨hreads, hframe⟩ :=
    at_cons_of_child (child_insert_self key item' items) (fun _ hne => child_insert_of_ne hne item' items)
    (by rw [child, hfind, map_some]) hchange.1 hchange.2
  exact ⟨hreads, hframe⟩

theorem getElem?_set_of_ne {other : ℕ} (hne : PathSegment.index other ≠ .index index) (value : Item φ δ) :
    (values.set index value)[other]? = values[other]? :=
  getElem?_set_ne fun heq => hne (congrArg _ heq.symm)

theorem takesEffect_of_writable (hvalue : ofValue value = some node) : ∀ (path : List PathSegment) (items : Items φ δ),
    ((table items).at_ path).isSome → Writable path items →
      TakesEffect path items (setNestedValue value insertNew true path items) node
  | [], _, _, hreach => hreach.elim
  | .index _ :: _, _, _, hreach => by cases hreach
  | .key _ :: .index _ :: .index _ :: _, _, _, hreach => by cases hreach
  | [.key key], items, hat, _ => by
    obtain ⟨item, hfind, -⟩ := find_of_at hat
    rw [setNestedValue, hfind]
    exact takesEffect_below hfind ⟨congrArg some (ofItem_of_ofValue hvalue), fun _ hbelow => absurd nil_prefix hbelow⟩
  | .key key :: .key next :: path, items, hat, hreach => by
    obtain ⟨inner, hfind | hfind, hinner⟩ := hreach
    all_goals
      rw [at_, child, hfind] at hat
      obtain ⟨hreads, hframe⟩ := takesEffect_of_writable hvalue _ inner hat hinner
      rw [setNestedValue, hfind]
      exact takesEffect_below hfind ⟨hreads, hframe⟩
  | [.key key, .index index], items, hat, hreach => by
    obtain ⟨values, hfind⟩ := hreach
    obtain ⟨old, hold⟩ : ∃ old, (array values).child (.index index) = some old := by
      rw [at_, child, hfind] at hat
      exact isSome_iff_exists.mp (isSome_of_isSome_bind hat)
    have hlt : index < values.length := by
      by_contra hge
      rw [child, getElem?_eq_none (not_lt.mp hge)] at hold
      cases hold
    rw [setNestedValue, hfind, getD_some]
    dsimp only
    rw [setIndex, if_pos hlt, if_pos rfl, insertIdx_eraseIdx_self hlt.ne]
    refine takesEffect_below hfind (at_cons_of_child ?_ (fun other hne => ?_) hold rfl fun _ hbelow =>
      absurd nil_prefix hbelow)
    · rw [ofItem, child, getElem?_set_self hlt, bind_some, hvalue]
    · cases other with
      | key => rfl
      | index => rw [ofItem, ofItem, child, child, getElem?_set_of_ne hne]
  | .key key :: .index index :: .key next :: path, items, hat, hreach => by
    obtain ⟨values, inner, hfind, hinner, hreach⟩ := hreach
    obtain ⟨hlt, -⟩ := List.getElem?_eq_some_iff.mp hinner
    have hold : (tables values).child (.index index) = some (.table inner) := by
      rw [child, hinner]
      rfl
    rw [at_, child, hfind, map_some, bind_some, ofItem, at_, hold] at hat
    obtain ⟨hreads, hframe⟩ := takesEffect_of_writable hvalue _ inner hat hreach
    rw [setNestedValue, hfind, getD_some]
    dsimp only
    rw [padTables_of_some hinner, modify_of_some hinner]
    refine takesEffect_below hfind (at_cons_of_child ?_ (fun other hne => ?_) hold hreads hframe)
    · rw [ofItem, child, getElem?_set_self hlt]
      rfl
    · cases other with
      | key => rfl
      | index => rw [ofItem, ofItem, child, child, getElem?_set_of_ne hne]

/-- **A replacement of a node that exists takes effect for every value exactly if the writer reaches the node.** -/
theorem takes_effect_iff (path : List PathSegment) (items : Items φ δ) (insertNew : Bool)
    (hat : ((table items).at_ path).isSome) :
    (∀ value node, ofValue value = some node →
        TakesEffect path items (setNestedValue value insertNew true path items) node) ↔
      Writable path items := by
  refine ⟨fun heffect => ?_, fun hreach value node hvalue => takesEffect_of_writable hvalue path items hat hreach⟩
  by_contra hreach
  -- The document is as it was, so it cannot hold two different values.
  have hsame (value : Item φ δ) : setNestedValue value insertNew true path items = items :=
    setNestedValue_of_not_writable path items hat hreach
  have harray := (heffect (.array []) _ rfl).reads
  have hinline := (heffect (.inline []) _ rfl).reads
  rw [hsame] at harray hinline
  cases harray.symm.trans hinline

/-- `a.b = 1` is written, with `a` a table. -/
theorem takes_effect_in_table :
    TakesEffect [.key "a", .key "b"] ([("a", .table [("b", .scalar (.integer 1))])] : Items Unit Unit)
      [("a", .table [("b", .scalar (.integer 2))])] (.leaf (.integer 2)) :=
  (takes_effect_iff [.key "a", .key "b"] [("a", .table [("b", .scalar (.integer 1))])] false rfl).mpr
    ⟨_, .inl rfl, trivial⟩ (.scalar (.integer 2)) _ rfl

/-- `a = [{ x = 1 }]`: `a[0].x` is read, and is `1` also after `2` is written. -/
theorem inline_table_in_array_kept :
    let items : Items Unit Unit := [("a", .array [.inline [("x", .scalar (.integer 1))]])]
    let path := [.key "a", .index 0, .key "x"]
    path ∈ expandMatchPath items "a[0].x".toList ∧ (table items).at_ path = some (.leaf (.integer 1)) ∧
      (table (setNestedValue (.scalar (.integer 2)) false true path items)).at_ path = some (.leaf (.integer 1)) := by
  refine ⟨?_, rfl, rfl⟩
  decide

end Reach

end Wings.Configuration.TomlFile
