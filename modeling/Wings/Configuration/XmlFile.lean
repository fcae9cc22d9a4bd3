import Wings.Configuration.Process
import Wings.Lib.IndexMap
import Wings.Lib.Worklist

/-!
# Wings.Configuration.XmlFile — replacements in XML files

`server/configuration/process/xml.rs`.  A path without a wildcard is followed through the first child of each name;
a path with one is followed through all of them, by a stack of elements that are still to be visited.

* `Element`, `XmlNode` — the tree of `xmltree`, without namespaces.
* `writeXmlLeaf`, `updateXmlElement`, `updateXmlWildcard` — the tree, and whether a leaf was written.
* **`unchanged_iff`**
-/

namespace Wings.Configuration.XmlFile

open Lib List

/-! ## Trees -/

mutual

structure Element where
  name : Text
  attributes : IndexMap Text Text
  children : List XmlNode

inductive XmlNode where
  | element (element : Element)
  | comment (text : Text)
  | cdata (text : Text)
  | text (text : Text)
  | processingInstruction (name : Text) (data : Option Text)

end

namespace Element

def new (tag : Text) : Element := ⟨tag, [], []⟩

def push (element child : Element) : Element := { element with children := element.children ++ [.element child] }

end Element

def XmlNode.textOf : XmlNode → Option Text
  | .text value => some value
  | .cdata value => some value
  | _ => none

/-- `element_text`: the texts of the children put together, or nothing. -/
def elementText (element : Element) : Text := (element.children.filterMap XmlNode.textOf).flatten

def inChild (tag : Text) (f : Element → Element × Bool) : List XmlNode → Option (List XmlNode × Bool)
  | [] => none
  | .element child :: rest =>
    if child.name = tag then some (.element (f child).1 :: rest, (f child).2)
    else (inChild tag f rest).map fun (children, wrote) => (.element child :: children, wrote)
  | node :: rest => (inChild tag f rest).map fun (children, wrote) => (node :: children, wrote)

/-! ## Leaves -/

section Update

variable (resolved : ResolvedReplacement)

/-- `str::split_once` at an equals sign. -/
def splitAssignment (assignment : Text) : Option (Text × Text) :=
  if '=' ∈ assignment then some (assignment.takeWhile (· ≠ '='), (assignment.dropWhile (· ≠ '=')).tail) else none

def writeXmlLeaf (element : Element) (exist : Bool) : Element × Bool :=
  match resolved.value with
  | '@' :: assignment =>
    match splitAssignment assignment with
    | none => (element, false)
    | some (attrName, attrVal) =>
      let existing := if exist then IndexMap.find attrName element.attributes else none
      match resolved.textWith existing attrVal with
      | none => (element, false)
      | some value => ({ element with attributes := IndexMap.insert attrName value element.attributes }, true)
  | _ =>
    let existing := if exist then some (elementText element) else none
    match resolved.text existing with
    | none => (element, false)
    | some value => ({ element with children := [.text value] }, true)

/-- A child that is new, with the leaf in it. -/
def pushLeaf (element : Element) (tag : Text) : Element × Bool :=
  let (newChild, wrote) := writeXmlLeaf resolved (.new tag) false
  if wrote then (element.push newChild, true) else (element, false)

def applyXmlLeaf (element : Element) (tag : Text) : Element × Bool :=
  match inChild tag (writeXmlLeaf resolved · true) element.children with
  | some (children, wrote) => ({ element with children }, wrote)
  | none => pushLeaf resolved element tag

def buildXmlChain (path : List Text) : Option Element :=
  match path.reverse with
  | last :: deepestTag :: ancestors =>
    let (current, wrote) := applyXmlLeaf resolved (.new deepestTag) last
    if wrote then some (ancestors.foldl (fun current tag => (Element.new tag).push current) current) else none
  | _ => none

/-! ## Paths without a wildcard -/

def updateXmlElement : List Text → Element → Element × Bool
  | [], element => (element, false)
  | [tag], element => applyXmlLeaf resolved element tag
  | tag :: path, element =>
    match inChild tag (updateXmlElement path) element.children with
    | some (children, wrote) => ({ element with children }, wrote)
    | none =>
      if resolved.insertNew then
        match buildXmlChain resolved (tag :: path) with
        | some newChild => (element.push newChild, true)
        | none => (element, false)
      else (element, false)

/-! ## Paths with a wildcard -/

/-- The children that a tag stands for. -/
def isMatch (tag : Text) : XmlNode → Bool
  | .element child => tag = ['*'] || child.name = tag
  | _ => false

def overNode (tag : Text) (f : Element → Element × Bool) (node : XmlNode) : XmlNode × Bool :=
  match node with
  | .element child => if isMatch tag node then (.element (f child).1, (f child).2) else (node, false)
  | _ => (node, false)

def overChildren (tag : Text) (f : Element → Element × Bool) (element : Element) : Element × Bool :=
  ({ element with children := element.children.map fun node => (overNode tag f node).1 },
    element.children.any fun node => (overNode tag f node).2)

/-- The element and the path that are popped: the element afterwards, and which of its children are pushed. -/
def iteration (path : List Text) (element : Element) : (Element × Bool) × List ℕ :=
  match path with
  | [] => ((element, false), [])
  | tag :: rest =>
    let foundMatch := element.children.any (isMatch tag)
    if !foundMatch && (tag = ['*'] || !resolved.insertNew) then ((element, false), [])
    else if !foundMatch && rest.isEmpty then (pushLeaf resolved element tag, [])
    else
      let element := if foundMatch then element else element.push (.new tag)
      if rest.isEmpty then (overChildren tag (writeXmlLeaf resolved · true) element, [])
      else ((element, false), element.children.findIdxs (isMatch tag))

/-- What an element on the stack stands for: the way to it from the root, and the rest of the path. -/
structure Pending where
  address : List ℕ
  path : List Text

def child (index : ℕ) (f : Element → Element × Bool) (element : Element) : Element × Bool :=
  match element.children[index]? with
  | some (.element child) => ({ element with children := element.children.set index (.element (f child).1) }, (f child).2)
  | _ => (element, false)

def atAddress (f : Element → Element × Bool) : List ℕ → Element → Element × Bool
  | [] => f
  | index :: address => child index (atAddress f address)

def getAddress : List ℕ → Element → Option Element
  | [], element => some element
  | index :: address, element =>
    match element.children[index]? with
    | some (.element child) => getAddress address child
    | _ => none

/-- A change of the tree after others. -/
def andThen (f : Element → Element × Bool) (state : Element × Bool) : Element × Bool :=
  ((f state.1).1, state.2 || (f state.1).2)

/-- The loop of `update_xml_wildcard`.  The stack holds mutable borrows, whose addresses never change. -/
def wildcardLoop : Worklist (Element × Bool) Pending where
  rank pending := pending.path.length
  act state pending :=
    andThen (atAddress (fun element => (iteration resolved pending.path element).1) pending.address) state
  next state pending :=
    match getAddress pending.address state.1 with
    | none => []
    | some element =>
      (iteration resolved pending.path element).2.reverse.map fun index =>
        ⟨pending.address ++ [index], pending.path.tail⟩
  rank_next := by
    rintro state ⟨address, path⟩ pending hpending
    cases path with
    | nil =>
      split at hpending
      · cases hpending
      · cases hpending
    | cons tag rest =>
      split at hpending
      · cases hpending
      · obtain ⟨index, -, rfl⟩ := List.mem_map.mp hpending
        exact Nat.lt_succ_self _

def updateXmlWildcard (path : List Text) (root : Element) : Element × Bool :=
  (wildcardLoop resolved).loop (root, false) [⟨[], path⟩]

/-! ## The file -/

/-- `xml::reader::XmlEvent`, as far as the depth goes. -/
inductive XmlEvent where
  | startElement
  | endElement
  | other

def maxNestingDepth : ℕ := 256

/-- The events up to the end of the document or an error. -/
def nestingExceeds (depth : ℕ) : List XmlEvent → Bool
  | [] => false
  | .startElement :: events => depth + 1 > maxNestingDepth || nestingExceeds (depth + 1) events
  | .endElement :: events => nestingExceeds (depth - 1) events
  | .other :: events => nestingExceeds depth events

def checkNestingDepth (events : List XmlEvent) : Except String Unit :=
  if nestingExceeds 0 events then throw "xml nesting exceeds the maximum depth of 256" else pure ()

structure Xml where
  events : Text → List XmlEvent
  parse : Text → Except String Element
  write : Element → Except String (List UInt8)

def pathParts (path : Text) : List Text := (path.splitOn '/').filter (· ≠ [])

def applyReplacement (root : Element) (resolved : ResolvedReplacement) : Element :=
  let path := resolved.match_.map fun c => if c = '.' then '/' else c
  if '*' ∈ path then (updateXmlWildcard resolved (pathParts path) root).1
  else (updateXmlElement resolved (pathParts path) root).1

def processFile (xml : Xml) (replacements : List ResolvedReplacement) (content : Text) : Except String (List UInt8) := do
  let content :=
    if trim content = [] then "<?xml version=\"1.0\" encoding=\"UTF-8\"?><root></root>".toList else content
  checkNestingDepth (xml.events content)
  let root ← xml.parse content
  xml.write (replacements.foldl applyReplacement root)

end Update

/-! ## The stack and the recursion -/

section Wildcard

variable (resolved : ResolvedReplacement)

/-- `update_xml_wildcard` as a recursion over the path. -/
def wildcard : List Text → Element → Element × Bool
  | [], element => (element, false)
  | tag :: rest, element =>
    let foundMatch := element.children.any (isMatch tag)
    if !foundMatch && (tag = ['*'] || !resolved.insertNew) then (element, false)
    else if !foundMatch && rest.isEmpty then pushLeaf resolved element tag
    else
      let element := if foundMatch then element else element.push (.new tag)
      if rest.isEmpty then overChildren tag (writeXmlLeaf resolved · true) element
      else overChildren tag (wildcard rest) element

variable {resolved} (f g : Element → Element × Bool)

theorem child_andThen (index : ℕ) (element : Element) :
    child index (fun element => andThen g (f element)) element = andThen (child index g) (child index f element) := by
  unfold child
  cases hnode : element.children[index]? with
  | none => simp only [andThen, hnode, Bool.or_self]
  | some node =>
    cases node with
    | element inner =>
      obtain ⟨hlt, -⟩ := List.getElem?_eq_some_iff.mp hnode
      simp only [andThen, getElem?_set_self hlt, set_set]
    | _ => simp only [andThen, hnode, Bool.or_self]

variable (address : List ℕ)

theorem atAddress_andThen (element : Element) :
    atAddress (fun element => andThen g (f element)) address element =
      andThen (atAddress g address) (atAddress f address element) := by
  induction address generalizing element with
  | nil => rfl
  | cons index address ih =>
    have hinner : atAddress (fun element => andThen g (f element)) address =
        fun element => andThen (atAddress g address) (atAddress f address element) := funext ih
    rw [atAddress, hinner, child_andThen]
    rfl

theorem atAddress_concat (f : Element → Element × Bool) (index : ℕ) :
    atAddress f (address ++ [index]) = atAddress (child index f) address := by
  induction address with
  | nil => rfl
  | cons i address ih => rw [cons_append, atAddress, ih, atAddress]

theorem atAddress_congr {f g : Element → Element × Bool} {address : List ℕ} {element : Element}
    (h : ∀ inner, getAddress address element = some inner → f inner = g inner) :
    atAddress f address element = atAddress g address element := by
  induction address generalizing element with
  | nil => exact h element rfl
  | cons index address ih =>
    rw [atAddress, atAddress, child, child]
    rw [getAddress] at h
    cases hnode : element.children[index]? with
    | none => rfl
    | some node =>
      rw [hnode] at h
      cases node with
      | element inner =>
        dsimp only
        rw [ih h]
      | _ => rfl

variable (state : Element × Bool)

/-- Changes of children, one after the other, are one change of the element that has them. -/
theorem foldl_children (indices : List ℕ) :
    indices.foldl (fun state index => andThen (atAddress f (address ++ [index])) state)
    (andThen (atAddress g address) state) =
      andThen (atAddress (fun element => indices.foldl (fun state index => andThen (child index f) state)
        (g element)) address)
        state := by
  induction indices generalizing g with
  | nil => rfl
  | cons index indices ih =>
    have hstep : andThen (atAddress f (address ++ [index])) (andThen (atAddress g address) state) =
        andThen (atAddress (fun element => andThen (child index f) (g element)) address) state := by
      have hboth := atAddress_andThen g (child index f) address state.1
      rw [atAddress_concat]
      refine Prod.ext (congrArg Prod.fst hboth).symm ?_
      exact (Bool.or_assoc _ _ _).trans (congrArg (state.2 || ·.2) hboth.symm)
    rw [foldl_cons, hstep, ih]
    rfl

/-- The children that are visited from the last to the first are the children of the loop. -/
theorem foldr_children (tag : Text) (f : Element → Element × Bool) (name : Text) (attributes : IndexMap Text Text)
    (before after : List XmlNode) (wrote : Bool) :
    (after.findIdxs (isMatch tag) before.length).foldr (fun index state => andThen (child index f) state)
        (⟨name, attributes, before ++ after⟩, wrote) =
      (⟨name, attributes, before ++ after.map fun node => (overNode tag f node).1⟩,
        wrote || after.any fun node => (overNode tag f node).2) := by
  induction after generalizing before with
  | nil => rw [findIdxs_nil, foldr_nil, map_nil, any_nil, Bool.or_false]
  | cons node after ih =>
    have hafter := ih (before ++ [node])
    rw [length_append, length_singleton, append_assoc, singleton_append, append_assoc, singleton_append] at hafter
    rw [findIdxs_cons, map_cons, any_cons]
    split
    next hmatch =>
      cases node with
      | element inner =>
        rw [foldr_cons, hafter, andThen, child]
        simp only [getElem?_append_right (le_refl before.length), Nat.sub_self, getElem?_cons_zero, overNode,
          if_pos hmatch, set_append_right _ _ (le_refl before.length), set_cons_zero]
        rw [Bool.or_assoc, Bool.or_comm (any _ _)]
      | _ => cases hmatch
    next hmatch =>
      have hnode : overNode tag f node = (node, false) := by
        cases node with
        | element inner => exact if_neg hmatch
        | _ => rfl
      rw [hafter, hnode, Bool.false_or]

/-- What an element that is popped and the children it pushes do is what the recursion does. -/
theorem wildcard_eq_foldl (path : List Text) (element : Element) :
    wildcard resolved path element =
      (iteration resolved path element).2.reverse.foldl
        (fun state index => andThen (child index (wildcard resolved path.tail)) state)
        (iteration resolved path element).1 := by
  cases path with
  | nil => rfl
  | cons tag rest =>
    rw [wildcard, iteration]
    split
    · rfl
    · split
      · rfl
      · dsimp only
        split
        · rfl
        · rw [foldl_reverse]
          generalize (if element.children.any (isMatch tag) then element else element.push (.new tag)) = entered
          obtain ⟨name, attributes, children⟩ := entered
          exact (foldr_children tag _ name attributes [] children false).symm

theorem loop_step (pending : Pending) :
    andThen (atAddress (wildcard resolved pending.path) pending.address) state =
      ((wildcardLoop resolved).next state pending).foldl
        (fun state pending => andThen (atAddress (wildcard resolved pending.path) pending.address) state)
        ((wildcardLoop resolved).act state pending) := by
  obtain ⟨address, path⟩ := pending
  dsimp only [wildcardLoop]
  cases helement : getAddress address state.1 with
  | none =>
    have hsame : atAddress (wildcard resolved path) address state.1 =
        atAddress (fun element => (iteration resolved path element).1) address state.1 :=
      atAddress_congr fun inner hinner => by rw [helement] at hinner; cases hinner
    exact congrArg (fun result : Element × Bool => (result.1, state.2 || result.2)) hsame
  | some element =>
    rw [foldl_map]
    dsimp only
    rw [foldl_children]
    refine congrArg (fun result : Element × Bool => (result.1, state.2 || result.2))
      (atAddress_congr fun inner hinner => ?_)
    obtain rfl : element = inner := Option.some.inj (helement.symm.trans hinner)
    exact wildcard_eq_foldl path element

/-- **The stack goes down the tree as the recursion does.** -/
theorem updateXmlWildcard_eq (path : List Text) (root : Element) :
    updateXmlWildcard resolved path root = wildcard resolved path root := by
  rw [updateXmlWildcard, (wildcardLoop resolved).loop_eq_foldl loop_step]
  exact Prod.ext rfl (Bool.false_or _)

end Wildcard

/-! ## Nothing written -/

section Unchanged

variable {resolved : ResolvedReplacement} {element : Element} {tag : Text} {f : Element → Element × Bool}

/-- Where nothing is written, the element is as it was. -/
def Kept (element : Element) (result : Element × Bool) : Prop := result.2 = false → result.1 = element

theorem Kept.refl (element : Element) (wrote : Bool) : Kept element (element, wrote) := fun _ => rfl

theorem Kept.wrote (element changed : Element) : Kept element (changed, true) := nofun

theorem writeXmlLeaf_kept (element : Element) (exist : Bool) : Kept element (writeXmlLeaf resolved element exist) := by
  unfold writeXmlLeaf
  split
  · split
    · exact .refl _ _
    · dsimp only
      split
      · exact .refl _ _
      · exact .wrote _ _
  · dsimp only
    split
    · exact .refl _ _
    · exact .wrote _ _

theorem pushLeaf_kept (element : Element) (tag : Text) : Kept element (pushLeaf resolved element tag) := by
  rw [pushLeaf]
  dsimp only
  split
  · exact .wrote _ _
  · exact .refl _ _

theorem inChild_kept (hf : ∀ child, Kept child (f child)) {nodes nodes' : List XmlNode}
    (h : inChild tag f nodes = some (nodes', false)) : nodes' = nodes := by
  induction nodes generalizing nodes' with
  | nil => cases h
  | cons node nodes ih =>
    have hrest (hmap : ((inChild tag f nodes).map fun (children, wrote) => (node :: children, wrote)) =
        some (nodes', false)) :
        nodes' = node :: nodes := by
      obtain ⟨⟨children, wrote⟩, hinner, hpair⟩ := Option.map_eq_some_iff.mp hmap
      obtain ⟨rfl, rfl⟩ := Prod.mk.inj hpair
      rw [ih hinner]
    cases node with
    | element child =>
      rw [inChild] at h
      split at h
      · obtain ⟨rfl, hwrote⟩ := Prod.mk.inj (Option.some.inj h)
        rw [hf child hwrote]
      · exact hrest h
    | _ => exact hrest h

theorem children_kept {children : List XmlNode} {wrote : Bool} (h : wrote = false → children = element.children) :
    Kept element ({ element with children }, wrote) := by
  intro hwrote
  cases element
  exact congrArg (Element.mk _ _) (h hwrote)

theorem applyXmlLeaf_kept (element : Element) (tag : Text) : Kept element (applyXmlLeaf resolved element tag) := by
  unfold applyXmlLeaf
  split
  next children wrote hchild =>
    refine children_kept ?_
    rintro rfl
    exact inChild_kept (writeXmlLeaf_kept · true) hchild
  next => exact pushLeaf_kept element tag

/-- Without a wildcard no element is made before the leaf is known to be written. -/
theorem updateXmlElement_kept (path : List Text) (element : Element) :
    Kept element (updateXmlElement resolved path element) := by
  induction path generalizing element with
  | nil => exact .refl _ _
  | cons tag path ih =>
    cases path with
    | nil => exact applyXmlLeaf_kept element tag
    | cons next path =>
      unfold updateXmlElement
      split
      next children wrote hchild =>
        refine children_kept ?_
        rintro rfl
        exact inChild_kept ih hchild
      next =>
        split
        · split
          · exact .wrote _ _
          · exact .refl _ _
        · exact .refl _ _

/-! ### With a wildcard -/

/-- No element that the path reaches lacks a child that is not the last on the path. -/
def AncestorsExist (insertNew : Bool) : List Text → Element → Prop
  | tag :: next :: path, element =>
    (insertNew = true → tag ≠ ['*'] → ∃ node ∈ element.children, isMatch tag node) ∧
      ∀ child, .element child ∈ element.children → isMatch tag (.element child) →
        AncestorsExist insertNew (next :: path) child
  | _, _ => True

theorem overNode_of_match {child : Element} (h : isMatch tag (.element child)) :
    overNode tag f (.element child) = (.element (f child).1, (f child).2) := if_pos h

theorem overNode_of_not_match {node : XmlNode} (h : isMatch tag node = false) :
    overNode tag f node = (node, false) := by
  cases node with
  | element child => exact if_neg (Bool.eq_false_iff.mp h)
  | _ => rfl

theorem overChildren_eq_self_iff :
    (overChildren tag f element).1 = element ↔
      ∀ child, .element child ∈ element.children → isMatch tag (.element child) → (f child).1 = child := by
  have hchildren : (overChildren tag f element).1 = element ↔
      (element.children.map fun node => (overNode tag f node).1) = element.children.map id := by
    rw [map_id]
    refine ⟨fun h => congrArg Element.children h, fun h => ?_⟩
    cases element
    exact congrArg (Element.mk _ _) h
  rw [hchildren, map_inj_left]
  refine ⟨fun h child hmem hmatch => ?_, fun h node hmem => ?_⟩
  · have hnode := h _ hmem
    rw [overNode_of_match hmatch] at hnode
    exact XmlNode.element.inj hnode
  · cases hmatch : isMatch tag node with
    | false => rw [overNode_of_not_match hmatch]; rfl
    | true =>
      cases node with
      | element child => rw [overNode_of_match hmatch, h child hmem hmatch]; rfl
      | _ => cases hmatch

theorem wrote_child (h : (overChildren tag f element).2 = false) {child : Element}
    (hmem : .element child ∈ element.children) (hmatch : isMatch tag (.element child)) : (f child).2 = false := by
  have hnode := any_eq_false.mp h _ hmem
  rw [overNode_of_match hmatch] at hnode
  exact Bool.eq_false_iff.mpr hnode

theorem push_ne_self (child : Element) (f : Element → Element × Bool) :
    (overChildren tag f (element.push child)).1 ≠ element := by
  intro heq
  have hlength := congrArg (fun element => element.children.length) heq
  rw [overChildren, length_map, Element.push, length_append] at hlength
  exact absurd hlength (Nat.succ_ne_self _)

theorem wildcard_leaf_kept (tag : Text) (element : Element) : Kept element (wildcard resolved [tag] element) := by
  rw [wildcard]
  split
  · exact .refl _ _
  · split
    · exact pushLeaf_kept element tag
    next hfound =>
      rw [isEmpty_nil, Bool.and_true, Bool.not_eq_true', Bool.not_eq_false] at hfound
      rw [if_pos hfound]
      intro hwrote
      exact overChildren_eq_self_iff.mpr fun child hmem hmatch =>
        writeXmlLeaf_kept child true (wrote_child hwrote hmem hmatch)

/-- The recursion leaves the tree as it was exactly if it has no ancestor to make. -/
theorem wildcard_unchanged_iff (path : List Text) (element : Element)
    (hwrote : (wildcard resolved path element).2 = false) :
    (wildcard resolved path element).1 = element ↔ AncestorsExist resolved.insertNew path element := by
  induction path generalizing element with
  | nil => exact iff_of_true rfl trivial
  | cons tag path ih =>
    cases path with
    | nil => exact iff_of_true (wildcard_leaf_kept tag element hwrote) trivial
    | cons next path =>
      rw [wildcard] at hwrote ⊢
      cases hfound : element.children.any (isMatch tag) with
      | true =>
        rw [hfound] at hwrote
        have hchild (child) (hmem : .element child ∈ element.children) (hmatch : isMatch tag (.element child)) :=
          ih child (wrote_child hwrote hmem hmatch)
        refine overChildren_eq_self_iff.trans ⟨fun h => ⟨fun _ _ => any_eq_true.mp hfound, ?_⟩, fun h => ?_⟩
        · exact fun child hmem hmatch => (hchild child hmem hmatch).mp (h child hmem hmatch)
        · exact fun child hmem hmatch => (hchild child hmem hmatch).mpr (h.2 child hmem hmatch)
      | false =>
        have hnone := any_eq_false.mp hfound
        by_cases hskip : (tag = ['*'] || !resolved.insertNew) = true
        · rw [hskip]
          refine iff_of_true rfl ⟨fun hinsert hstar => ?_, fun child hmem hmatch => absurd hmatch (hnone _ hmem)⟩
          rw [hinsert, decide_eq_false hstar] at hskip
          cases hskip
        · rw [Bool.eq_false_iff.mpr hskip]
          refine iff_of_false (push_ne_self (.new tag) _) fun h => ?_
          have hnew : resolved.insertNew = true ∧ tag ≠ ['*'] := by
            rw [Bool.or_eq_true, not_or, decide_eq_true_eq, Bool.not_eq_true', Bool.not_eq_false] at hskip
            exact hskip.symm
          obtain ⟨node, hmem, hmatch⟩ := h.1 hnew.1 hnew.2
          exact hnone node hmem hmatch

/-- **Where no leaf is written, the tree is as it was**: always if the path is followed without wildcards, and if
it is followed with them exactly where the ancestors exist. -/
theorem unchanged_iff (resolved : ResolvedReplacement) (path : List Text) (root : Element) :
    ((updateXmlElement resolved path root).2 = false → (updateXmlElement resolved path root).1 = root) ∧
      ((updateXmlWildcard resolved path root).2 = false →
        ((updateXmlWildcard resolved path root).1 = root ↔ AncestorsExist resolved.insertNew path root)) := by
  refine ⟨updateXmlElement_kept path root, fun hwrote => ?_⟩
  rw [updateXmlWildcard_eq] at hwrote ⊢
  exact wildcard_unchanged_iff path root hwrote

/-- `<root/>` and `a.*`, with `insert_new`: no leaf is reached, and `<a/>` is left in the tree. -/
theorem ancestor_left_behind :
    let resolved : ResolvedReplacement := ⟨"a.*".toList, "x".toList, true, true, none⟩
    let path := [['a'], ['*']]
    (updateXmlWildcard resolved path (.new "root".toList)).2 = false ∧
      (updateXmlWildcard resolved path (.new "root".toList)).1 ≠ .new "root".toList := by
  intro resolved path
  rw [updateXmlWildcard_eq]
  exact ⟨rfl, fun heq => nomatch congrArg Element.children heq⟩

end Unchanged

end Wings.Configuration.XmlFile
