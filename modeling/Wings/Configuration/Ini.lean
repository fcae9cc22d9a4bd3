import Wings.Configuration.Process

/-!
# Wings.Configuration.Ini — rewriting INI files

`process/ini.rs`: the items of the file are passed once.  A property line uses up the first replacement that is
left for its section and key, and at the end of a section every replacement that is left for it is inserted there.
-/

namespace Wings.Configuration.Ini

open Lib

/-! ## Paths and values -/

structure PathState where
  section_ : Text
  key : Text
  bracketDepth : ℤ
  inSection : Bool

def PathState.push (s : PathState) (ch : Char) : PathState :=
  if ch = '[' then { s with bracketDepth := s.bracketDepth + 1 }
  else if ch = ']' then { s with bracketDepth := s.bracketDepth - 1 }
  else if ch = '.' then
    if s.bracketDepth > 0 then { s with section_ := s.section_ ++ [ch] }
    else if s.inSection ∧ s.section_ ≠ [] then { s with inSection := false }
    else { s with key := s.key ++ [ch] }
  else if s.inSection then { s with section_ := s.section_ ++ [ch] }
  else { s with key := s.key ++ [ch] }

/-- `parse_ini_path`: the section and the key of a path. -/
def parseIniPath (path : Text) : Text × Text :=
  let s := path.foldl PathState.push ⟨[], [], 0, true⟩
  if s.inSection then ([], s.section_) else (s.section_, s.key)

def stripFrom (before : Text) (afterWhitespace : Bool) : Text → Text
  | [] => before
  | ch :: rest =>
    if afterWhitespace ∧ (ch = ';' ∨ ch = '#') then trimEnd before else stripFrom (before ++ [ch]) (isWhitespace ch) rest

def stripInlineComment (value : Text) : Text := stripFrom [] false value

/-- `rewrite_property`: the new value behind the first `=` and its blanks. -/
def rewriteProperty (raw key newValue : Text) : Text :=
  match raw.dropWhile (· != '=') with
  | [] => key ++ '=' :: newValue
  | _ :: after => raw.takeWhile (· != '=') ++ '=' :: (after.takeWhile isWhitespace ++ newValue)

/-! ## Reading -/

inductive Line where
  | section (name : Text)
  | property (key : Text) (val : Option Text)
  | other
  deriving DecidableEq

/-- A text without a line break. -/
def OneLine (text : Text) : Prop := '\n' ∉ text ∧ '\r' ∉ text

/-- The parser `ini_roundtrip`: the lines of a text that a line break follows.  A line with a key and a value is
read with that key, whatever the value is, if it is without a value; so is a line that has a new value, and a
header with its name. -/
structure Reader where
  read : Text → List Line
  blank : read [] = [.other]
  header : ∀ {raw name}, read raw = [.section name] → read ('[' :: (name ++ [']'])) = [.section name]
  insert : ∀ {key val value}, read (key ++ ['=']) = [.property key val] → OneLine value →
    ∃ val', read (key ++ '=' :: value) = [.property key val']
  rewrite : ∀ {raw key val value}, read raw = [.property key val] → '=' ∈ raw → OneLine value →
    ∃ val', read (rewriteProperty raw key value) = [.property key val']
  value : ∀ {raw key val}, read raw = [.property key (some val)] → OneLine val

structure IniFile (reader : Reader) where
  lines : List (Line × Text)
  faithful : ∀ l ∈ lines, reader.read l.2 = [l.1]

inductive Item where
  | sectionEnd
  | section (name raw : Text)
  | property (key : Text) (val : Option Text) (raw : Text)
  | other (raw : Text)

def itemsOf : Line × Text → List Item
  | (.section name, raw) => [.sectionEnd, .section name raw]
  | (.property key val, raw) => [.property key val raw]
  | (.other, raw) => [.other raw]

/-- The items of a file: a section, or what comes before the first one, ends at the next header or at the end. -/
def items (lines : List (Line × Text)) : List Item := lines.flatMap itemsOf ++ [.sectionEnd]

/-- The property lines for a key in a section, from a line on that is in the section `current`. -/
def countFrom (s : Option Text) (k : Text) (current : Option Text) : List Line → ℕ
  | [] => 0
  | .section name :: rest => countFrom s k (some name) rest
  | .property key _ :: rest => (if current = s ∧ key = k then 1 else 0) + countFrom s k current rest
  | .other :: rest => countFrom s k current rest

/-- The property lines for a key in a section. -/
def count (s : Option Text) (k : Text) (lines : List Line) : ℕ := countFrom s k none lines

/-! ## Writing -/

structure PendingReplacement where
  section_ : Option Text
  key : Text
  resolved : ResolvedReplacement
  insertValue : Option Text
  applied : Bool

/-- The section and the key of a replacement. -/
def target (r : ResolvedReplacement) : Option Text × Text :=
  (if (parseIniPath r.match_).1 = [] then none else some (parseIniPath r.match_).1, (parseIniPath r.match_).2)

def pendingOf (r : ResolvedReplacement) : PendingReplacement where
  section_ := (target r).1
  key := (target r).2
  resolved := r
  insertValue := r.text none
  applied := false

/-- The output is kept as its lines; each of them is followed by `newline`. -/
structure State where
  pending : List PendingReplacement
  current : Option Text
  out : List Text

namespace PendingReplacement

/-- Whether it is inserted at the end of the section. -/
def inserts (current : Option Text) (p : PendingReplacement) : Bool :=
  !p.applied && decide (p.section_ = current) && p.insertValue.isSome

def line (p : PendingReplacement) : Text := p.key ++ '=' :: p.insertValue.getD []

def matches_ (current : Option Text) (key : Text) (p : PendingReplacement) : Bool :=
  !p.applied && decide (p.section_ = current) && decide (p.key = key)

end PendingReplacement

/-- The first replacement that matches a property, which is used up. -/
def takeMatch (current : Option Text) (key : Text) :
    List PendingReplacement → Option (PendingReplacement × List PendingReplacement)
  | [] => none
  | p :: ps =>
    if p.matches_ current key then some (p, { p with applied := true } :: ps)
    else (takeMatch current key ps).map fun (q, qs) => (q, p :: qs)

namespace State

def sectionEnd (st : State) : State :=
  { st with
    pending := st.pending.map fun p => if p.inserts st.current then { p with applied := true } else p
    out := st.out ++ (st.pending.filter (·.inserts st.current)).map (·.line) }

def property (st : State) (key : Text) (val : Option Text) (raw : Text) : State :=
  match takeMatch st.current key st.pending with
  | some (p, pending) =>
    let existing := stripInlineComment (trim (val.getD []))
    let line :=
      match p.resolved.text (some existing) with
      | some value => rewriteProperty raw key value
      | none => raw
    { st with pending, out := st.out ++ [line] }
  | none => { st with out := st.out ++ [raw] }

def item (st : State) : Item → State
  | .sectionEnd => st.sectionEnd
  | .section name raw => { st with current := some name, out := st.out ++ [raw] }
  | .property key val raw => st.property key val raw
  | .other raw => { st with out := st.out ++ [raw] }

def seeSection (seen : List Text) (p : PendingReplacement) : List Text :=
  match p.applied, p.insertValue, p.section_ with
  | false, some _, some name => if name ∈ seen then seen else seen ++ [name]
  | _, _, _ => seen

/-- The sections of the replacements that are left. -/
def missingSections (st : State) : List Text := st.pending.foldl seeSection []

def addSection (st : State) (name : Text) : State :=
  { st with out := st.out ++ (if st.out = [] then [] else [[]]) ++ ['[' :: (name ++ [']'])] ++
      (st.pending.filter (·.inserts (some name))).map (·.line) }

end State

def written (replacements : List ResolvedReplacement) (lines : List (Line × Text)) : List Text :=
  let st := (items lines).foldl State.item ⟨replacements.map pendingOf, none, []⟩
  (st.missingSections.foldl State.addSection st).out

/-- `process_file`; `newline` is the line break of the file. -/
def processFile (newline : Text) (replacements : List ResolvedReplacement) (lines : List (Line × Text)) : Text :=
  (written replacements lines).flatMap (· ++ newline)

end Wings.Configuration.Ini
