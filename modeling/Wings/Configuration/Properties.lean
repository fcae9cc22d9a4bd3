import Wings.Configuration.Process

/-!
# Wings.Configuration.Properties — rewriting properties files

`process/properties.rs`: physical lines are joined to logical lines at backslashes, a logical line is split into a
key and a value, and both are unescaped.  The file is written again line by line; a value is escaped, a key is
written as it is.

* `quoteToAscii` — the value as it is written.
-/

namespace Wings.Configuration.Properties

open Lib

/-! ## Reading lines -/

/-- `BufRead::lines` drops a carriage return before the line feed. -/
def dropCr (line : Text) : Text := if line.getLast? = some '\r' then line.dropLast else line

/-- The lines of a text, with what has been read of the first; a last line may have no line feed. -/
def readLines (line : Text) : Text → List Text
  | [] => if line = [] then [] else [line]
  | c :: rest => if c = '\n' then dropCr line :: readLines [] rest else readLines (line ++ [c]) rest

def lines (text : Text) : List Text := readLines [] text

def isContinuation (line : Text) : Bool := (line.reverse.takeWhile (· == '\\')).length % 2 == 1

/-! ## Unescaping -/

def toDigit (c : Char) : Option ℕ :=
  if '0' ≤ c ∧ c ≤ '9' then some (c.toNat - 48)
  else if 'a' ≤ c ∧ c ≤ 'f' then some (c.toNat - 87)
  else if 'A' ≤ c ∧ c ≤ 'F' then some (c.toNat - 55)
  else none

def digits (value : ℕ) : Text → Option ℕ
  | [] => some value
  | c :: rest => (toDigit c).bind fun d => digits (value * 16 + d) rest

/-- `u32::from_str_radix(_, 16)` of a few digits; it takes a sign. -/
def fromStrRadix : Text → Option ℕ
  | [] => none
  | ['+'] => none
  | '+' :: rest => digits 0 rest
  | text => digits 0 text

def fromU32 (code : ℕ) : Option Char := if code.isValidChar then some (Char.ofNat code) else none

/-- The character that an escaped one stands for. -/
def unescapeChar (c : Char) : Char :=
  if c = 'n' then '\n' else if c = 'r' then '\r' else if c = 't' then '\t' else if c = 'f' then '\x0C' else c

def unescape : Text → Option Text
  | [] => some []
  | '\\' :: 'u' :: a :: b :: c :: d :: rest => do
    let u ← (fromStrRadix [a, b, c, d]).bind fromU32
    let output ← unescape rest
    return u :: output
  | '\\' :: 'u' :: _ => none
  | ['\\'] => some ['\\']
  | '\\' :: c :: rest => (unescape rest).map (unescapeChar c :: ·)
  | c :: rest => (unescape rest).map (c :: ·)

/-! ## Logical lines -/

inductive PropertyLine where
  | pair (key value : Text)
  | comment (raw : Text)
  | blank
  | raw (raw : Text)
  deriving DecidableEq

def isSeparator (c : Char) : Bool := c == '=' || c == ':' || isWhitespace c

/-- The text of the key, and what follows from the separator on. -/
def splitKey : Text → Text × Text
  | [] => ([], [])
  | ['\\'] => (['\\'], [])
  | '\\' :: c :: rest => ('\\' :: c :: (splitKey rest).1, (splitKey rest).2)
  | c :: rest => if isSeparator c then ([], c :: rest) else (c :: (splitKey rest).1, (splitKey rest).2)

def leadingBlanks (text : Text) : ℕ := (text.takeWhile isWhitespace).length

/-- The characters of a separator that began with a blank. -/
def separatorRest : Text → ℕ
  | [] => 0
  | c :: rest =>
    if c = '=' ∨ c = ':' then 1 + leadingBlanks rest else if isWhitespace c then 1 + separatorRest rest else 0

/-- `sep_len`, the number of characters in the separator. -/
def separatorLength : Text → ℕ
  | [] => 0
  | c :: rest => 1 + if isWhitespace c then separatorRest rest else leadingBlanks rest

def getFrom (n : ℕ) : Text → Option Text
  | [] => if n = 0 then some [] else none
  | c :: rest => if n = 0 then some (c :: rest) else if c.utf8Size ≤ n then getFrom (n - c.utf8Size) rest else none

/-- The value's text: `sep_len` is a number of characters and is used as one of bytes. -/
def valueText (rest : Text) : Text := (getFrom (separatorLength rest) rest).getD []

/-- The key and the value of a logical line, if they can be unescaped. -/
def pairOf (logical : Text) : Option (Text × Text) :=
  (unescape (splitKey logical).1).bind fun key =>
    (unescape (valueText (splitKey logical).2)).map fun value => (key, value)

def classify (logical raw : Text) : PropertyLine :=
  match trimStart logical with
  | [] => .blank
  | c :: rest =>
    if c = '#' ∨ c = '!' then .comment raw
    else
      match pairOf (c :: rest) with
      | some (key, value) => .pair key value
      | none => .raw raw

/-- The items of the iterator, when a logical line has been begun and these lines are left. -/
def parseFrom (logical raw : Text) : List Text → List PropertyLine
  | [] => [classify (if isContinuation logical then logical.dropLast else logical) raw]
  | next :: rest =>
    if isContinuation logical then parseFrom (logical.dropLast ++ trimStart next) (raw ++ '\n' :: next) rest
    else classify logical raw :: parseFrom next next rest

def parseLines : List Text → List PropertyLine
  | [] => []
  | line :: rest => parseFrom line line rest

def parse (text : Text) : List PropertyLine := parseLines (lines text)

/-! ## Writing -/

def hexDigit (n : ℕ) : Char := if n < 10 then Char.ofNat (48 + n) else Char.ofNat (87 + n)

/-- `{:0width x}` of a number that has at most `width` digits. -/
def hex : ℕ → ℕ → Text
  | 0, _ => []
  | width + 1, n => hex width (n / 16) ++ [hexDigit (n % 16)]

def quoteChar (c : Char) : Text :=
  if c = '\\' then ['\\', '\\']
  else if c = '"' then ['\\', '"']
  else if c = '\n' then ['\\', 'n']
  else if c = '\r' then ['\\', 'r']
  else if c = '\t' then ['\\', 't']
  else if c = '\x08' then ['\\', 'b']
  else if c = '\x0C' then ['\\', 'f']
  else if c = '\x07' then ['\\', 'a']
  else if c = '\x0B' then ['\\', 'v']
  else if ' ' ≤ c ∧ c ≤ '~' then [c]
  else if c.toNat < 128 then '\\' :: 'x' :: hex 2 c.toNat
  else if c.toNat < 0x10000 then '\\' :: 'u' :: hex 4 c.toNat
  else '\\' :: 'U' :: hex 8 c.toNat

def quoteToAscii (s : Text) : Text := s.flatMap quoteChar

def render : PropertyLine → Text
  | .comment raw => raw ++ ['\n']
  | .pair key value => key ++ '=' :: (quoteToAscii value ++ ['\n'])
  | .blank => ['\n']
  | .raw raw => raw ++ ['\n']

/-- The value after every replacement of the key. -/
def replaced (replacements : List ResolvedReplacement) (key value : Text) : Text :=
  replacements.foldl (fun value r => if r.match_ ≠ key then value else (r.text (some value)).getD value) value

def rewrite (replacements : List ResolvedReplacement) : PropertyLine → PropertyLine
  | .pair key value => .pair key (replaced replacements key value)
  | line => line

def PropertyLine.key? : PropertyLine → Option Text
  | .pair key _ => some key
  | _ => none

def keys (items : List PropertyLine) : List Text := items.filterMap PropertyLine.key?

/-- The pairs that are written behind the file. -/
def appended (replacements : List ResolvedReplacement) (foundKeys : List Text) : List PropertyLine :=
  replacements.filterMap fun r => if r.match_ ∈ foundKeys then none else (r.text none).map (.pair r.match_)

def written (replacements : List ResolvedReplacement) (content : Text) : List PropertyLine :=
  (parse content).map (rewrite replacements) ++ appended replacements (keys (parse content))

def processFile (replacements : List ResolvedReplacement) (content : Text) : Text :=
  (written replacements content).flatMap render

end Wings.Configuration.Properties
