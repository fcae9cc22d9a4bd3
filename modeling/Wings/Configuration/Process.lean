import Wings.Lib.Text

/-!
# Wings.Configuration.Process — replacements in configuration files

`server/configuration/process/mod.rs`: a replacement has a value, whose placeholders have been filled in already,
and gates that decide from the value that exists whether it is written.

* `ResolvedReplacement`, `ResolvedReplacement.text` — the value that is written, if one is.
-/

namespace Wings.Configuration

open Lib

/-- A regular expression that has been compiled. -/
structure Regex where
  isMatch : Text → Bool
  replaceAll : Text → Text → Text

inductive IfValue where
  | exact (value : Text)
  | regex (regex : Regex)
  | unusable

inductive Replacement where
  | value
  | substituted (text : Text)

def Replacement.text (value : Text) : Replacement → Text
  | .value => value
  | .substituted text => text

structure ResolvedReplacement where
  match_ : Text
  value : Text
  insertNew : Bool
  updateExisting : Bool
  ifValue : Option IfValue

namespace ResolvedReplacement

def applyIfValue (r : ResolvedReplacement) (existing value : Text) : Option Replacement :=
  match r.ifValue with
  | none => none
  | some .unusable => none
  | some (.regex regex) => if regex.isMatch existing then some (.substituted (regex.replaceAll existing value)) else none
  | some (.exact ifValue) => if existing ≠ ifValue then none else some .value

def gateWith (r : ResolvedReplacement) (existing : Option Text) (value : Text) : Option Replacement :=
  if (match existing with
      | some _ => !r.updateExisting
      | none => !r.insertNew) then none
  else
    match r.ifValue, existing with
    | none, _ => some .value
    | some _, none => none
    | some _, some existing => r.applyIfValue existing value

def gate (r : ResolvedReplacement) (existing : Option Text) : Option Replacement := r.gateWith existing r.value

def text (r : ResolvedReplacement) (existing : Option Text) : Option Text := (r.gate existing).map (·.text r.value)

def textWith (r : ResolvedReplacement) (existing : Option Text) (value : Text) : Option Text :=
  (r.gateWith existing value).map (·.text value)

end ResolvedReplacement

end Wings.Configuration
