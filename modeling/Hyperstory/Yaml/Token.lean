/-! Tokens of a YAML text, and what can be wrong with one. -/
namespace Hyperstory.Yaml

/-- Why a text has no value. -/
inductive Defect where
  /-- It is no YAML, or its tags do not fit its nodes. -/
  | malformed
  /-- Its bytes are not text. -/
  | unreadable
  /-- An escape names no character. -/
  | codePoint
  /-- A number is too large to be worked with. -/
  | tooLarge
  /-- A number is not written like one. -/
  | number
  /-- A number has no digits at all. -/
  | emptyNumber
  /-- A truth value is not written like one. -/
  | flag
  /-- A time is not written like one. -/
  | timestamp
  | date
  /-- A mapping stands where a time is read. -/
  | timeless
  /-- Nodes are nested too deep, or without end. -/
  | endless
  deriving DecidableEq, Repr

/-- A value, or why there is none. -/
abbrev Read := Except Defect

/-- The most decimal digits with which a number is read or shown. -/
def maxDigits : Nat := 4300

/-- What a scanner tells apart. -/
inductive Token where
  | version (major : Nat)
  | handle (name target : String)
  | otherDirective
  | documentStart
  | documentEnd
  | sequenceStart
  | mappingStart
  | blockEnd
  | listOpen
  | listClose
  | mapOpen
  | mapClose
  | entry
  | comma
  | key
  | value
  | alias (name : String)
  | anchor (name : String)
  /-- A tag without a handle is written in full. -/
  | tag (handle : Option String) (suffix : String)
  | scalar (text : List Char) (plain : Bool)
  /-- What comes next cannot be read. -/
  | broken (d : Defect)
  deriving DecidableEq, Repr

end Hyperstory.Yaml
