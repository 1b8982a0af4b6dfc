import Hyperstory.Yaml.Token

/-! A place in a YAML text. Its lines end with line feeds. -/
namespace Hyperstory.Yaml

def isBreak (c : Char) : Bool := c == '\n' || c == '\x85' || c == '\u2028' || c == '\u2029'

def isBlank (c : Char) : Bool := c == ' ' || c == '\t'

/-- What may stand behind an indicator: a blank, the end of the line or of the text. -/
def endsWord (c : Option Char) : Bool :=
  match c with
  | none => true
  | some c => isBlank c || isBreak c

/-- What may stand behind a tag or a header: a space, the end of the line or of the text. -/
def endsHeader (c : Option Char) : Bool := endsWord c && c != some '\t'

/-- The rest of a text, with the place where it begins. -/
structure Cursor where
  rest : List Char
  index : Nat := 0
  line : Nat := 0
  column : Nat := 0
  /-- Why nothing can be read behind the rest, if the text is not whole. -/
  wall : Option Defect := none

namespace Cursor

/-- What is wrong if the rest ends too early. -/
def cutOff (c : Cursor) : Defect := c.wall.getD .malformed

def head? (c : Cursor) : Option Char := c.rest.head?

def peek (c : Cursor) (k : Nat) : Option Char := c.rest[k]?

/-- Goes on by one character. A byte order mark takes no column. -/
def next (c : Cursor) : Cursor :=
  match c.rest with
  | [] => c
  | ch :: rest =>
    if isBreak ch then { c with rest, index := c.index + 1, line := c.line + 1, column := 0 }
    else
      { c with
        rest, index := c.index + 1, column := if ch == '\ufeff' then c.column else c.column + 1 }

def skip : Nat → Cursor → Cursor
  | 0, c => c
  | n + 1, c => skip n c.next

def run (c : Cursor) (accept : Char → Bool) : List Char := c.rest.takeWhile accept

def skipWhile (c : Cursor) (accept : Char → Bool) : Cursor := c.skip (c.run accept).length

def sees (c : Cursor) (accept : Char → Bool) : Bool := (c.head?.map accept).getD false

def atBreak (c : Cursor) : Bool := c.sees isBreak

/-- Takes the end of a line: all of them read as a line feed but the separators of lines and
paragraphs. -/
def lineBreak (c : Cursor) : List Char × Cursor :=
  match c.head? with
  | some ch =>
    if isBreak ch then ([if ch == '\x85' then '\n' else ch], c.next) else ([], c)
  | none => ([], c)

/-- A mark of three characters stands here, and nothing is joined to it. -/
def atMark (c : Cursor) (mark : String) : Bool :=
  mark.toList.isPrefixOf c.rest && endsWord (c.peek 3)

def atSeparator (c : Cursor) : Bool := c.atMark "---" || c.atMark "..."

/-- Skips a comment and the blanks before it up to the end of the line; nothing else may stand
there. -/
def skipComment (c : Cursor) : Read Cursor :=
  let c := c.skipWhile (· == ' ')
  let c := if c.head? == some '#' then c.skipWhile (!isBreak ·) else c
  if c.rest.isEmpty || c.atBreak then .ok c.lineBreak.2 else .error .malformed

end Cursor

end Hyperstory.Yaml
