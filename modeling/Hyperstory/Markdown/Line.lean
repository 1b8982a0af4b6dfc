import Hyperstory.Text.Blank

/-! Lines of a document, as the containers around them leave them. -/
namespace Hyperstory.Markdown

/-- A line and the blanks that indent its content. -/
structure Line where
  /-- What the containers leave of the line. -/
  text : List Char := []
  lead : Nat := 0
  /-- The column of the content. A line that only continues a paragraph is left of all columns. -/
  indent : Int := 0
  /-- The column where the text begins, on which the width of tabs depends. -/
  origin : Nat := 0
  ended : Bool := true
  deriving DecidableEq, Repr, Inhabited

/-- The blanks at the beginning of a text that starts at `column`: how many they are, and the
column after them. A tab goes to the next multiple of four, counted from `origin`. -/
def leadingBlanks (origin column : Nat) : List Char → Nat × Nat
  | ' ' :: cs =>
    let (n, stop) := leadingBlanks origin (column + 1) cs
    (n + 1, stop)
  | '\t' :: cs =>
    let (n, stop) := leadingBlanks origin (column + (4 - (column + origin) % 4)) cs
    (n + 1, stop)
  | _ => (0, column)

namespace Line

def ofText (text : List Char) (ended : Bool) : Line :=
  let (lead, column) := leadingBlanks 0 0 text
  { text, lead, indent := column, ended }

def content (l : Line) : List Char := l.text.drop l.lead

def isEmpty (l : Line) : Bool := l.content.isEmpty

def written (l : Line) : List Char := l.content ++ if l.ended then ['\n'] else []

/-- The line has no content, and the source ends before `width` columns of it. -/
def isCut (width : Nat) (l : Line) : Bool := l.isEmpty && !l.ended && l.indent < width

/-- Drops columns up to `width`, keeping the part of a tab that reaches beyond it. Characters
before the content count as one column each; `place` is the number of characters dropped. -/
def dropColumns (l : Line) (width : Nat) (column place : Nat) : List Char → List Char
  | [] => List.replicate (column - width) ' '
  | c :: cs =>
    if column < width then
      if c == '\t' then
        l.dropColumns width (column + (4 - (column + l.origin) % 4)) (place + 1) cs
      else if c == ' ' || place < l.lead then l.dropColumns width (column + 1) (place + 1) cs
      else c :: cs
    else List.replicate (column - width) ' ' ++ c :: cs

def fromColumn (width : Nat) (l : Line) : List Char := l.dropColumns width 0 0 l.text

end Line

/-- The lines of a source. What stands behind the last line feed is a line unless it is blank. -/
def sourceLines (source : List Char) : List Line :=
  let parts := source.splitOn '\n'
  let whole := parts.dropLast.map fun p => Line.ofText p true
  match parts.getLast? with
  | some p => if p.all Text.isIndent then whole else whole ++ [Line.ofText p false]
  | none => whole

/-- The text of several lines from a column on; `closed` keeps the line feed behind the last. -/
def joinLines (width : Nat) (closed : Bool) : List Line → List Char
  | [] => []
  | [l] => l.fromColumn width ++ if closed && l.ended then ['\n'] else []
  | l :: ls => l.fromColumn width ++ '\n' :: joinLines width closed ls

end Hyperstory.Markdown
