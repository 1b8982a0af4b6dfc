import Hyperstory.Markdown.Layout

/-! What block quotes and list items leave of their lines. -/
namespace Hyperstory.Markdown

namespace Line

/-- The line without the mark of a block quote. `column` is where its text begins, `shift` what a
tab has already used of its width, and `blank` whether a blank after the mark goes with it. -/
def unmarked (l : Line) (text : List Char) (column shift : Nat) (blank : Bool) : Line :=
  let (lead, stop) := leadingBlanks (l.origin + shift) column text
  { text, lead, indent := stop - column, ended := l.ended
    origin := l.indent.toNat + 1 + if blank then 1 else 0 }

/-- The line without the mark of a block quote and the blank after it. A tab after the mark may
be wider than that blank. -/
def unquoted (l : Line) : Line :=
  let column := l.indent.toNat + 1
  match l.content.drop 1 with
  | ' ' :: rest => l.unmarked rest (column + 1) 0 true
  | '\t' :: rest =>
    if (l.origin + column) % 4 = 3 then l.unmarked rest (column + 1) 0 true
    else l.unmarked ('\t' :: rest) column 1 true
  | rest => l.unmarked rest column 0 false

/-- The line as a continuation of a paragraph, and of nothing else. -/
def lazy (l : Line) : Line := { l with indent := -1 }

def markEnd (l : Line) (m : ItemMark) : Nat := l.indent.toNat + m.length

/-- The blanks after the mark of a list item, and the column after them. -/
def blanksAfter (l : Line) (m : ItemMark) : Nat × Nat :=
  leadingBlanks l.origin (l.markEnd m) (l.content.drop m.length)

/-- The line with the mark of a list item taken for blanks. -/
def inItem (l : Line) (m : ItemMark) : Line :=
  let (n, column) := l.blanksAfter m
  { l with lead := l.lead + m.length + n, indent := column }

/-- The column where the content of a list item begins: at the first character after the mark,
or one column behind the mark if there is none or if it is indented like code. -/
def itemIndent (l : Line) (m : ItemMark) : Nat :=
  let (_, column) := l.blanksAfter m
  let width := column - l.markEnd m
  l.markEnd m + if (l.inItem m).isEmpty || 4 < width then 1 else width

end Line

namespace Layout

def modifyLine (l : Layout) (i : Nat) (f : Line → Line) : Layout :=
  { l with lines := l.lines.modify i f }

/-- The layout inside a list item that begins on line `i`. -/
def inItem (l : Layout) (i : Nat) (m : ItemMark) : Layout :=
  { l.modifyLine i (·.inItem m) with
    listIndent := some l.indent
    indent := (l.line i).itemIndent m }

/-- Takes the marks of a block quote from the lines from `i` on, `n` lines at most. A line without
one still belongs to the quote if it continues a paragraph; `blank` says that the line before it was
empty. The result is the layout and the line after the quote. -/
def unquoteFrom (l : Layout) (stop : Nat) : Nat → Nat → Bool → Layout × Nat
  | 0, i, _ => (l, i)
  | n + 1, i, blank =>
    if stop ≤ i || l.isEmpty i then (l, i)
    else if (l.content i).head? == some '>' && !l.isOutside i then
      let line := (l.line i).unquoted
      (l.modifyLine i fun _ => line).unquoteFrom stop n (i + 1) line.isEmpty
    else if blank then (l, i)
    else if l.endsText false i then ({ l with limit := i }, i)
    else (l.modifyLine i (·.lazy)).unquoteFrom stop n (i + 1) blank

/-- The layout inside a block quote that begins on line `i`, and the line after the quote. -/
def unquote (l : Layout) (i stop : Nat) : Layout × Nat :=
  let first := (l.line i).unquoted
  let (inner, next) :=
    (l.modifyLine i fun _ => first).unquoteFrom stop (stop - i) (i + 1) first.isEmpty
  ({ inner with indent := 0 }, next)

end Layout

end Hyperstory.Markdown
