import Hyperstory.Markdown.Leaf

/-! The lines of a document as seen from inside a container. -/
namespace Hyperstory.Markdown

/-- Lines and the columns where the innermost containers begin. -/
structure Layout where
  lines : Array Line
  limit : Nat
  /-- The column where the content of the innermost list item begins. -/
  indent : Nat := 0
  /-- The column where the list of that item begins, inside an item. -/
  listIndent : Option Nat := none

namespace Layout

/-- A line; there are only empty ones after the last. -/
def line (l : Layout) (i : Nat) : Line := l.lines.getD i {}

def content (l : Layout) (i : Nat) : List Char := (l.line i).content

def isEmpty (l : Layout) (i : Nat) : Bool := (l.line i).isEmpty

def isOutside (l : Layout) (i : Nat) : Bool := (l.line i).indent < l.indent

def isCode (l : Layout) (i : Nat) : Bool := 4 ≤ (l.line i).indent - l.indent

def between (l : Layout) (first stop : Nat) : List Line :=
  (List.range (stop - first)).map fun n => l.line (first + n)

/-- The text of lines without the columns of the containers. -/
def textBetween (l : Layout) (first stop width : Nat) (closed : Bool) : String :=
  String.ofList (joinLines width closed (l.between first stop))

/-- The first line from `i` on that is not empty; at most `n` lines are looked at. -/
def skipEmptyUpTo (l : Layout) : Nat → Nat → Nat
  | 0, i => i
  | n + 1, i => if i < l.limit && l.isEmpty i then l.skipEmptyUpTo n (i + 1) else i

/-- The first line from `i` on that is not empty, or the limit. -/
def skipEmpty (l : Layout) (i : Nat) : Nat := l.skipEmptyUpTo (l.limit - i) i

def fence? (l : Layout) (i : Nat) : Option FenceMark :=
  if l.isCode i then none else fenceMark? (l.content i)

def startsQuote (l : Layout) (i : Nat) : Bool := !l.isCode i && (l.content i).head? == some '>'

def rule? (l : Layout) (i : Nat) : Option (Char × Nat) :=
  if l.isCode i then none else ruleMark? (l.content i)

/-- The mark of a list item on a line. A line that is indented too far for the list around it and
too little for its item continues a paragraph. -/
def item? (l : Layout) (i : Nat) : Option ItemMark :=
  let deep := match l.listIndent with
    | some c => decide (4 ≤ (l.line i).indent - c) && l.isOutside i
    | none => false
  if l.isCode i || deep then none else itemMark? (l.content i)

/-- A list may begin at a line that would else continue a paragraph: it is not empty, and its
first number is one. -/
def mayInterrupt (l : Layout) (i : Nat) (m : ItemMark) : Bool :=
  (m.number.isNone || m.value = 1) && !((l.content i).drop m.length).all Text.isIndent

/-- A list begins on a line. Inside a paragraph, that an item of the list around it goes on is
always accepted. -/
def startsList (l : Layout) (inParagraph : Bool) (i : Nat) : Bool :=
  match l.item? i with
  | some m => !inParagraph || l.isOutside i || l.mayInterrupt i m
  | none => false

def html? (l : Layout) (i : Nat) : Option HtmlKind :=
  if l.isCode i then none else htmlKind? (l.content i)

def heading? (l : Layout) (i : Nat) : Option (Nat × List Char) :=
  if l.isCode i then none else Markdown.heading? (l.content i)

def endsList (l : Layout) (i : Nat) : Bool :=
  (l.fence? i).isSome || l.startsQuote i || (l.rule? i).isSome

def endsText (l : Layout) (inParagraph : Bool) (i : Nat) : Bool :=
  l.endsList i || l.startsList inParagraph i ||
    (match l.html? i with
      | some k => k ≠ .lone
      | none => false) ||
    (l.heading? i).isSome

/-- A line continues a paragraph. Lines indented like code and lines that only continue a
paragraph do so whatever stands on them. -/
def continuesText (l : Layout) (inParagraph : Bool) (i : Nat) : Bool :=
  !l.isEmpty i && (l.isCode i || (l.line i).indent < 0 || !l.endsText inParagraph i)

/-- The end of the text that begins before line `i`; at most `n` lines are looked at. -/
def textEndUpTo (l : Layout) (inParagraph : Bool) : Nat → Nat → Nat
  | 0, i => i
  | n + 1, i =>
    if i < l.limit && l.continuesText inParagraph i then l.textEndUpTo inParagraph n (i + 1) else i

/-- The line after a text that begins before line `i`. -/
def textEnd (l : Layout) (inParagraph : Bool) (i : Nat) : Nat :=
  l.textEndUpTo inParagraph (l.limit - i) i

end Layout

end Hyperstory.Markdown
