import Hyperstory.Markdown.Container
import Hyperstory.Markdown.Link

/-! Reading the blocks of a document. -/
namespace Hyperstory.Markdown

/-- What a reader has found: blocks, the line after them, and the definitions so far. -/
structure Found where
  blocks : List Block
  next : Nat
  definitions : Definitions

/-- The content of a container; it is tight if no empty line stands between its blocks. -/
structure Body extends Found where
  tight : Bool := true

abbrev BodyReader := Layout → (first stop : Nat) → Definitions → Body

namespace Layout

/-- The end of indented code that begins before line `i`; empty lines at its end are no part of
it. At most `n` lines are looked at, and `last` is the end found so far. -/
def codeEndUpTo (l : Layout) (stop : Nat) : Nat → Nat → Nat → Nat
  | 0, _, last => last
  | n + 1, i, last =>
    if stop ≤ i then last
    else if l.isEmpty i then l.codeEndUpTo stop n (i + 1) last
    else if l.isCode i then l.codeEndUpTo stop n (i + 1) (i + 1)
    else last

def code (l : Layout) (first stop : Nat) (ds : Definitions) : Found :=
  let next := l.codeEndUpTo stop (stop - first) (first + 1) (first + 1)
  ⟨[.code (first, next) (l.textBetween first next (4 + l.indent) false ++ "\n")], next, ds⟩

/-- The line that ends fenced code, and whether it closes the fence. The last line of a document
ends it if nothing stands on it, not even a line feed. -/
def fenceEndUpTo (l : Layout) (m : FenceMark) (stop : Nat) : Nat → Nat → Nat × Bool
  | 0, i => (i, false)
  | n + 1, i =>
    if stop ≤ i || (!l.isEmpty i && l.isOutside i) || (l.isEmpty i && !(l.line i).ended) then
      (i, false)
    else if !l.isCode i && m.isClosedBy (l.content i) then (i, true)
    else l.fenceEndUpTo m stop n (i + 1)

/-- Fenced code; its lines lose as many columns as the fence is indented. -/
def fenced (l : Layout) (m : FenceMark) (first stop : Nat) (ds : Definitions) : Found :=
  let (last, closed) := l.fenceEndUpTo m stop (stop - first) (first + 1)
  let next := if closed then last + 1 else last
  let text := l.textBetween (first + 1) last (l.line first).indent.toNat true
  let mark := String.ofList (List.replicate m.length m.char)
  ⟨[.fence (first, next) mark (String.ofList m.info) text], next, ds⟩

/-- The line after an HTML block that goes on at line `i`. An empty line does not leave the
container. -/
def htmlEndUpTo (l : Layout) (k : HtmlKind) (stop : Nat) : Nat → Nat → Nat
  | 0, i => i
  | n + 1, i =>
    if stop ≤ i || (!l.isEmpty i && l.isOutside i) then i
    else if k.isEndedBy (l.content i) then if l.isEmpty i then i else i + 1
    else l.htmlEndUpTo k stop n (i + 1)

def html (l : Layout) (k : HtmlKind) (first stop : Nat) (ds : Definitions) : Found :=
  let next :=
    if k.isEndedBy (l.content first) then first + 1
    else l.htmlEndUpTo k stop (stop - first) (first + 1)
  let block : Block :=
    if (l.between first next).any (·.isCut l.indent) then .cut (first, next)
    else .html (first, next) (l.textBetween first next l.indent true)
  ⟨[block], next, ds⟩

def definition? (l : Layout) (first : Nat) (ds : Definitions) : Option Found := do
  let stop := l.textEnd false (first + 1)
  let d ← Markdown.definition? ((l.between first stop).flatMap Line.written)
  some ⟨[], first + 1 + d.lineFeeds, ds.add d.label d.target⟩

/-- The underline of a heading whose text begins before line `i`. -/
def underlineUpTo (l : Layout) (stop : Nat) : Nat → Nat → Option (Nat × Char × Nat)
  | 0, _ => none
  | n + 1, i =>
    if stop ≤ i || l.isEmpty i then none
    else
      let mark := if l.isCode i || l.isOutside i then none else underline? (l.content i)
      match mark with
      | some (c, level) => some (i, c, level)
      | none => if l.continuesText true i then l.underlineUpTo stop n (i + 1) else none

def trimmedBetween (l : Layout) (first stop : Nat) : String :=
  String.ofList (Text.trim (joinLines l.indent false (l.between first stop)))

/-- A heading with an underline, or a paragraph. -/
def text (l : Layout) (first stop : Nat) (ds : Definitions) : Found :=
  match l.underlineUpTo stop (stop - first) (first + 1) with
  | some (i, c, level) =>
    ⟨[.heading (first, i + 1) level (String.singleton c) (first, i) (l.trimmedBetween first i)],
      i + 1, ds⟩
  | none =>
    let next := l.textEnd true (first + 1)
    ⟨[.paragraph (first, next) (l.trimmedBetween first next)], next, ds⟩

def quote (l : Layout) (inside : BodyReader) (first stop : Nat) (ds : Definitions) : Found :=
  let (inner, last) := l.unquote first stop
  let body := inside inner first last ds
  ⟨[.quote (first, body.next) body.blocks], body.next, body.definitions⟩

/-- The content of a list item. An item that begins with an empty line has no content if another
empty line follows. -/
def itemBody (l : Layout) (inside : BodyReader) (m : ItemMark) (first stop : Nat)
    (ds : Definitions) : Body :=
  let inner := l.inItem first m
  if inner.isEmpty first && inner.isEmpty (first + 1) then
    { blocks := [], next := min (first + 2) stop, definitions := ds }
  else inside inner first stop ds

def nextItem? (l : Layout) (m : ItemMark) (i stop : Nat) : Option ItemMark :=
  if stop ≤ i || l.isOutside i || l.isCode i || l.endsList i then none
  else
    match itemMark? (l.content i) with
    | some n => if n.continues m then some n else none
    | none => none

/-- The items of a list from line `first` on, `n` of them at most. `spaced` says that the item
before ended with an empty line. The result is the items and whether all of them are tight. -/
def items (l : Layout) (inside : BodyReader) (stop : Nat) :
    Nat → ItemMark → Nat → Bool → Definitions → Found × Bool
  | 0, _, first, _, ds => (⟨[], first, ds⟩, true)
  | n + 1, m, first, spaced, ds =>
    let body := l.itemBody inside m first stop ds
    let item := Block.item (first, body.next) m.char (String.ofList (m.number.getD [])) body.blocks
    let tight := body.tight && !spaced
    match l.nextItem? m body.next stop with
    | none => (⟨[item], body.next, body.definitions⟩, tight)
    | some next =>
      let spaced := 1 < body.next - first && l.isEmpty (body.next - 1)
      let (rest, restTight) := l.items inside stop n next body.next spaced body.definitions
      (⟨item :: rest.blocks, rest.next, rest.definitions⟩, tight && restTight)

def list (l : Layout) (inside : BodyReader) (m : ItemMark) (first stop : Nat) (ds : Definitions) :
    Found :=
  let (found, tight) := l.items inside stop (stop - first) m first false ds
  let number := m.number.map fun _ => m.value
  ⟨[.list (first, found.next) number m.char tight found.blocks], found.next, found.definitions⟩

/-- The block that begins on a line with neither code nor the mark of a container. -/
def leaf (l : Layout) (first stop : Nat) (ds : Definitions) : Found :=
  match l.definition? first ds with
  | some found => found
  | none =>
    match l.html? first with
    | some k => l.html k first stop ds
    | none =>
      match l.heading? first with
      | some (level, text) =>
        let lines := (first, first + 1)
        let mark := String.ofList (List.replicate level '#')
        ⟨[.heading lines level mark lines (String.ofList text)], first + 1, ds⟩
      | none => l.text first stop ds

/-- The block that begins on a line which is not empty. -/
def block (l : Layout) (inQuote inItem : BodyReader) (first stop : Nat) (ds : Definitions) :
    Found :=
  if l.isCode first then l.code first stop ds
  else
    match l.fence? first with
    | some m => l.fenced m first stop ds
    | none =>
      if l.startsQuote first then l.quote inQuote first stop ds
      else
        match l.rule? first with
        | some (c, n) =>
          ⟨[.rule (first, first + 1) (String.ofList (List.replicate (n + 1) c))], first + 1, ds⟩
        | none =>
          match l.item? first with
          | some m => l.list inItem m first stop ds
          | none => l.leaf first stop ds

/-- The blocks of a container from line `first` on, `n` of them at most; `spaced` says that an empty
line stood between blocks. -/
def blocks (l : Layout) (inQuote inItem : BodyReader) (stop : Nat) :
    Nat → Nat → Bool → Definitions → Body
  | 0, first, _, ds => { blocks := [], next := first, definitions := ds }
  | n + 1, first, spaced, ds =>
    let start := if first < stop then l.skipEmpty first else first
    if stop ≤ start || l.isOutside start then { blocks := [], next := start, definitions := ds }
    else
      let found := l.block inQuote inItem start stop ds
      let gap := found.next < stop && l.isEmpty found.next
      let next := if gap then found.next + 1 else found.next
      let spacedAfter := spaced || gap || l.isEmpty (found.next - 1)
      let rest := l.blocks inQuote inItem stop n next spacedAfter found.definitions
      { rest with blocks := found.blocks ++ rest.blocks, tight := !spaced && rest.tight }

/-- A container that is nested too deep has no content. -/
def tooDeep : BodyReader := fun l first stop ds =>
  let start := l.skipEmpty first
  let next := if stop ≤ start || l.isOutside start then start else stop
  { blocks := [], next, definitions := ds }

/-- The readers of containers in which others may be nested `depth` deep, and one less. A list and
its item count as two. -/
def readers : Nat → BodyReader × BodyReader
  | 0 => (tooDeep, tooDeep)
  | depth + 1 =>
    let (inQuote, inItem) := readers depth
    (fun l first stop ds => l.blocks inQuote inItem stop (stop - first + 1) first false ds,
      inQuote)

def maxDepth : Nat := 20

end Layout

def readBlocks (source : List Char) : Body :=
  let lines := (sourceLines source).toArray
  let layout : Layout := { lines, limit := lines.size }
  (Layout.readers Layout.maxDepth).1 layout 0 lines.size []

end Hyperstory.Markdown
