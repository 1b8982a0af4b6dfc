import Hyperstory.Markdown.Block
import Hyperstory.Markdown.Line
import Hyperstory.Markdown.Tag

/-! How the first line of a block tells what it is. -/
namespace Hyperstory.Markdown

/-- The opening of fenced code: its marks, and what stands behind them. -/
structure FenceMark where
  char : Char
  length : Nat
  info : List Char

/-- Three or more backticks or tildes open fenced code; no backtick follows backticks. -/
def fenceMark? (content : List Char) : Option FenceMark :=
  match content with
  | c :: _ =>
    if c == '~' || c == '\x60' then
      let length := (content.takeWhile (· == c)).length
      let info := content.drop length
      if length < 3 || (c == '\x60' && info.contains c) then none else some ⟨c, length, info⟩
    else none
  | [] => none

def FenceMark.isClosedBy (m : FenceMark) (content : List Char) : Bool :=
  let length := (content.takeWhile (· == m.char)).length
  m.length ≤ length && (content.drop length).all Text.isIndent

/-- Three or more equal marks, with blanks between them, rule a line. -/
def ruleMark? (content : List Char) : Option (Char × Nat) :=
  match content with
  | c :: rest =>
    let n := content.count c
    if (c == '*' || c == '-' || c == '_') && 3 ≤ n && rest.all (fun d => d == c || Text.isIndent d)
    then some (c, n) else none
  | [] => none

/-- The level and text of a heading: one to six number signs and a blank. -/
def heading? (content : List Char) : Option (Nat × List Char) :=
  let level := (content.takeWhile (· == '#')).length
  let rest := content.drop level
  if 1 ≤ level && level ≤ 6 && (rest.head?.map Text.isIndent).getD true then
    let back := rest.reverse.dropWhile Text.isIndent
    let bare := back.dropWhile (· == '#')
    let text := match bare with
      | c :: _ => if Text.isIndent c then bare else back
      | [] => back
    some (level, Text.trim text.reverse)
  else none

def underline? (content : List Char) : Option (Char × Nat) :=
  match content with
  | c :: _ =>
    if (c == '-' || c == '=') && (content.dropWhile (· == c)).all Text.isIndent then
      some (c, if c == '=' then 1 else 2)
    else none
  | [] => none

structure ItemMark where
  number : Option (List Char)
  char : Char

def ItemMark.length (m : ItemMark) : Nat := (m.number.getD []).length + 1

def ItemMark.value (m : ItemMark) : Nat :=
  (m.number.getD []).foldl (fun n c => 10 * n + (c.toNat - '0'.toNat)) 0

/-- Marks of one list have the same kind and the same character. -/
def ItemMark.continues (m first : ItemMark) : Bool :=
  m.number.isSome == first.number.isSome && m.char == first.char

/-- Nothing but a blank may follow the mark of an item. -/
def blankFollows (rest : List Char) : Bool := (rest.head?.map Text.isIndent).getD true

/-- A bullet, or at most nine digits with a point or parenthesis, before a blank. -/
def itemMark? (content : List Char) : Option ItemMark :=
  match content with
  | c :: rest =>
    if c == '*' || c == '-' || c == '+' then
      if blankFollows rest then some ⟨none, c⟩ else none
    else
      let digits := content.takeWhile Char.isDigit
      match content.drop digits.length with
      | d :: tail =>
        if 1 ≤ digits.length && digits.length ≤ 9 && (d == '.' || d == ')') && blankFollows tail
        then some ⟨some digits, d⟩ else none
      | [] => none
  | [] => none

inductive HtmlKind where
  /-- Ends at the closing tag of one of a few elements. -/
  | verbatim
  | comment
  | instruction
  | declaration
  | characterData
  /-- Begins with the tag of a block element and ends at an empty line. -/
  | element
  /-- Begins with a line that holds one tag, and ends at an empty line. -/
  | lone
  deriving DecidableEq, Repr

def verbatimNames : List String := ["script", "pre", "style", "textarea"]

def blockNames : List String := [
  "address", "article", "aside", "base", "basefont", "blockquote", "body", "caption", "center",
  "col", "colgroup", "dd", "details", "dialog", "dir", "div", "dl", "dt", "fieldset",
  "figcaption", "figure", "footer", "form", "frame", "frameset", "h1", "h2", "h3", "h4", "h5",
  "h6", "head", "header", "hr", "html", "iframe", "legend", "li", "link", "main", "menu",
  "menuitem", "nav", "noframes", "ol", "optgroup", "option", "p", "param", "search", "section",
  "summary", "table", "tbody", "td", "tfoot", "th", "thead", "title", "tr", "track", "ul"]

/-- What follows a name: a blank, the end of the tag or of the line. -/
def endsName (cs : List Char) : Bool :=
  match cs with
  | [] => true
  | c :: _ => Text.isPlainWhite c || c == '>'

/-- The same, where the tag may also end with a slash. -/
def endsElementName (cs : List Char) : Bool := endsName cs || "/>".toList.isPrefixOf cs

def htmlKind? (content : List Char) : Option HtmlKind :=
  match content with
  | '<' :: rest =>
    let inner := match rest with
      | '/' :: r => r
      | r => r
    if Tag.beginsWithName verbatimNames endsName rest then some .verbatim
    else if "!--".toList.isPrefixOf rest then some .comment
    else if "?".toList.isPrefixOf rest then some .instruction
    else if (match rest with
      | '!' :: c :: _ => c.isAlpha
      | _ => false) then some .declaration
    else if "![CDATA[".toList.isPrefixOf rest then some .characterData
    else if Tag.beginsWithName blockNames endsElementName inner then some .element
    else if Tag.standsAlone content then some .lone
    else none
  | _ => none

def anySuffix (accept : List Char → Bool) : List Char → Bool
  | [] => accept []
  | c :: cs => accept (c :: cs) || anySuffix accept cs

/-- The closing tag of an element whose text is not looked into stands at the beginning. -/
def beginsVerbatimEnd (cs : List Char) : Bool :=
  "</".toList.isPrefixOf cs && Tag.beginsWithName verbatimNames (">".toList.isPrefixOf ·) (cs.drop 2)

def HtmlKind.isEndedBy (k : HtmlKind) (content : List Char) : Bool :=
  match k with
  | verbatim => anySuffix beginsVerbatimEnd content
  | comment => anySuffix ("-->".toList.isPrefixOf ·) content
  | instruction => anySuffix ("?>".toList.isPrefixOf ·) content
  | declaration => content.contains '>'
  | characterData => anySuffix ("]]>".toList.isPrefixOf ·) content
  | element | lone => content.isEmpty

end Hyperstory.Markdown
