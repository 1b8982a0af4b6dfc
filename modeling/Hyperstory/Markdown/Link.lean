import Hyperstory.Text.Caseless
import Hyperstory.Text.Unescape
import Hyperstory.Text.Blank
import Hyperstory.Url

/-! The parts of links: destinations, titles, labels, and what labels refer to. -/
namespace Hyperstory.Markdown

structure Target where
  href : String
  title : String := ""
  deriving DecidableEq, Repr

/-- A space, tab or line feed, the blanks between the parts of a link. -/
def isGap (c : Char) : Bool := c == ' ' || c == '\t' || c == '\n'

/-- The length of a destination behind `<`, without the `>` that ends it. -/
def angledLength? : List Char → Option Nat
  | [] => none
  | '\\' :: _ :: cs => (angledLength? cs).map (· + 2)
  | c :: cs =>
    if c == '\n' || c == '<' then none
    else if c == '>' then some 0
    else (angledLength? cs).map (· + 1)

def endsBare (c : Char) : Bool := c.toNat ≤ 0x20 || c.toNat == 0x7f

/-- The length of a bare destination inside `level` parentheses; they must be balanced, and at most
thirty-two deep. -/
def bareLength? (level : Nat) : List Char → Option Nat
  | [] => if level = 0 then some 0 else none
  | ['\\'] => if level = 0 then some 1 else none
  | '\\' :: c :: cs =>
    if c == ' ' then if level = 0 then some 0 else none
    else (bareLength? level cs).map (· + 2)
  | c :: cs =>
    if endsBare c then if level = 0 then some 0 else none
    else if c == '(' then
      if 32 ≤ level then none else (bareLength? (level + 1) cs).map (· + 1)
    else if c == ')' then
      if level = 0 then some 0 else (bareLength? (level - 1) cs).map (· + 1)
    else (bareLength? level cs).map (· + 1)

def destination? (cs : List Char) : Option (List Char × List Char) :=
  match cs with
  | '<' :: rest => do
    let n ← angledLength? rest
    some (Text.unescapeAll (rest.take n), rest.drop (n + 1))
  | _ =>
    match bareLength? 0 cs with
    | some (n + 1) => some (Text.unescapeAll (cs.take (n + 1)), cs.drop (n + 1))
    | _ => none

def titleLength? (mark : Char) : List Char → Option Nat
  | [] => none
  | c :: cs =>
    if c == mark then some 0
    else if c == '(' && mark == ')' then none
    else if c == '\\' then
      match cs with
      | [] => none
      | _ :: rest => (titleLength? mark rest).map (· + 2)
    else (titleLength? mark cs).map (· + 1)

def titleEnd? (c : Char) : Option Char :=
  if c == '"' || c == '\'' then some c else if c == '(' then some ')' else none

def writtenTitle? (cs : List Char) : Option (List Char × List Char) :=
  match cs with
  | c :: rest => do
    let mark ← titleEnd? c
    let n ← titleLength? mark rest
    some (rest.take n, rest.drop (n + 1))
  | [] => none

/-- The form of a destination that a document keeps, if it may be linked to. -/
def href? (destination : List Char) : Option (List Char) :=
  let href := Url.normalize destination
  if Url.isAllowed href then some href else none

/-- The destination and title behind the opening parenthesis of an inline link, and the text where
its closing parenthesis must stand. A destination that is refused counts as absent. -/
def inlineTarget (cs : List Char) : Target × List Char :=
  let cs := cs.dropWhile isGap
  let (href, cs) := match destination? cs with
    | some (d, rest) =>
      match href? d with
      | some h => (h, rest)
      | none => ([], cs)
    | none => ([], cs)
  let gap := cs.dropWhile isGap
  let (title, cs) :=
    if gap.length = cs.length then ([], gap)
    else
      match writtenTitle? gap with
      | some (t, rest) => (Text.unescapeAll t, rest.dropWhile isGap)
      | none => ([], gap)
  (⟨String.ofList href, String.ofList title⟩, cs)

/-- The form of a label by which a definition is found. -/
def normalLabel (label : List Char) : String :=
  String.ofList (Text.caseless (Text.collapseWhite false (Text.trim label)))

/-- The definitions of a document, the first one of a label counts. -/
abbrev Definitions := List (String × Target)

def Definitions.add (ds : Definitions) (label : String) (target : Target) : Definitions :=
  match ds.lookup label with
  | some _ => ds
  | none => ds ++ [(label, target)]

/-- The length of the label of a definition; brackets in it must be escaped. -/
def labelLength? : List Char → Option Nat
  | [] => none
  | '\\' :: _ :: cs => (labelLength? cs).map (· + 2)
  | c :: cs =>
    if c == '[' then none
    else if c == ']' then some 0
    else (labelLength? cs).map (· + 1)

structure Definition where
  label : String
  target : Target
  lineFeeds : Nat

def endsLine (cs : List Char) : Bool :=
  match cs.dropWhile Text.isIndent with
  | [] => true
  | c :: _ => c == '\n'

/-- The title of a definition and the text behind it. A title must stand apart from the
destination, unless it runs over several lines. -/
def definitionTitle? (cs : List Char) : Option (List Char × List Char) :=
  let gap := cs.dropWhile isGap
  match writtenTitle? gap with
  | some (t, rest) =>
    if gap.length ≠ cs.length || t.contains '\n' then some (Text.unescapeAll t, rest) else none
  | none => none

/-- The first line of a text with its line feed, and the other lines. -/
def splitLine (cs : List Char) : List Char × List Char :=
  let n := (cs.takeWhile (· != '\n')).length + 1
  (cs.take n, cs.drop n)

/-- The destination of a definition, which lies on one line, and the text behind it. A backslash
may take the line feed into the destination; nothing stands behind it then. -/
def definitionDestination? (cs : List Char) : Option (List Char × List Char × List Char) := do
  let (line, later) := splitLine cs
  let (d, after) ← destination? line
  some (if after.isEmpty then (d, [], later) else (d, after ++ later, []))

/-- Reads a definition; the text begins with its label. If something follows the title on its
line, the title is no part of the definition. -/
def definition? (text : List Char) : Option Definition :=
  match text with
  | '[' :: rest => do
    let n ← labelLength? rest
    match rest.drop (n + 1) with
    | ':' :: cs =>
      let (d, cs, later) ← definitionDestination? (cs.dropWhile isGap)
      let href ← href? d
      let (title, after) := (definitionTitle? cs).getD ([], cs)
      let (title, after) :=
        if !endsLine after && !title.isEmpty then ([], cs) else (title, after)
      let label := normalLabel (rest.take n)
      if endsLine after && !label.isEmpty then
        some {
          label
          target := ⟨String.ofList href, String.ofList title⟩
          lineFeeds := (text.take (text.length - after.length - later.length - 1)).count '\n' }
      else none
    | _ => none
  | _ => none

end Hyperstory.Markdown
