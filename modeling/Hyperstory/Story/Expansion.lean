import Hyperstory.Diagnostic
import Hyperstory.Directive
import Hyperstory.Story.Markup
import Hyperstory.Text.Blank
import Hyperstory.Token.Render
import Hyperstory.Tree.Leaves
import Hyperstory.Tree.ToTokens
import Hyperstory.Url

/-!
The walk that replaces directives by markup. Leaves are read from left to right, images when they
are met, links when they are left, and a paragraph that declares a section gives way to the
beginning of that section.
-/
namespace Hyperstory

/-- Why a file has no page: a problem its author can mend, or a stream no parser makes. -/
inductive Failure where
  | problem (d : Diagnostic)
  | fault (f : Fault)
  deriving DecidableEq, Repr

/-- What a walk counts. -/
structure Tally where
  nextInline : Nat
  taken : List String
  count : Nat := 0
  declared : List String := []
  deriving DecidableEq, Repr

/-- The place of a character of a leaf, by the lines and columns between. -/
def Position.shift (p : Position) (lines columns : Nat) : Position :=
  if lines = 0 then ⟨p.line, p.column + columns⟩ else ⟨p.line + lines, 1 + columns⟩

/-- A directive's opening brace: its index, and the lines and columns before it. -/
structure Opening where
  index : Nat
  lines : Nat
  columns : Nat
  deriving DecidableEq, Repr

/-- The first brace that no backslash takes away, after the characters counted in `o`. -/
def Opening.find? (o : Opening) : List Char → Option Opening
  | [] => none
  | ['\\'] => none
  | '\\' :: '\n' :: cs => find? ⟨o.index + 2, o.lines + 1, 0⟩ cs
  | '\\' :: _ :: cs => find? ⟨o.index + 2, o.lines, o.columns + 2⟩ cs
  | '\n' :: cs => find? ⟨o.index + 1, o.lines + 1, 0⟩ cs
  | '{' :: _ => some o
  | _ :: cs => find? ⟨o.index + 1, o.lines, o.columns + 1⟩ cs

def Directive.Problem.cause : Directive.Problem → Cause
  | .unterminated near => .unterminated near
  | .unknown text => .unknown text

namespace Expansion

def problemAt (path : String) (n : Node) (lines columns : Nat) (cause : Cause) : Failure :=
  .problem (Located.locate ⟨cause, none, none, none⟩ (some path)
    (n.position.map fun p => p.shift lines columns))

def markupNode (n : Node) (markup : String) : Node :=
  { kind := "html_inline", literal := some markup, position := n.position, inline := n.inline }

/-- Puts an expansion in place of a directive of a leaf. What stands after the directive becomes
a leaf of its own, what stands before it stays, and an empty leaf goes. Returns the expansion. -/
def splice (t : Forest) (i : NodeId) (d : Directive) (o : Opening) : Forest × NodeId :=
  let n := t.node i
  let literal := (n.literal.getD "").toList
  let before := literal.take d.start
  let rest := literal.drop d.stop
  let (t, markup) := t.add (markupNode n (Markup.expansionIn n.kind d.reference))
  let t := t.modify i fun n => { n with literal := some (String.ofList before) }
  let t := t.insertAfter i markup
  let t :=
    if rest.isEmpty then t
    else
      let position := n.position.map fun p => p.shift o.lines (o.columns + d.text.length)
      let (t, leaf) := t.add (Forest.splitOff n (String.ofList rest) position)
      t.insertAfter markup leaf
  (if before.isEmpty then t.unlink i else t, markup)

/-- Why a section cannot begin at this directive of a leaf. -/
def sectionProblem? (t : Forest) (tally : Tally) (i : NodeId) (d : Directive) : Option Cause :=
  let n := t.node i
  match n.links.parent with
  | none => some (.notInParagraph d.text)
  | some p =>
    let paragraph := t.node p
    let rest := (n.literal.getD "").toList.drop d.stop
    let atTop := paragraph.kind == "paragraph" &&
      (match paragraph.links.parent with
      | some top => (t.node top).kind == "document"
      | none => false)
    if n.kind != "text" then some (.notInParagraph d.text)
    else if d.start > 0 || n.links.prev.isSome then some (.notAlone d.text)
    else if !(Text.strip rest).isEmpty || n.links.next.isSome then some (.notAlone d.text)
    else if !atTop then some (.insideBlock d.text)
    else if tally.count = 0 && paragraph.links.prev.isSome then some (.contentBefore d.text)
    else if d.identifier.isEmpty then some (.namelessSection d.text)
    else if tally.taken.contains d.identifier || tally.declared.contains d.identifier then
      some (.duplicate d.identifier)
    else none

def beginSection (t : Forest) (tally : Tally) (i : NodeId) (d : Directive) :
    Tally × Forest × NodeId :=
  let p := (t.links i).parent.getD i
  let markup := Markup.sectionBegin (tally.count = 0) d.identifier
  let (t, html) := t.add
    { kind := "html_inline", literal := some markup, position := (t.node p).position }
  let t := (t.insertAfter p html).unlink p
  ({ tally with count := tally.count + 1, declared := d.identifier :: tally.declared }, t, html)

/-- Replaces the first directive of a leaf and returns the markup the walk goes on at. -/
def leaf (path : String) (tally : Tally) (t : Forest) (i : NodeId) :
    Tally × Except Failure (Forest × Option NodeId) :=
  let n := t.node i
  let literal := (n.literal.getD "").toList
  match Opening.find? ⟨0, 0, 0⟩ literal with
  | none => (tally, .ok (t, none))
  | some o =>
    match Directive.scan literal o.index with
    | .error e => (tally, .error (problemAt path n o.lines o.columns e.cause))
    | .ok d =>
      if d.kind = .sectionBegin then
        match sectionProblem? t tally i d with
        | some cause => (tally, .error (problemAt path n o.lines o.columns cause))
        | none =>
          let (tally, t, html) := beginSection t tally i d
          (tally, .ok (t, some html))
      else
        let (t, html) := splice t i d o
        (tally, .ok (t, some html))

def replace (t : Forest) (i : NodeId) (markup : String) : Forest × NodeId :=
  let (t, html) := t.add (markupNode (t.node i) markup)
  ((t.insertBefore i html).unlink i, html)

/-- Puts an anchor in place of a link. The escapes in its text are removed first, because the
text becomes markup. -/
def replaceLink (t : Forest) (i : NodeId) (id : Option String) (action target : String) :
    Except Failure Forest :=
  let t := t.stripEscapes i
  match t.inlineTokens i with
  | .error f => .error (.fault f)
  | .ok slots =>
    match Slot.renderInline slots with
    | .error f => .error (.fault f)
    | .ok text => .ok (replace t i (Markup.anchor id action target text)).1

def link (path : String) (tally : Tally) (t : Forest) (i : NodeId) :
    Tally × Except Failure Forest :=
  let n := t.node i
  let fail (cause : Cause) := (tally, .error (problemAt path n 0 0 cause))
  match AttrValue.destination n.destination with
  | .error f => (tally, .error (.fault f))
  | .ok destination =>
    let url := Url.decodeDestination destination
    if url.toList.head? != some '{' then (tally, .ok t)
    else
      match Destination.ofUrl? url with
      | none => fail (.unterminatedDestination url)
      | some d =>
        match d.modifier, d.kind? with
        | some m, kind =>
          if m == "inline" then
            match kind with
            | none | some .sectionBegin => fail (.unrecognizedLink url)
            | some _ =>
              ({ tally with nextInline := tally.nextInline + 1 },
                replaceLink t i (some (Markup.inlineId tally.nextInline)) "replace-with" d.name)
          else fail (.unrecognizedModifier m)
        | none, some .sectionRef => (tally, replaceLink t i none "goto-section" d.name)
        | none, some .functionRef => (tally, replaceLink t i none "call-function" d.name)
        | none, some .variableRef => fail .variableLink
        | none, _ => fail (.unrecognizedLink url)

/-- The alternative text of an image: the text it begins with, or `none` if that has no words. -/
def altText (t : Forest) (i : NodeId) : Option String :=
  match (t.links i).firstChild with
  | some c =>
    if (t.node c).kind == "text" then
      (t.node c).literal.map fun s => String.ofList (unescape s.toList)
    else some ""
  | none => some ""

def dropAlt (t : Forest) (i : NodeId) : Forest :=
  match (t.links i).firstChild with
  | some c => if (t.node c).kind == "text" then t.unlink c else t
  | none => t

def imageMarkup (destination alt : String) : Except Cause String :=
  let url := Url.decodeDestination destination
  if url.toList.head? != some '{' then .ok (Markup.image destination alt)
  else
    match Destination.ofUrl? url with
    | none => .error (.unterminatedDestination url)
    | some d =>
      match d.kind? with
      | some .sectionRef => .error (.sectionImage url)
      | some .functionRef | some .variableRef => .ok (Markup.engineImage d.name alt)
      | _ => .error (.unknownImage url)

def image (path : String) (t : Forest) (i : NodeId) : Except Failure (Forest × NodeId) :=
  let n := t.node i
  match altText t i with
  | none => .error (.fault .wordless)
  | some alt =>
    match AttrValue.destination n.destination with
    | .error f => .error (.fault f)
    | .ok destination =>
      match imageMarkup destination alt with
      | .error cause => .error (problemAt path n 0 0 cause)
      | .ok markup => .ok (replace (dropAlt t i) i markup)

/-- Acts on one visit of the walk: the tally, and the tree with the place to go on at. -/
def visit (path : String) (tally : Tally) (t : Forest) (c : Cursor) (v : Visit) :
    Tally × Except Failure (Forest × Cursor) :=
  let kind := (t.node v.node).kind
  if kind == "link" then
    if v.entering then (tally, .ok (t, c))
    else
      match link path tally t v.node with
      | (tally, .ok t) => (tally, .ok (t, c))
      | (tally, .error e) => (tally, .error e)
  else if kind == "image" then
    match image path t v.node with
    | .ok (t, html) => (tally, .ok (t, c.resumeAt html true))
    | .error e => (tally, .error e)
  else if isScanned kind then
    match leaf path tally t v.node with
    | (tally, .ok (t, some html)) => (tally, .ok (t, c.resumeAt html true))
    | (tally, .ok (t, none)) => (tally, .ok (t, c))
    | (tally, .error e) => (tally, .error e)
  else (tally, .ok (t, c))

/-- Walks on from the cursor to the end of the tree or to the first failure. -/
def walk (path : String) : Nat → Tally → Forest → Cursor → Tally × Except Failure Forest
  | 0, tally, t, _ => (tally, .ok t)
  | fuel + 1, tally, t, c =>
    match c.next? t with
    | none => (tally, .ok t)
    | some (v, c) =>
      match visit path tally t c v with
      | (tally, .ok (t, c)) => walk path fuel tally t c
      | (tally, .error e) => (tally, .error e)

/-- Every character of a leaf can give at most a directive and a new leaf. -/
def walkBound (t : Forest) : Nat :=
  let characters := t.nodes.toList.foldl (fun total n => total + (n.literal.getD "").length) 0
  t.visitBound + 4 * characters + 4 * t.size

def all (path : String) (tally : Tally) (t : Forest) (root : NodeId) :
    Tally × Except Failure Forest :=
  walk path (walkBound t) tally t (.start root)

end Expansion

end Hyperstory
