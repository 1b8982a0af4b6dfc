import Hyperstory.Html
import Hyperstory.Text.Blank
import Hyperstory.Text.Unescape
import Hyperstory.Token

/-! The HTML of a token stream. -/
namespace Hyperstory.Slot

def attributes (attrs : Attrs) : String :=
  String.join (attrs.map fun (name, value) =>
    " " ++ Html.escape name ++ "=\"" ++ Html.escape value.shown ++ "\"")

def token? : Slot → Option Token
  | missing => none
  | filled t _ => some t

/-- A new line follows a block's tag, unless the tag opens a block whose content begins at once:
with inline content, with a hidden token, or with its own closing tag. -/
def lineFollows (t : Token) (next : Option Token) : Bool :=
  if !t.block then false
  else
    match t.nesting, next with
    | .opens, some n =>
      !(n.kind == "inline" || n.hidden) && !(n.nesting = .closes && n.tag == t.tag)
    | _, _ => true

/-- The tag of a token without a rule of its own, between its neighbours. -/
def tag (previous : Option Token) (t : Token) (attrs : Attrs) (next : Option Token) : String :=
  if t.hidden then ""
  else
    let hiddenBefore := (previous.map (·.hidden)).getD false
    let before := if t.block && t.nesting ≠ .closes && hiddenBefore then "\n" else ""
    let opening := if t.nesting = .closes then "</" else "<"
    let slash := if t.nesting = .alone then " /" else ""
    let line := if lineFollows t next then "\n" else ""
    before ++ opening ++ t.tag ++ attributes attrs ++ slash ++ ">" ++ line

def fenceAttrs (t : Token) : Except Fault Attrs :=
  let info := Text.trim (Text.unescapeAll t.info.toList)
  if info.isEmpty then .ok t.attrs
  else t.attrs.join "class" ("language-" ++ String.ofList (Text.firstWord info))

mutual

def plainText : Slot → Except Fault String
  | missing => .error .unclosed
  | filled t children =>
    if t.kind == "image" then plainTexts? children
    else if t.kind == "text" || t.kind == "code_inline" || t.kind == "html_inline" ||
        t.kind == "html_block" then .ok t.content
    else if t.kind == "softbreak" || t.kind == "hardbreak" then .ok "\n"
    else .ok ""

def plainTexts : List Slot → Except Fault String
  | [] => .ok ""
  | s :: rest => do
    let head ← plainText s
    let tail ← plainTexts rest
    .ok (head ++ tail)

def plainTexts? : Option (List Slot) → Except Fault String
  | none => .ok ""
  | some slots => plainTexts slots

end

def element (previous : Option Token) (t : Token) (children : Option (List Slot))
    (next : Option Token) : Except Fault String :=
  if t.kind == "text" then .ok (Html.escape t.content)
  else if t.kind == "html_inline" || t.kind == "html_block" then .ok t.content
  else if t.kind == "softbreak" || t.kind == "hardbreak" then .ok "<br />\n"
  else if t.kind == "code_inline" then
    .ok ("<code" ++ attributes t.attrs ++ ">" ++ Html.escape t.content ++ "</code>")
  else if t.kind == "code_block" then
    .ok ("<pre" ++ attributes t.attrs ++ "><code>" ++ Html.escape t.content ++ "</code></pre>\n")
  else if t.kind == "fence" then do
    let attrs ← fenceAttrs t
    .ok ("<pre><code" ++ attributes attrs ++ ">" ++ Html.escape t.content ++ "</code></pre>\n")
  else if t.kind == "image" then do
    let alt ← plainTexts? children
    .ok (tag previous t (t.attrs.set "alt" alt) next)
  else .ok (tag previous t t.attrs next)

def renderInlineAfter (previous : Option Token) : List Slot → Except Fault String
  | [] => .ok ""
  | missing :: _ => .error .unclosed
  | filled t children :: rest => do
    let head ← element previous t children (rest.head?.bind token?)
    let tail ← renderInlineAfter (some t) rest
    .ok (head ++ tail)

def renderInline (slots : List Slot) : Except Fault String := renderInlineAfter none slots

def renderAfter (previous : Option Token) : List Slot → Except Fault String
  | [] => .ok ""
  | missing :: _ => .error .unclosed
  | filled t children :: rest => do
    let head ←
      if t.kind == "inline" then renderInline (children.getD [])
      else element previous t children (rest.head?.bind token?)
    let tail ← renderAfter (some t) rest
    .ok (head ++ tail)

def render (slots : List Slot) : Except Fault String := renderAfter none slots

end Hyperstory.Slot
