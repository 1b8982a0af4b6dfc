import Hyperstory.Token

/-! Blocks of a document, and the tokens they stand for. -/
namespace Hyperstory.Markdown

/-- The lines of a block: the first, and the one after the last. -/
abbrev Extent := Nat × Nat

def Extent.map (e : Extent) : Int × Int := (e.1, e.2)

/-- A block. Texts that hold inline content are not yet read. -/
inductive Block where
  | code (lines : Extent) (text : String)
  | fence (lines : Extent) (mark info text : String)
  | rule (lines : Extent) (mark : String)
  | heading (lines : Extent) (level : Nat) (mark : String) (textLines : Extent) (text : String)
  | paragraph (lines : Extent) (text : String)
  | html (lines : Extent) (text : String)
  /-- HTML whose last line should be indented but is cut off by the end of the source. -/
  | cut (lines : Extent)
  | quote (lines : Extent) (body : List Block)
  /-- Items of a list; an ordered list has the number of its first item. -/
  | list (lines : Extent) (first : Option Nat) (mark : Char) (tight : Bool) (items : List Block)
  | item (lines : Extent) (mark : Char) (number : String) (body : List Block)
  deriving Inhabited

namespace Block

def wrap (kind tag mark : String) (lines : Extent) (hidden : Bool) (body : List Token) :
    List Token :=
  { kind := kind ++ "_open", tag, nesting := .opens, map := some lines.map, markup := mark,
    block := true, hidden } ::
  body ++
  [{ kind := kind ++ "_close", tag, nesting := .closes, markup := mark, block := true, hidden }]

def inlineToken (inlines : String → List Token) (lines : Extent) (text : String) : Token :=
  { kind := "inline", map := some lines.map, content := text, children := some (inlines text),
    block := true }

def leafToken (kind tag : String) (lines : Extent) (mark info text : String) : Token :=
  { kind, tag, map := some lines.map, content := text, markup := mark, info, block := true }

/-- The attributes of an ordered list that does not begin with one. -/
def startAttrs (first : Option Nat) : Attrs :=
  match first with
  | some n => if n = 1 then [] else [("start", toString n)]
  | none => []

def withAttrs (attrs : Attrs) : List Token → List Token
  | [] => []
  | t :: ts => { t with attrs } :: ts

mutual

/-- The tokens of a block; `inlines` reads inline content, and `tight` hides the tags of a
paragraph. -/
def tokens (inlines : String → List Token) (tight : Bool) : Block → List Token
  | code lines text => [leafToken "code_block" "code" lines "" "" text]
  | fence lines mark info text => [leafToken "fence" "code" lines mark info text]
  | rule lines mark => [leafToken "hr" "hr" lines mark "" ""]
  | html lines text => [leafToken "html_block" "" lines "" "" text]
  | cut _ => []
  | heading lines level mark textLines text =>
    wrap "heading" ("h" ++ toString level) mark lines false [inlineToken inlines textLines text]
  | paragraph lines text =>
    wrap "paragraph" "p" "" lines tight [inlineToken inlines lines text]
  | quote lines body => wrap "blockquote" "blockquote" ">" lines false (tokensOf inlines false body)
  | list lines first mark tight items =>
    let body := tokensOf inlines tight items
    let mark := String.singleton mark
    match first with
    | some n =>
      withAttrs (startAttrs (some n)) (wrap "ordered_list" "ol" mark lines false body)
    | none => wrap "bullet_list" "ul" mark lines false body
  | item lines mark number body =>
    match wrap "list_item" "li" (String.singleton mark) lines false (tokensOf inlines tight body) with
    | t :: ts => { t with info := number } :: ts
    | [] => []

def tokensOf (inlines : String → List Token) (tight : Bool) : List Block → List Token
  | [] => []
  | b :: bs => b.tokens inlines tight ++ tokensOf inlines tight bs

end

mutual

def isWhole : Block → Bool
  | cut _ => false
  | quote _ body => areWhole body
  | list _ _ _ _ items => areWhole items
  | item _ _ _ body => areWhole body
  | _ => true

def areWhole : List Block → Bool
  | [] => true
  | b :: bs => b.isWhole && areWhole bs

end

end Block

end Hyperstory.Markdown
