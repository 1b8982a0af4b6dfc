import Hyperstory.Html

/-! The markup that stands for directives in the page. -/
namespace Hyperstory.Markup

/-- An attribute with a blank before it. -/
def attr (name value : String) : String := " " ++ name ++ "=\"" ++ Html.escape value ++ "\""

/-- The place where the engine writes what a reference stands for. -/
def expansion (reference : String) : String :=
  "<span" ++ attr "data-expand-macro" reference ++ "></span>"

def expansionIn (kind reference : String) : String :=
  if kind == "code" then "<code>" ++ expansion reference ++ "</code>"
  else if kind == "code_block" then "<pre><code>" ++ expansion reference ++ "</code></pre>\n"
  else expansion reference

def sectionEnd : String := "</div>"

/-- The beginning of a section; any but the first ends the one before it. -/
def sectionBegin (first : Bool) (name : String) : String :=
  (if first then "" else sectionEnd) ++
    "<div" ++ attr "id" name ++ " class=\"section\" hidden=\"true\">\n"

/-- The name of the inline link with this number. The leading underscore keeps it disabled until
the engine moves it into the current section. -/
def inlineId (n : Nat) : String := "_inline-" ++ toString n

/-- A link that the engine follows; its text is markup already. -/
def anchor (id : Option String) (action target text : String) : String :=
  let idAttr := match id with
    | some i => " id=\"" ++ i ++ "\""
    | none => ""
  "<a href=\"#\"" ++ idAttr ++ attr ("data-" ++ action) target ++ ">" ++ text ++ "</a>"

def image (source alt : String) : String :=
  "<img" ++ attr "src" source ++ attr "alt" alt ++ attr "title" alt ++ ">"

def engineImage (name alt : String) : String :=
  "<img" ++ attr "data-image-source-macro" name ++ " src=\"#\"" ++ attr "alt" alt ++
    attr "title" alt ++ ">"

end Hyperstory.Markup
