import Hyperstory.Text.Blank

/-! Raw HTML: tags, comments, instructions, declarations and character data. -/
namespace Hyperstory.Markdown.Tag

def isNameChar (c : Char) : Bool := c.isAlphanum || c == '-'

def afterName? (cs : List Char) : Option (List Char) :=
  match cs with
  | c :: rest => if c.isAlpha then some (rest.dropWhile isNameChar) else none
  | [] => none

def beginsAttr (c : Char) : Bool := c.isAlpha || c == '_' || c == ':'

def isAttrChar (c : Char) : Bool := c.isAlphanum || c == ':' || c == '.' || c == '_' || c == '-'

def isBareChar (c : Char) : Bool := 0x20 < c.toNat && !"\"'=<>\x60".toList.contains c

def afterChar? (c : Char) : List Char → Option (List Char)
  | [] => none
  | d :: ds => if d == c then some ds else afterChar? c ds

def afterWord? (word : List Char) : List Char → Option (List Char)
  | [] => if word.isEmpty then some [] else none
  | c :: cs => if word.isPrefixOf (c :: cs) then some ((c :: cs).drop word.length)
    else afterWord? word cs

/-- Every way to leave out blanks at the beginning, the most of them first. -/
def blankRests : List Char → List (List Char)
  | [] => [[]]
  | c :: cs => if Text.isBlank c then blankRests cs ++ [c :: cs] else [c :: cs]

/-- What can follow a value. A bare value may be cut short, the longest comes first. -/
def valueRests (cs : List Char) : List (List Char) :=
  match cs with
  | '\'' :: rest => (afterChar? '\'' rest).toList
  | '"' :: rest => (afterChar? '"' rest).toList
  | _ => (List.range (cs.takeWhile isBareChar).length).reverse.map fun n => cs.drop (n + 1)

/-- What can follow an attribute with the blanks before it. -/
def attrRests (cs : List Char) : List (List Char) :=
  match cs, cs.dropWhile Text.isBlank with
  | b :: _, c :: rest =>
    if Text.isBlank b && beginsAttr c then
      let bare := rest.dropWhile isAttrChar
      match bare.dropWhile Text.isBlank with
      | '=' :: value => (blankRests value).flatMap valueRests ++ [bare]
      | _ => [bare]
    else []
  | _, _ => []

def afterEnd? (cs : List Char) : Option (List Char) :=
  match cs.dropWhile Text.isBlank with
  | '/' :: '>' :: rest => some rest
  | '>' :: rest => some rest
  | _ => none

/-- What can follow at most `n` attributes and the end of the tag. -/
def attrsRests : Nat → List Char → List (List Char)
  | 0, cs => (afterEnd? cs).toList
  | n + 1, cs => (attrRests cs).flatMap (attrsRests n) ++ (afterEnd? cs).toList

/-- What can follow an opening tag; the text begins with `<`. -/
def openRests (cs : List Char) : List (List Char) :=
  match cs with
  | '<' :: rest =>
    match afterName? rest with
    | some tail => attrsRests tail.length tail
    | none => []
  | _ => []

def afterClose? (cs : List Char) : Option (List Char) :=
  match cs with
  | '<' :: '/' :: rest =>
    match afterName? rest with
    | some tail =>
      match tail.dropWhile Text.isBlank with
      | '>' :: r => some r
      | _ => none
    | none => none
  | _ => none

/-- The text behind the end of a comment. Two dashes take the character after them along, so three
dashes do not end a comment. -/
def afterComment? : List Char → Option (List Char)
  | '-' :: '-' :: '>' :: rest => some rest
  | '-' :: '-' :: _ :: rest => afterComment? rest
  | ['-', '-'] => none
  | '-' :: _ :: rest => afterComment? rest
  | ['-'] => none
  | _ :: rest => afterComment? rest
  | [] => none

/-- The text behind a tag, comment, instruction, declaration or character data. -/
def after? (cs : List Char) : Option (List Char) :=
  match (openRests cs).head?, afterClose? cs, cs with
  | some rest, _, _ => some rest
  | none, some rest, _ => some rest
  | none, none, '<' :: '!' :: '-' :: '-' :: '>' :: rest => some rest
  | none, none, '<' :: '!' :: '-' :: '-' :: '-' :: '>' :: rest => some rest
  | none, none, '<' :: '!' :: '-' :: '-' :: rest => afterComment? rest
  | none, none, '<' :: '?' :: rest => afterWord? "?>".toList rest
  | none, none, '<' :: '!' :: c :: rest =>
    if c.isAlpha then afterChar? '>' rest
    else if "[CDATA[".toList.isPrefixOf (c :: rest) then afterWord? "]]>".toList (rest.drop 6)
    else none
  | _, _, _ => none

def standsAlone (cs : List Char) : Bool :=
  (openRests cs ++ (afterClose? cs).toList).any fun rest => rest.all Text.isBlank

/-- The text begins with one of the words in any case, and what follows is accepted. -/
def beginsWithName (names : List String) (accept : List Char → Bool) (cs : List Char) : Bool :=
  names.any fun n =>
    (cs.take n.length).map Char.toLower == n.toList && accept (cs.drop n.length)

end Hyperstory.Markdown.Tag
