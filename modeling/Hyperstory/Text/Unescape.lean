import Hyperstory.Text.Entity

/-! Backslash escapes and character references outside running text: in link destinations, titles
and the words behind a fence. -/
namespace Hyperstory.Text

def isEscapable (c : Char) : Bool := "!\"#$%&'()*+,-./:;<=>?@[\\]^_\x60\x7b|\x7d~".toList.contains c

def isNameChar (c : Char) : Bool := c.isAlpha || c.isDigit

/-- The name between an ampersand and a semicolon: a letter or number sign, then one to
thirty-one letters and digits. -/
def referenceName? (cs : List Char) : Option (List Char) :=
  match cs with
  | c :: rest =>
    let tail := rest.takeWhile isNameChar
    if (c.isAlpha || c == '#') && 1 ≤ tail.length && tail.length ≤ 31 &&
        (rest.drop tail.length).head? == some ';' then some (c :: tail)
    else none
  | [] => none

/-- All characters are digits of the base, and there are between one and eight of them. -/
def isShortNumber (isDigit : Char → Bool) (cs : List Char) : Bool :=
  1 ≤ cs.length && cs.length ≤ 8 && cs.all isDigit

def numberOf? (name : List Char) : Option Nat :=
  match name with
  | '#' :: digits =>
    if isShortNumber Char.isDigit digits then some (Entity.number 10 digits)
    else
      match digits with
      | x :: hex =>
        if (x == 'x' || x == 'X') && isShortNumber (fun c => (Entity.hexDigit? c).isSome) hex then
          some (Entity.number 16 hex)
        else none
      | [] => none
  | _ => none

/-- The text of a reference: a known name, or the number of a valid code point. -/
def ofReference? (name : List Char) : Option (List Char) :=
  match Entity.ofName? (String.ofList name) with
  | some s => some s.toList
  | none =>
    match numberOf? name with
    | some n => if Entity.validCode n then some [Char.ofNat n] else none
    | none => none

/-- Goes on after `skip` characters that a reference has used up. -/
def unescapeAfter : Nat → List Char → List Char
  | _, [] => []
  | skip + 1, _ :: cs => unescapeAfter skip cs
  | 0, '\\' :: c :: cs =>
    if isEscapable c then c :: unescapeAfter 0 cs else '\\' :: unescapeAfter 0 (c :: cs)
  | 0, '&' :: cs =>
    match referenceName? cs with
    | some name =>
      match ofReference? name with
      | some text => text ++ unescapeAfter (name.length + 1) cs
      | none => '&' :: unescapeAfter 0 cs
    | none => '&' :: unescapeAfter 0 cs
  | 0, c :: cs => c :: unescapeAfter 0 cs

/-- Text without its backslash escapes and with the characters that references name. -/
def unescapeAll (cs : List Char) : List Char := unescapeAfter 0 cs

end Hyperstory.Text
