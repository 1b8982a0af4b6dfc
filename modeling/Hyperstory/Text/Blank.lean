/-! Blank characters of any script, and text without the blanks at its ends. -/
namespace Hyperstory.Text

/-- White space: the separators of Unicode and the controls that stand for one. -/
def isBlank (c : Char) : Bool :=
  let n := c.toNat
  (9 ≤ n && n ≤ 13) || (0x1c ≤ n && n ≤ 0x20) || n == 0x85 || n == 0xa0 || n == 0x1680 ||
    (0x2000 ≤ n && n ≤ 0x200a) || n == 0x2028 || n == 0x2029 || n == 0x202f || n == 0x205f ||
    n == 0x3000

/-- White space that sets words apart: blanks other than the controls that separate records or
stand for the end of a line. -/
def isWhite (c : Char) : Bool :=
  isBlank c && !(0x1c ≤ c.toNat && c.toNat ≤ 0x1f) && c.toNat != 0x85

def isPlainWhite (c : Char) : Bool := (9 ≤ c.toNat && c.toNat ≤ 13) || c == ' '

/-- A space or a tab, the blanks that indent a line. -/
def isIndent (c : Char) : Bool := c == ' ' || c == '\t'

/-- The text without the characters of a class at both ends. -/
def stripBy (drop : Char → Bool) (cs : List Char) : List Char :=
  ((cs.dropWhile drop).reverse.dropWhile drop).reverse

def strip (cs : List Char) : List Char := stripBy isBlank cs

def trim (cs : List Char) : List Char := stripBy isWhite cs

/-- The first maximal run of characters other than white space. -/
def firstWord (cs : List Char) : List Char := (cs.dropWhile isWhite).takeWhile (!isWhite ·)

/-- Every run of white space becomes one space; `inside` says that a run has begun. -/
def collapseWhite (inside : Bool) : List Char → List Char
  | [] => []
  | c :: cs =>
    if isWhite c then
      if inside then collapseWhite true cs else ' ' :: collapseWhite true cs
    else c :: collapseWhite false cs

end Hyperstory.Text
