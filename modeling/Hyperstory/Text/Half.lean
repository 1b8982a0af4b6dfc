/-! Halves of surrogate pairs. No character is one, so the private characters U+FD800 to U+FDFFF stand
for them in texts that can hold them. Texts that have these characters themselves are left out. -/
namespace Hyperstory.Text.Half

/-- How far the private characters lie above the codes of the halves. -/
def shift : Nat := 0xf0000

def isCode (n : Nat) : Bool := 0xd800 ≤ n && n ≤ 0xdfff

def ofCode (n : Nat) : Char := Char.ofNat (shift + n)

def isHalf (c : Char) : Bool := shift ≤ c.toNat && isCode (c.toNat - shift)

def code (c : Char) : Nat := if isHalf c then c.toNat - shift else c.toNat

/-- The codes of a text, by which texts are ordered. -/
def codes (s : String) : List Nat := s.toList.map code

/-- One text does not come after another. -/
def isLe (s t : String) : Bool := !List.lex (codes t) (codes s) Nat.blt

/-- A half stands for a byte of a name that is no text. -/
def isByte (c : Char) : Bool := 0xdc80 ≤ code c && code c ≤ 0xdcff

end Hyperstory.Text.Half
