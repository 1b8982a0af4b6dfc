import Hyperstory.Text.Newline
import Hyperstory.Yaml.Token

/-! The text of a YAML file, as far as it can be read. A file is read piece by piece, so what is wrong
with a later piece counts only if it is needed. -/
namespace Hyperstory.Yaml

/-- A text, and why nothing can be read behind it if it is not whole. -/
structure Source where
  text : List Char
  defect : Option Defect := none

def isTextChar (c : Char) : Bool :=
  let n := c.toNat
  n == 9 || n == 10 || n == 13 || (0x20 ≤ n && n ≤ 0x7e) || n == 0x85 || (0xa0 ≤ n && n ≤ 0xfffd) ||
    0x10000 ≤ n

namespace Source

def chunkSize : Nat := 8192

/-- How many characters are taken at a time. The first two pieces are taken together. -/
def pieceSize : Nat := 4096

def pieceStart (place : Nat) : Nat :=
  if place < 2 * pieceSize then 0 else place / pieceSize * pieceSize

/-- Bytes that must follow those of a character: how many, and the range of the first of them. -/
structure Awaited where
  count : Nat
  low : UInt8 := 0x80
  high : UInt8 := 0xbf

/-- The bytes that must follow the first byte of a character; none for a byte that begins no
character. -/
def awaitedAfter? (b : UInt8) : Option Awaited :=
  if b < 0x80 then some { count := 0 }
  else if b < 0xc2 then none
  else if b < 0xe0 then some { count := 1 }
  else if b < 0xf0 then
    some { count := 2, low := if b == 0xe0 then 0xa0 else 0x80
           high := if b == 0xed then 0x9f else 0xbf }
  else if b < 0xf5 then
    some { count := 3, low := if b == 0xf0 then 0x90 else 0x80
           high := if b == 0xf4 then 0x8f else 0xbf }
  else none

/-- The place of the first byte that shows that bytes are not UTF-8. If the last character is cut off,
that is the place behind the last byte. -/
def firstBad? (place : Nat) (a : Awaited) : List UInt8 → Option Nat
  | [] => if a.count = 0 then none else some place
  | b :: bs =>
    if a.count = 0 then
      match awaitedAfter? b with
      | some a => firstBad? (place + 1) a bs
      | none => some place
    else if a.low ≤ b && b ≤ a.high then firstBad? (place + 1) { count := a.count - 1 } bs
    else some place

/-- The text of the longest part of bytes that ends with a whole character, where at most three bytes
are left over. -/
def wholeText (bytes : ByteArray) : List Char :=
  let texts := [0, 1, 2, 3].filterMap fun n => String.fromUTF8? (bytes.extract 0 (bytes.size - n))
  (texts.head?.getD "").toList

/-- The text of bytes that are not UTF-8 from a place on. Chunks before the one with that place are
decoded, and whole pieces of them can be read. A carriage return at the end waits for what follows. -/
def upTo (bytes : ByteArray) (bad : Nat) : List Char :=
  let size := if bad = bytes.size then bad else bad / chunkSize * chunkSize
  let text := wholeText (bytes.extract 0 size)
  let text := Text.unifyNewlines (if text.getLast? == some '\r' then text.dropLast else text)
  text.take (pieceStart text.length)

/-- The source without the pieces from the one with the first forbidden character on. -/
def checked (s : Source) : Source :=
  let fine := s.text.takeWhile isTextChar
  if fine.length = s.text.length then s
  else { text := s.text.take (pieceStart fine.length), defect := some .malformed }

def ofBytes (bytes : ByteArray) : Source :=
  match String.fromUTF8? bytes with
  | some s => checked { text := Text.unifyNewlines s.toList }
  | none =>
    let bad := (firstBad? 0 { count := 0 } bytes.toList).getD bytes.size
    checked { text := upTo bytes bad, defect := some .unreadable }

end Source

end Hyperstory.Yaml
