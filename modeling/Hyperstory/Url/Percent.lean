import Hyperstory.Text.Entity

/-! Percent-encoding: bytes of UTF-8 written as a percent sign and two hexadecimal digits. -/
namespace Hyperstory.Url

/-- The character that stands for bytes which are not text. -/
def replacement : Char := '�'

def upperHex (n : Nat) : Char := if n < 10 then Char.ofNat (48 + n) else Char.ofNat (55 + n)

def escapeByte (n : Nat) : List Char := ['%', upperHex (n / 16), upperHex (n % 16)]

/-- Punctuation that an encoded destination keeps. -/
def encodeKeeps : List Char := ";/?:@&=+$,-_.!~*'()#".toList

/-- Characters whose escapes a decoded destination keeps. -/
def decodeKeeps : List Char := ";/?:@&=+$,#%".toList

/-- A character, encoded unless it is a letter, a digit or one of the kept marks of ASCII. -/
def encodeChar (c : Char) : List Char :=
  if c.isAlphanum || encodeKeeps.contains c then [c]
  else (String.utf8EncodeChar c).flatMap fun b => escapeByte b.toNat

def byte? (hi lo : Char) : Option Nat :=
  match Text.Entity.hexDigit? hi, Text.Entity.hexDigit? lo with
  | some h, some l => some (16 * h + l)
  | _, _ => none

/-- Encodes a destination; escapes that are there already stay. -/
def encode : List Char → List Char
  | '%' :: hi :: lo :: cs =>
    if (byte? hi lo).isSome then '%' :: hi :: lo :: encode cs
    else encodeChar '%' ++ encode (hi :: lo :: cs)
  | c :: cs => encodeChar c ++ encode cs
  | [] => []

def leadingBytes : List Char → List Nat
  | '%' :: hi :: lo :: cs =>
    match byte? hi lo with
    | some b => b :: leadingBytes cs
    | none => []
  | _ => []

def continues (b : Nat) : Bool := b / 64 == 2

/-- The character, or as many replacements as it has bytes if there is no such character. -/
def charOr (count n least : Nat) : List Char :=
  if least ≤ n && n ≤ 0x10ffff && !(0xd800 ≤ n && n ≤ 0xdfff) then [Char.ofNat n]
  else List.replicate count replacement

/-- The text of a run of bytes. A byte that begins no complete character is replaced by itself. -/
def decodeBytes : List Nat → List Char
  | [] => []
  | a :: rest =>
    if a < 0x80 then
      (if decodeKeeps.contains (Char.ofNat a) then escapeByte a else [Char.ofNat a]) ++
        decodeBytes rest
    else
      match rest with
      | b :: c :: d :: rest' =>
        if a / 32 == 6 && continues b then
          charOr 2 (a % 32 * 64 + b % 64) 0x80 ++ decodeBytes (c :: d :: rest')
        else if a / 16 == 14 && continues b && continues c then
          charOr 3 ((a % 16 * 64 + b % 64) * 64 + c % 64) 0x800 ++ decodeBytes (d :: rest')
        else if a / 8 == 30 && continues b && continues c && continues d then
          charOr 4 (((a % 8 * 64 + b % 64) * 64 + c % 64) * 64 + d % 64) 0x10000 ++
            decodeBytes rest'
        else replacement :: decodeBytes (b :: c :: d :: rest')
      | [b, c] =>
        if a / 32 == 6 && continues b then
          charOr 2 (a % 32 * 64 + b % 64) 0x80 ++ decodeBytes [c]
        else if a / 16 == 14 && continues b && continues c then
          charOr 3 ((a % 16 * 64 + b % 64) * 64 + c % 64) 0x800
        else replacement :: decodeBytes [b, c]
      | [b] =>
        if a / 32 == 6 && continues b then charOr 2 (a % 32 * 64 + b % 64) 0x80
        else replacement :: decodeBytes [b]
      | [] => [replacement]

/-- Goes on after `skip` characters that a run of escapes has used up. -/
def decodeAfter : Nat → List Char → List Char
  | _, [] => []
  | skip + 1, _ :: cs => decodeAfter skip cs
  | 0, c :: cs =>
    match leadingBytes (c :: cs) with
    | [] => c :: decodeAfter 0 cs
    | bytes => decodeBytes bytes ++ decodeAfter (3 * bytes.length - 1) cs

/-- Decodes every run of escapes. -/
def decode (cs : List Char) : List Char := decodeAfter 0 cs

end Hyperstory.Url
