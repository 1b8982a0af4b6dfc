import Hyperstory.Text.Punctuation
import Hyperstory.Text.Unescape
import Hyperstory.Token

/-! Emphasis: which marks open it, which close it, and which belong together. -/
namespace Hyperstory.Markdown

/-- One mark of a run of equal marks. -/
structure Delimiter where
  mark : Char
  length : Nat
  place : Nat
  opens : Bool
  closes : Bool
  closer : Option Nat := none
  deriving Inhabited

def isSpace (c : Char) : Bool :=
  let n := c.toNat
  (9 ≤ n && n ≤ 13) || n == 0x20 || n == 0xa0 || n == 0x1680 || (0x2000 ≤ n && n ≤ 0x200a) ||
    n == 0x202f || n == 0x205f || n == 0x3000

def isPunct (c : Char) : Bool := Text.isEscapable c || Text.isPunctuation c

/-- A run stands at the left of a text: no space follows it, and punctuation only if a space or
punctuation comes before. -/
def leftFlanking (before after : Char) : Bool :=
  !(isSpace after || (isPunct after && !(isSpace before || isPunct before)))

/-- A run opens emphasis. Underscores do so only outside of words. -/
def canOpen (mark before after : Char) : Bool :=
  leftFlanking before after &&
    (mark == '*' || !leftFlanking after before || isPunct before)

def canClose (mark before after : Char) : Bool := canOpen mark after before

structure Pairing where
  delimiters : Array Delimiter
  /-- How many delimiters before one can be passed over. -/
  jumps : Array Nat := #[]
  /-- Below which place no opener is left, by mark, whether the closer could open, and its length
  modulo three. -/
  bottoms : List ((Char × Bool × Nat) × Nat) := []
  header : Nat := 0
  /-- The place of the delimiter before, if the next one may continue its run. -/
  lastPlace : Option Nat := none

namespace Pairing

def get (p : Pairing) (i : Nat) : Delimiter := p.delimiters.getD i default

/-- The number of delimiters that are passed over from `i` on to the left. -/
def jump (p : Pairing) (i : Nat) : Nat := p.jumps.getD i 0

/-- If one of two delimiters can both open and close, the lengths of their runs do not sum to a
multiple of three unless both are such multiples. -/
def lengthsFit (opener closer : Delimiter) : Bool :=
  !((opener.closes || closer.opens) && (opener.length + closer.length) % 3 == 0 &&
    (opener.length % 3 != 0 || closer.length % 3 != 0))

/-- The last delimiter before `i` and not before `bottom` that a closer can close; at most `n` are
looked at. -/
def openerUpTo (p : Pairing) (closer : Delimiter) (bottom : Nat) : Nat → Nat → Option Nat
  | 0, _ => none
  | n + 1, i =>
    if i ≤ bottom then none
    else
      let o := i - 1
      let opener := p.get o
      if opener.mark == closer.mark && opener.opens && opener.closer.isNone &&
          lengthsFit opener closer then some o
      else p.openerUpTo closer bottom n (o - p.jump o)

/-- Records that `o` opens what `c` closes. -/
def join (p : Pairing) (o c : Nat) : Pairing :=
  let last := if 0 < o && !(p.get (o - 1)).opens then p.jump (o - 1) + 1 else 0
  { p with
    jumps := (p.jumps.setIfInBounds c (c - o + last)).setIfInBounds o last
    delimiters := (p.delimiters.modify c fun d => { d with opens := false }).modify o fun d =>
      { d with closer := some c, closes := false }
    lastPlace := none }

/-- Looks for the opener of the delimiter `c`. -/
def close (p : Pairing) (c : Nat) : Pairing :=
  let closer := p.get c
  let p := { p with jumps := p.jumps.push 0 }
  let sameRun := (p.get p.header).mark == closer.mark && p.lastPlace == some closer.place
  let p := { p with
    header := if sameRun then p.header else c
    lastPlace := some (closer.place + 1) }
  if !closer.closes then p
  else
    let key := (closer.mark, closer.opens, closer.length % 3)
    let bottom := (p.bottoms.lookup key).getD 0
    let top := p.header - p.jump p.header
    match p.openerUpTo closer bottom (top + 1) top with
    | some o => p.join o c
    | none => if top = 0 then p else { p with bottoms := (key, top) :: p.bottoms }

def all (ds : Array Delimiter) : Array Delimiter :=
  ((List.range ds.size).foldl close { delimiters := ds }).delimiters

end Pairing

def emphasisToken (strong : Bool) (mark : Char) (nesting : Nesting) : Token :=
  let tag := if strong then "strong" else "em"
  let suffix := if nesting = .opens then "_open" else "_close"
  { kind := tag ++ suffix, tag, nesting
    markup := String.ofList (List.replicate (if strong then 2 else 1) mark) }

/-- An empty text, which is left where two marks count as one. -/
def emptyText : Token := { kind := "text" }

/-- Turns the first `n` delimiters into tags, the last one first. Two pairs next to each other make
one strong pair. -/
def emphasize (ds : Array Delimiter) : Nat → Array (List Token) → Array (List Token)
  | 0, out => out
  | n + 1, out =>
    let d := ds.getD n default
    match d.closer with
    | none => emphasize ds n out
    | some c =>
      let e := ds.getD c default
      let put (strong : Bool) : Array (List Token) :=
        (out.setIfInBounds d.place [emphasisToken strong d.mark .opens]).setIfInBounds e.place
          [emphasisToken strong d.mark .closes]
      match n with
      | 0 => put false
      | m + 1 =>
        let before := ds.getD m default
        let after := ds.getD (c + 1) default
        if before.closer == some (c + 1) && before.mark == d.mark && before.place + 1 == d.place &&
            after.place == e.place + 1 then
          emphasize ds m
            (((put true).setIfInBounds before.place [emptyText]).setIfInBounds after.place
              [emptyText])
        else emphasize ds (m + 1) (put false)

end Hyperstory.Markdown
