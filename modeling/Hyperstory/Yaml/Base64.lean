import Hyperstory.Yaml.Token

/-! Bytes written in base sixty-four. -/
namespace Hyperstory.Yaml.Base64

def digit? (c : Char) : Option Nat :=
  let n := c.toNat
  if c.isUpper then some (n - 65)
  else if c.isLower then some (n - 71)
  else if c.isDigit then some (n + 4)
  else if c == '+' then some 62
  else if c == '/' then some 63
  else none

/-- Reads digits four at a time; `held` are those of the group that is not full, the last first, and
`pads` the number of padding signs behind them. Other characters are passed over. -/
def decodeFrom : List Nat → Nat → List Char → Option (List UInt8)
  | held, _, [] => if held.isEmpty then some [] else none
  | held, pads, c :: cs =>
    if c == '=' then
      if 2 ≤ held.length && 4 ≤ held.length + pads + 1 then
        match held with
        | [b, a] => some [(4 * a + b / 16).toUInt8]
        | [c, b, a] => some [(4 * a + b / 16).toUInt8, (16 * b + c / 4).toUInt8]
        | _ => none
      else decodeFrom held (if 2 ≤ held.length then pads + 1 else pads) cs
    else
      match digit? c with
      | none => decodeFrom held pads cs
      | some d =>
        match held with
        | [c, b, a] =>
          (decodeFrom [] 0 cs).map fun rest =>
            (4 * a + b / 16).toUInt8 :: (16 * b + c / 4).toUInt8 :: (64 * c + d).toUInt8 :: rest
        | _ => decodeFrom (d :: held) 0 cs

def decode (cs : List Char) : Read (List UInt8) :=
  if cs.all (·.toNat < 128) then
    match decodeFrom [] 0 cs with
    | some bytes => .ok bytes
    | none => .error .malformed
  else .error .malformed

end Hyperstory.Yaml.Base64
