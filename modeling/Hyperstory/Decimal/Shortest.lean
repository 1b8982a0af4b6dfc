/-! The shortest decimal text of a binary floating-point number. -/
namespace Hyperstory.Decimal

/-- A positive number as a whole number times a power of two. -/
structure Binary where
  mantissa : Nat
  exponent : Int
  deriving DecidableEq, Repr

namespace Binary

/-- The place where the numbers that round to `b` begin and end, each times `4 * 2 ^ -exponent`. Below
a power of two the neighbour is only half as far away. -/
def interval (b : Binary) : Nat × Nat :=
  let atPower := b.mantissa == Nat.pow 2 52 && b.exponent != -1074
  (4 * b.mantissa - (if atPower then 1 else 2), 4 * b.mantissa + 2)

/-- The value, and the ends of the interval, as numerators over one denominator. -/
def fractions (b : Binary) : Nat × Nat × Nat × Nat :=
  let (low, high) := b.interval
  let up := Nat.pow 2 (b.exponent - 2).toNat
  let down := Nat.pow 2 (2 - b.exponent).toNat
  (low * up, 4 * b.mantissa * up, high * up, down)

end Binary

/-- Digits, and the power of ten that the last of them counts. -/
structure Digits where
  digits : Nat
  power : Int
  deriving DecidableEq, Repr

/-- Whether `d * 10 ^ power` rounds to the number; the ends of the interval do so if the mantissa is
even. -/
def Binary.admits (b : Binary) (d : Digits) : Bool :=
  let (low, _, high, den) := b.fractions
  let num := d.digits * Nat.pow 10 d.power.toNat * den
  let scale := Nat.pow 10 (-d.power).toNat
  if b.mantissa % 2 == 0 then low * scale ≤ num && num ≤ high * scale
  else low * scale < num && num < high * scale

/-- The whole part of the number over `10 ^ power`. -/
def Binary.floorAt (b : Binary) (power : Int) : Nat :=
  let (_, value, _, den) := b.fractions
  (value * Nat.pow 10 (-power).toNat) / (den * Nat.pow 10 power.toNat)

/-- Twice the distance from the number to `d * 10 ^ power` is at most one unit of that power. -/
def Binary.nearerBelow (b : Binary) (d : Nat) (power : Int) : Bool :=
  let (_, value, _, den) := b.fractions
  2 * value * Nat.pow 10 (-power).toNat ≤ (2 * d + 1) * den * Nat.pow 10 power.toNat

/-- The best decimal with a given last power: the neighbour below or above that rounds to the number,
the nearer one if both do. -/
def Binary.atPower (b : Binary) (power : Int) : Option Digits :=
  let d := b.floorAt power
  let below : Digits := ⟨d, power⟩
  let above : Digits := ⟨d + 1, power⟩
  match b.admits below, b.admits above with
  | true, true => some (if b.nearerBelow d power then below else above)
  | true, false => some below
  | false, true => some above
  | false, false => none

/-- The first of `n` powers, from `power` downwards, at which some decimal rounds to the number. -/
def Binary.firstPower (b : Binary) : Nat → Int → Digits
  | 0, power => ⟨b.floorAt power, power⟩
  | n + 1, power => (b.atPower power).getD (b.firstPower n (power - 1))

/-- The fewest digits that read back as the number. -/
def Binary.shortest (b : Binary) : Digits := b.firstPower 700 309

/-- The digits without zeros at their end; at most `n` are taken away. -/
def Digits.trimUpTo : Nat → Digits → Digits
  | 0, d => d
  | n + 1, d =>
    if d.digits % 10 == 0 && d.digits != 0 then trimUpTo n ⟨d.digits / 10, d.power + 1⟩ else d

/-- The finite positive number that the bits of a double without its sign write. -/
def Binary.ofBits (bits : Nat) : Binary :=
  let exponent : Nat := bits / Nat.pow 2 52 % Nat.pow 2 11
  let fraction := bits % Nat.pow 2 52
  if exponent == 0 then ⟨fraction, -1074⟩ else ⟨fraction + Nat.pow 2 52, (exponent : Int) - 1075⟩

def withPoint (digits : String) (n : Nat) : String :=
  String.ofList (digits.toList.take n) ++ "." ++ String.ofList (digits.toList.drop n)

/-- An exponent with its sign and at least two digits. -/
def exponentText (e : Int) : String :=
  let digits := toString e.natAbs
  (if e < 0 then "e-" else "e+") ++ (if digits.length < 2 then "0" else "") ++ digits

/-- Digits in positional notation if the point stands at most four places before the first digit and
at most sixteen behind it, else with an exponent. -/
def Digits.text (d : Digits) : String :=
  let digits := toString d.digits
  let point : Int := digits.length + d.power
  if -4 < point && point ≤ 16 then
    if point ≤ 0 then "0." ++ String.ofList (List.replicate (-point).toNat '0') ++ digits
    else if digits.length ≤ point then
      digits ++ String.ofList (List.replicate (point - digits.length).toNat '0') ++ ".0"
    else withPoint digits point.toNat
  else
    (if digits.length == 1 then digits else withPoint digits 1) ++ exponentText (point - 1)

def text (x : Float) : String :=
  let bits := x.toBits.toNat
  let sign := if Nat.pow 2 63 ≤ bits then "-" else ""
  let magnitude := bits % Nat.pow 2 63
  if x.isNaN then "nan"
  else if x.isInf then sign ++ "inf"
  else if magnitude == 0 then sign ++ "0.0"
  else sign ++ (Digits.trimUpTo 400 (Binary.ofBits magnitude).shortest).text

end Hyperstory.Decimal
