import Hyperstory.Text.Blank
import Hyperstory.Text.Digit
import Hyperstory.Text.Entity
import Hyperstory.Yaml.Token

/-! Numbers as they are written in YAML. -/
namespace Hyperstory.Yaml.Number

def withoutBars (cs : List Char) : List Char := cs.filter (· != '_')

def splitSign (cs : List Char) : Bool × List Char :=
  match cs with
  | '-' :: rest => (true, rest)
  | '+' :: rest => (false, rest)
  | _ => (false, cs)

/-- The letter that may follow a zero in front of digits of a base. -/
def baseLetter (base : Nat) : Option Char :=
  match base with
  | 2 => some 'b'
  | 8 => some 'o'
  | 16 => some 'x'
  | _ => none

def isDigitOf (base : Nat) (c : Char) : Bool := (Text.Entity.hexDigit? c).any (· < base)

/-- A whole number in a base, with blanks around it, a sign and the mark of the base if they are
there. -/
def whole (base : Nat) (cs : List Char) : Read Int :=
  let (negative, cs) := splitSign ((Text.strip cs).map Text.plainDigit)
  let digits := match cs with
    | '0' :: c :: rest => if baseLetter base == some c.toLower then rest else cs
    | _ => cs
  if digits.isEmpty || !digits.all (isDigitOf base) ||
      (base == 10 && maxDigits < digits.length) then .error .number
  else
    let n : Int := Text.Entity.number base digits
    .ok (if negative then -n else n)

def sixties (parts : List Int) : Int := parts.foldl (fun n p => 60 * n + p) 0

/-- A whole number: binary, octal, hexadecimal, in base sixty, or decimal. -/
def int (text : List Char) : Read Int := do
  let cs := withoutBars text
  if cs.isEmpty then .error .emptyNumber
  else
    let (negative, cs) := splitSign cs
    let n ← match cs with
      | [] => .error .emptyNumber
      | '0' :: 'b' :: rest => whole 2 rest
      | '0' :: 'x' :: rest => whole 16 rest
      | '0' :: _ => whole 8 cs
      | _ =>
        if cs.contains ':' then do
          let parts ← (cs.splitOn ':').mapM (whole 10)
          .ok (sixties parts)
        else whole 10 cs
    .ok (if negative then -n else n)

/-- A decimal `digits * 10 ^ power` as a floating-point number. -/
def scientific (digits : Nat) (power : Int) : Float :=
  let size : Int := (toString digits).length + power
  if digits = 0 || size < -400 then 0.0
  else if 400 < size then 1.0 / 0.0
  else Float.ofScientific digits (power < 0) power.natAbs

/-- A decimal with a point and an exponent, where they are there. -/
def decimal? (cs : List Char) : Option Float := do
  let front := cs.takeWhile Char.isDigit
  let rest := cs.drop front.length
  let (fraction, rest) := match rest with
    | '.' :: r => (r.takeWhile Char.isDigit, r.dropWhile Char.isDigit)
    | _ => ([], rest)
  let digits := front ++ fraction
  let power ← match rest with
    | [] => some 0
    | 'e' :: r =>
      let (negative, ds) := splitSign r
      if ds.isEmpty || !ds.all Char.isDigit then none
      else
        let n : Int := Text.Entity.number 10 ds
        some (if negative then -n else n)
    | _ => none
  if digits.isEmpty then none
  else some (scientific (Text.Entity.number 10 digits) (power - fraction.length))

/-- A floating-point number in lower case, with blanks around it and a sign. -/
def real (cs : List Char) : Read Float :=
  let (negative, cs) := splitSign ((Text.strip cs).map Text.plainDigit)
  let x :=
    if ["inf", "infinity"].contains (String.ofList cs) then some (1.0 / 0.0)
    else if String.ofList cs == "nan" then some (0.0 / 0.0)
    else decimal? cs
  match x with
  | some x => .ok (if negative then -x else x)
  | none => .error .number

/-- The sum of parts in base sixty, from the ones up; `unit` is the weight of the first part, which
must be a finite floating-point number. -/
def sumSixties : Nat → List Float → Float → Read Float
  | _, [], sum => .ok sum
  | unit, x :: xs, sum =>
    if Nat.pow 2 1024 ≤ unit then .error .tooLarge
    else sumSixties (60 * unit) xs (sum + x * Float.ofNat unit)

/-- A number without underscores, in lower case, and whether it is negative. -/
def bareFloat (text : List Char) : Bool × List Char :=
  splitSign ((withoutBars text).map Char.toLower)

/-- The common way to write that something is no number. -/
def isPlainNan (text : List Char) : Bool := String.ofList (bareFloat text).2 == ".nan"

/-- A floating-point number: an infinity, no number, in base sixty, or decimal. -/
def float (text : List Char) : Read Float := do
  if (withoutBars text).isEmpty then .error .emptyNumber
  else
    let (negative, cs) := bareFloat text
    let x ←
      if String.ofList cs == ".inf" then .ok (1.0 / 0.0)
      else if isPlainNan text then .ok (0.0 / 0.0)
      else if cs.contains ':' then do
        let parts ← (cs.splitOn ':').mapM real
        sumSixties 1 parts.reverse 0.0
      else real cs
    .ok (if negative then -x else x)

end Hyperstory.Yaml.Number
