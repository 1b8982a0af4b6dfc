/-! Host names of any script in ASCII: the letters of ASCII first, then where to put the others. -/
namespace Hyperstory.Url.Punycode

/-- The threshold at a digit's place, between 1 and 26. -/
def threshold (k bias : Nat) : Nat := if k ≤ bias then 1 else min (k - bias) 26

/-- Halves a difference until it is small, counting the steps. -/
def dampen : Nat → Nat → Nat → Nat
  | 0, delta, k => k + 36 * delta / (delta + 38)
  | fuel + 1, delta, k =>
    if delta > 455 then dampen fuel (delta / 35) (k + 36) else k + 36 * delta / (delta + 38)

/-- The bias after a difference was written. -/
def adapt (delta count : Nat) (first : Bool) : Nat :=
  let delta := if first then delta / 700 else delta / 2
  let delta := delta + delta / count
  dampen delta delta 0

def digit (n : Nat) : Char := if n < 26 then Char.ofNat (97 + n) else Char.ofNat (22 + n)

def value? (c : Char) : Option Nat :=
  if 'a' ≤ c ∧ c ≤ 'z' then some (c.toNat - 97)
  else if '0' ≤ c ∧ c ≤ '9' then some (c.toNat - 22)
  else none

def writeNumber : Nat → Nat → Nat → Nat → List Char
  | 0, _, _, _ => []
  | fuel + 1, n, k, bias =>
    let t := threshold k bias
    if n < t then [digit n]
    else digit (t + (n - t) % (36 - t)) :: writeNumber fuel ((n - t) / (36 - t)) (k + 36) bias

/-- What is known while the letters outside ASCII are written in increasing order. -/
structure Writer where
  next : Nat := 128
  delta : Nat := 0
  bias : Nat := 72
  done : Nat
  first : Bool := true
  out : List Char := []

/-- Passes one letter of the label, and writes the difference if it is the letter in turn. -/
def Writer.step (w : Writer) (c : Nat) : Writer :=
  if c < w.next then { w with delta := w.delta + 1 }
  else if c = w.next then
    { w with
      out := w.out ++ writeNumber (w.delta + 1) w.delta 36 w.bias
      bias := adapt w.delta (w.done + 1) w.first
      first := false, delta := 0, done := w.done + 1 }
  else w

def writeFrom (label : List Nat) : Nat → Writer → List Char
  | 0, w => w.out
  | fuel + 1, w =>
    match (label.filter (w.next ≤ ·)).min? with
    | none => w.out
    | some least =>
      let w := { w with delta := w.delta + (least - w.next) * (w.done + 1), next := least }
      let w := label.foldl Writer.step w
      writeFrom label fuel { w with delta := w.delta + 1, next := w.next + 1 }

def encode (label : List Char) : List Char :=
  let basic := label.filter (·.toNat < 128)
  let start := if basic.isEmpty then [] else basic ++ ['-']
  start ++ writeFrom (label.map Char.toNat) label.length { done := basic.length }

def readNumber : List Char → Nat → Nat → Nat → Nat → Option (Nat × List Char)
  | [], _, _, _, _ => none
  | c :: cs, n, weight, k, bias => do
    let v ← value? c
    let t := threshold k bias
    let n := n + v * weight
    if v < t then some (n, cs) else readNumber cs n (weight * (36 - t)) (k + 36) bias

/-- Puts letters into `out` as long as there are digits. -/
def readFrom : Nat → List Char → Nat → Nat → Nat → Bool → List Char → Option (List Char)
  | 0, _, _, _, _, _, out => some out
  | _, [], _, _, _, _, out => some out
  | fuel + 1, c :: cs, letter, place, bias, first, out => do
    let (delta, rest) ← readNumber (c :: cs) 0 1 36 bias
    let place := place + delta
    let count := out.length + 1
    let letter := letter + place / count
    let place := place % count
    if letter ≤ 0x10ffff then
      readFrom fuel rest letter (place + 1) (adapt delta count first) false
        (out.take place ++ Char.ofNat letter :: out.drop place)
    else none

def decode? (cs : List Char) : Option (List Char) :=
  let tail := (cs.reverse.takeWhile (· != '-')).reverse
  let basic := if tail.length = cs.length then [] else cs.take (cs.length - tail.length - 1)
  if basic.all (·.toNat < 128) then readFrom (tail.length + 1) tail 128 0 72 true basic else none

end Hyperstory.Url.Punycode
