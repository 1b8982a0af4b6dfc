import Hyperstory.Decimal.Shortest

/-! The order of a set of numbers: each stands in a table, at a slot that its value tells. -/
namespace Hyperstory.Yaml.Slots

/-- The prime by which numbers have residues. -/
def modulus : Nat := Nat.pow 2 61 - 1

/-- The code of a number, as a word of 64 bits, by the residue of its magnitude. The code of minus one
is that of minus two. -/
def code (negative : Bool) (residue : Nat) : Nat :=
  if negative && residue ≠ 0 then Nat.pow 2 64 - max residue 2 else residue

def ofInt (n : Int) : Nat := code (n < 0) (n.natAbs % modulus)

/-- The code of a floating-point number. Powers of two have the residues of their exponents, because
two to the power of 61 has the residue one. -/
def ofFloat (x : Float) : Nat :=
  let bits := x.toBits.toNat
  let negative := Nat.pow 2 63 ≤ bits
  if x.isInf then code negative 314159
  else
    let b := Decimal.Binary.ofBits (bits % Nat.pow 2 63)
    code negative (b.mantissa * Nat.pow 2 (b.exponent % 61).toNat % modulus)

variable {α : Type}

def size (n : Nat) : Nat := if n < 5 then 8 else Nat.nextPowerOfTwo (2 * n + 1)

def free? (table : Array (Option α)) (i n : Nat) : Option Nat :=
  ((List.range n).map (i + ·)).find? fun j => (table.getD j none).isNone

/-- The free slot for a member. Ten neighbours are tried where there are as many, and then other slots,
which depend on what is left of the code. At most `n` of them are tried. -/
def slot (table : Array (Option α)) : Nat → Nat → Nat → Nat
  | 0, i, _ => i
  | n + 1, i, code =>
    match free? table i (if i + 10 ≤ table.size then 10 else 1) with
    | some j => j
    | none => slot table n ((5 * i + 1 + code / 32) % table.size) (code / 32)

def put (table : Array (Option α)) (code : Nat) (a : α) : Array (Option α) :=
  table.setIfInBounds (slot table (table.size + 13) (code % table.size) code) (some a)

def inOrder (members : List (Nat × α)) : List α :=
  let table := members.foldl (fun t (c, a) => put t c a)
    (Array.replicate (size members.length) none)
  table.toList.filterMap id

end Hyperstory.Yaml.Slots
