import Hyperstory.Text.Entity
import Hyperstory.Yaml.Tag
import Hyperstory.Yaml.Token

/-! Dates and times. -/
namespace Hyperstory.Yaml

structure Date where
  year : Nat
  month : Nat
  day : Nat
  deriving DecidableEq, Repr

/-- A time of a day, and how many minutes it is ahead of universal time if that is known. -/
structure Moment where
  date : Date
  hour : Nat
  minute : Nat
  second : Nat
  micro : Nat
  offset : Option Int
  deriving DecidableEq, Repr

/-- Every fourth year is a leap year, but of full centuries only every fourth. -/
def isLeap (year : Nat) : Bool := year % 4 == 0 && (year % 100 != 0 || year % 400 == 0)

def daysIn (year month : Nat) : Nat :=
  if month == 2 then if isLeap year then 29 else 28
  else if [4, 6, 9, 11].contains month then 30 else 31

namespace Date

def isValid (d : Date) : Bool :=
  1 ≤ d.year && 1 ≤ d.month && d.month ≤ 12 && 1 ≤ d.day && d.day ≤ daysIn d.year d.month

/-- How many days lie between the beginning of a calendar without gaps and a day. -/
def ordinal (d : Date) : Nat :=
  let years := d.year - 1
  let months := (List.range (d.month - 1)).foldl (fun n m => n + daysIn d.year (m + 1)) 0
  365 * years + years / 4 - years / 100 + years / 400 + months + d.day

end Date

namespace Moment

/-- The seconds from the beginning of the calendar up to a moment, as its own clock shows it. -/
def seconds (m : Moment) : Int := ((m.date.ordinal * 24 + m.hour) * 60 + m.minute) * 60 + m.second

/-- Two moments are the same. Where the offset of both is known, they are compared in universal
time. -/
def same (a b : Moment) : Bool :=
  match a.offset, b.offset with
  | some o, some p => a.seconds - 60 * o == b.seconds - 60 * p && a.micro == b.micro
  | none, none => a == b
  | _, _ => false

def isValid (m : Moment) : Bool :=
  m.date.isValid && m.hour ≤ 23 && m.minute ≤ 59 && m.second ≤ 59 &&
    (m.offset.map fun o => decide (-1440 < o) && decide (o < 1440)).getD true

end Moment

inductive Timestamp where
  | date (d : Date)
  | moment (m : Moment)
  deriving DecidableEq, Repr

namespace Timestamp

def same : Timestamp → Timestamp → Bool
  | date a, date b => a == b
  | moment a, moment b => a.same b
  | _, _ => false

def number (cs : List Char) : Nat := Text.Entity.number 10 cs

/-- The millionths of a second that the first six digits of a fraction write. -/
def micro (fraction : List Char) : Nat := number ((fraction ++ List.replicate 6 '0').take 6)

def minutes (w : Tag.Written) : Option Int :=
  match w.offset with
  | some (sign, h, m) =>
    let n : Int := number h * 60 + number m
    some (if sign == '-' then -n else n)
  | none => if w.utc then some 0 else none

/-- The timestamp that a text writes; a line may end behind it. -/
def ofText (cs : List Char) : Read Timestamp :=
  match Tag.written? (Tag.withoutLineEnd cs) with
  | none => .error .timestamp
  | some w =>
    let d : Date := ⟨number w.year, number w.month, number w.day⟩
    match w.time with
    | none => if d.isValid then .ok (.date d) else .error .date
    | some (h, m, s, f) =>
      let t : Moment := ⟨d, number h, number m, number s, micro f, minutes w⟩
      if t.isValid then .ok (.moment t) else .error .date

end Timestamp

end Hyperstory.Yaml
