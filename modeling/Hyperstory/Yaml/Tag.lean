import Hyperstory.Text.Blank

/-! The kinds of scalars, and how a plain scalar shows its kind. -/
namespace Hyperstory.Yaml

/-- What a node stands for. -/
inductive Tag where
  | null
  | bool
  | int
  | float
  | binary
  | timestamp
  | ordered
  | pairs
  | set
  | str
  | seq
  | map
  /-- A key that merges other mappings into its own. -/
  | merge
  /-- A key that stands for the mapping itself. -/
  | value
  /-- A tag that no value has. -/
  | unknown
  deriving DecidableEq, Repr, Inhabited

namespace Tag

def names : List (String × Tag) := [
  ("null", null), ("bool", bool), ("int", int), ("float", float), ("binary", binary),
  ("timestamp", timestamp), ("omap", ordered), ("pairs", pairs), ("set", set), ("str", str),
  ("seq", seq), ("map", map), ("merge", merge), ("value", value)]

/-- What stands before the names of tags. -/
def space : String := "tag:yaml.org,2002:"

def ofName (name : String) : Tag :=
  if space.toList.isPrefixOf name.toList then
    (names.lookup (String.ofList (name.toList.drop space.length))).getD unknown
  else unknown

/-! ### Plain scalars -/

def isDigitOrBar (c : Char) : Bool := c.isDigit || c == '_'

def unsigned (cs : List Char) : List Char :=
  match cs with
  | '-' :: rest | '+' :: rest => rest
  | _ => cs

/-- One or more parts of a number in base sixty, each behind a colon, and what follows them. -/
def sixties : List Char → List Char
  | ':' :: a :: b :: rest =>
    if a.isDigit && a ≤ '5' && b.isDigit then sixties rest
    else if a.isDigit then sixties (b :: rest)
    else ':' :: a :: b :: rest
  | [':', a] => if a.isDigit then [] else [':', a]
  | cs => cs

/-- A decimal number that does not begin with zero, and may go on in base sixty. -/
def isSixty (cs : List Char) : Bool :=
  match cs with
  | c :: rest =>
    '1' ≤ c && c ≤ '9' && (sixties (rest.dropWhile isDigitOrBar)).isEmpty
  | [] => false

def isInt (cs : List Char) : Bool :=
  let cs := unsigned cs
  match cs with
  | '0' :: 'b' :: rest => !rest.isEmpty && rest.all fun c => c == '0' || c == '1' || c == '_'
  | '0' :: 'x' :: rest =>
    !rest.isEmpty && rest.all fun c => isDigitOrBar c || ('a' ≤ c && c ≤ 'f') || ('A' ≤ c && c ≤ 'F')
  | '0' :: rest => rest.all fun c => ('0' ≤ c && c ≤ '7') || c == '_'
  | _ => isSixty cs

def isExponent (cs : List Char) : Bool :=
  match cs with
  | [] => true
  | e :: s :: digits =>
    (e == 'e' || e == 'E') && (s == '-' || s == '+') && !digits.isEmpty && digits.all Char.isDigit
  | _ => false

def isDecimal (cs : List Char) : Bool :=
  match cs with
  | '.' :: d :: rest => d.isDigit && isExponent (rest.dropWhile isDigitOrBar)
  | _ =>
    match unsigned cs with
    | d :: rest =>
      match rest.dropWhile isDigitOrBar with
      | '.' :: tail => d.isDigit && isExponent (tail.dropWhile isDigitOrBar)
      | _ => false
    | [] => false

def isSixtyDecimal (cs : List Char) : Bool :=
  match unsigned cs with
  | d :: rest =>
    match rest.dropWhile isDigitOrBar with
    | ':' :: tail =>
      match sixties (':' :: tail) with
      | '.' :: fraction => d.isDigit && fraction.all isDigitOrBar
      | _ => false
    | _ => false
  | [] => false

def isFloat (cs : List Char) : Bool :=
  isDecimal cs || isSixtyDecimal cs ||
    [".inf", ".Inf", ".INF"].contains (String.ofList (unsigned cs)) ||
    [".nan", ".NaN", ".NAN"].contains (String.ofList cs)

def isBool (s : String) : Bool :=
  ["yes", "Yes", "YES", "no", "No", "NO", "true", "True", "TRUE", "false", "False", "FALSE", "on",
    "On", "ON", "off", "Off", "OFF"].contains s

def isNull (s : String) : Bool := ["", "~", "null", "Null", "NULL"].contains s

def oneOrTwo? (cs : List Char) : Option (List Char × List Char) :=
  match cs with
  | a :: b :: rest =>
    if a.isDigit then if b.isDigit then some ([a, b], rest) else some ([a], b :: rest) else none
  | [a] => if a.isDigit then some ([a], []) else none
  | [] => none

def two? (cs : List Char) : Option (List Char × List Char) :=
  match cs with
  | a :: b :: rest => if a.isDigit && b.isDigit then some ([a, b], rest) else none
  | _ => none

def expect? (c : Char) (cs : List Char) : Option (List Char) :=
  match cs with
  | d :: rest => if d == c then some rest else none
  | [] => none

structure Written where
  year : List Char
  month : List Char
  day : List Char
  time : Option (List Char × List Char × List Char × List Char) := none
  utc : Bool := false
  offset : Option (Char × List Char × List Char) := none

/-- Splits the offset of a timestamp off; nothing follows it. -/
def offset? (w : Written) (cs : List Char) : Option Written :=
  match cs.dropWhile fun c => c == ' ' || c == '\t' with
  | [] => if cs.isEmpty then some w else none
  | ['Z'] => some { w with utc := true }
  | s :: rest =>
    if s == '-' || s == '+' then do
      let (h, rest) ← oneOrTwo? rest
      if rest.isEmpty then some { w with offset := some (s, h, []) }
      else
        let rest ← expect? ':' rest
        let (m, rest) ← two? rest
        if rest.isEmpty then some { w with offset := some (s, h, m) } else none
    else none

def time? (w : Written) (cs : List Char) : Option Written := do
  let (hour, cs) ← oneOrTwo? cs
  let cs ← expect? ':' cs
  let (minute, cs) ← two? cs
  let cs ← expect? ':' cs
  let (second, cs) ← two? cs
  let (fraction, cs) := match cs with
    | '.' :: rest => (rest.takeWhile Char.isDigit, rest.dropWhile Char.isDigit)
    | _ => ([], cs)
  offset? { w with time := some (hour, minute, second, fraction) } cs

def withoutLineEnd (cs : List Char) : List Char := if cs.getLast? == some '\n' then cs.dropLast else cs

def written? (cs : List Char) : Option Written :=
  let year := cs.take 4
  if year.length = 4 && year.all Char.isDigit then do
    let rest ← expect? '-' (cs.drop 4)
    let (month, rest) ← oneOrTwo? rest
    let rest ← expect? '-' rest
    let (day, rest) ← oneOrTwo? rest
    let w : Written := { year, month, day }
    match rest with
    | [] => some w
    | c :: tail =>
      if c == 'T' || c == 't' then time? w tail
      else if c == ' ' || c == '\t' then time? w (tail.dropWhile fun c => c == ' ' || c == '\t')
      else none
  else none

/-- A timestamp. A date alone has two digits for month and day. -/
def isTimestamp (cs : List Char) : Bool :=
  match written? cs with
  | some w => w.time.isSome || (w.month.length = 2 && w.day.length = 2)
  | none => false

/-- The kind that a plain scalar shows. A line may end behind anything but nothing. -/
def ofPlain (text : List Char) : Tag :=
  let cs := if text == ['\n'] then text else withoutLineEnd text
  let s := String.ofList cs
  if isBool s then bool
  else if isFloat cs then float
  else if isInt cs then int
  else if s == "<<" then merge
  else if isNull s then null
  else if isTimestamp cs then timestamp
  else if s == "=" then value
  else if ["!", "&", "*"].contains s then unknown
  else str

end Tag

end Hyperstory.Yaml
