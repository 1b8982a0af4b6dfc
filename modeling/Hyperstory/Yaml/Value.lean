import Hyperstory.Decimal.Shortest
import Hyperstory.Text.Half
import Hyperstory.Text.Quoted
import Hyperstory.Yaml.Base64
import Hyperstory.Yaml.Node
import Hyperstory.Yaml.Number
import Hyperstory.Yaml.Slots
import Hyperstory.Yaml.Timestamp

/-! The values of a YAML document. -/
namespace Hyperstory.Yaml

/-- A value without parts, which can be a key. -/
inductive Atom where
  | null
  | bool (b : Bool)
  | int (n : Int)
  | float (x : Float)
  /-- No number. One that is written out in another way than the others is known by its node. -/
  | nan (node : Option NodeId)
  | text (s : String)
  | bytes (bs : List UInt8)
  | time (t : Timestamp)
  deriving Inhabited

/-- A value. Its parts are named by the nodes they come from. -/
inductive Value where
  | atom (a : Atom)
  | list (items : List NodeId)
  | pairs (entries : List (NodeId × NodeId))
  | mapping (entries : List (Atom × NodeId))
  | set (keys : List Atom)
  deriving Inhabited

namespace Atom

def wholeOf? (x : Float) : Option Int :=
  if x.isNaN || x.isInf then none
  else
    let bits := x.toBits.toNat
    let b := Decimal.Binary.ofBits (bits % Nat.pow 2 63)
    let down := Nat.pow 2 (-b.exponent).toNat
    if b.mantissa % down = 0 then
      let n : Int := b.mantissa / down * Nat.pow 2 b.exponent.toNat
      some (if Nat.pow 2 63 ≤ bits then -n else n)
    else none

def whole? : Atom → Option Int
  | bool b => some (if b then 1 else 0)
  | int n => some n
  | float x => wholeOf? x
  | _ => none

/-- Two keys are the same. Numbers are compared by value, and truth values count as numbers. -/
def same (a b : Atom) : Bool :=
  match a.whole?, b.whole? with
  | some m, some n => m == n
  | none, none =>
    match a, b with
    | null, null => true
    | float x, float y => x == y
    | nan i, nan j => i == j
    | text s, text t => s == t
    | bytes s, bytes t => s == t
    | time s, time t => s.same t
    | _, _ => false
  | _, _ => false

def byteText (quote : Char) (b : UInt8) : String :=
  let c := Char.ofNat b.toNat
  if c == quote || c == '\\' then "\\" ++ String.singleton c
  else if c == '\t' then "\\t"
  else if c == '\n' then "\\n"
  else if c == '\r' then "\\r"
  else if 0x20 ≤ b && b < 0x7f then String.singleton c
  else "\\x" ++ String.ofList (Text.hexDigits 2 b.toNat)

def bytesText (bs : List UInt8) : String :=
  let quote := if bs.contains 0x27 && !bs.contains 0x22 then '"' else '\''
  "b" ++ String.singleton quote ++ String.join (bs.map (byteText quote)) ++ String.singleton quote

def arguments (l : List String) : String := "(" ++ ", ".intercalate l ++ ")"

def dateNumbers (d : Date) : List String := [toString d.year, toString d.month, toString d.day]

/-- A difference of time in days and seconds, where the days may be negative. -/
def offsetText (minutes : Int) : String :=
  if minutes = 0 then "datetime.timezone.utc"
  else
    let seconds := minutes * 60
    let days := seconds.fdiv 86400
    let rest := seconds.fmod 86400
    let parts := (if days = 0 then [] else ["days=" ++ toString days]) ++
      (if rest = 0 then [] else ["seconds=" ++ toString rest])
    "datetime.timezone(datetime.timedelta" ++ arguments parts ++ ")"

/-- The numbers of a moment; seconds and their fraction are left out where they are zero. -/
def momentNumbers (m : Moment) : List String :=
  dateNumbers m.date ++ [toString m.hour, toString m.minute] ++
    (if m.second = 0 && m.micro = 0 then []
      else if m.micro = 0 then [toString m.second]
      else [toString m.second, toString m.micro]) ++
    (match m.offset with
      | none => []
      | some o => ["tzinfo=" ++ offsetText o])

/-- A whole number as it is shown, unless it has too many digits. -/
def intText (n : Int) : Read String :=
  if n.natAbs < Nat.pow 10 maxDigits then .ok (toString n) else .error .number

def shown : Atom → Read String
  | null => .ok "None"
  | bool b => .ok (if b then "True" else "False")
  | int n => intText n
  | float x => .ok (Decimal.text x)
  | nan _ => .ok "nan"
  | text s => .ok (Text.quotedBy Text.Half.code s)
  | bytes bs => .ok (bytesText bs)
  | time (.date d) => .ok ("datetime.date" ++ arguments (dateNumbers d))
  | time (.moment m) => .ok ("datetime.datetime" ++ arguments (momentNumbers m))

def padded (width n : Nat) : String :=
  let s := toString n
  String.ofList (List.replicate (width - s.length) '0') ++ s

def offsetSuffix (minutes : Int) : String :=
  (if minutes < 0 then "-" else "+") ++ padded 2 (minutes.natAbs / 60) ++ ":" ++
    padded 2 (minutes.natAbs % 60)

def dateText (d : Date) : String :=
  padded 4 d.year ++ "-" ++ padded 2 d.month ++ "-" ++ padded 2 d.day

/-- The text by which keys are ordered: a text is its own, other values are written out. -/
def sortText : Atom → Read String
  | text s => .ok s
  | time (.date d) => .ok (dateText d)
  | time (.moment m) =>
    .ok (dateText m.date ++ " " ++ padded 2 m.hour ++ ":" ++ padded 2 m.minute ++ ":" ++
      padded 2 m.second ++ (if m.micro = 0 then "" else "." ++ padded 6 m.micro) ++
      ((m.offset.map offsetSuffix).getD ""))
  | a => a.shown

def code? : Atom → Option Nat
  | bool b => some (if b then 1 else 0)
  | int n => some (Slots.ofInt n)
  | float x => some (Slots.ofFloat x)
  | _ => none

/-- The keys of a set as they are shown: numbers by their slots, others in the order in which they are
given. -/
def inSetOrder (keys : List Atom) : List Atom :=
  match keys.mapM fun k => k.code?.map (·, k) with
  | some members => Slots.inOrder members
  | none => keys

end Atom

/-- Values by the nodes they come from, and the value of the whole document. -/
structure Data where
  values : Array (Option Value)
  root : NodeId

namespace Data

def value (d : Data) (i : NodeId) : Value := ((d.values.getD i none).getD (.atom .null))

/-- A value as it is shown in messages, inside of the values in `around`; one that holds itself is
shown with dots. At most `n` levels are shown. -/
def shownIn (d : Data) : Nat → List NodeId → NodeId → Read String
  | 0, _, _ => .ok "..."
  | n + 1, around, i =>
    let inner := d.shownIn n (i :: around)
    let listed (items : List (Read String)) (first last : String) : Read String := do
      let texts ← items.mapM id
      .ok (first ++ ", ".intercalate texts ++ last)
    match d.value i with
    | .atom a => a.shown
    | .list items => if around.contains i then .ok "[...]" else listed (items.map inner) "[" "]"
    | .pairs entries =>
      if around.contains i then .ok "[...]"
      else listed (entries.map fun (k, v) => listed [inner k, inner v] "(" ")") "[" "]"
    | .mapping entries =>
      if around.contains i then .ok "\x7b...\x7d"
      else
        let entry (k : Atom) (v : NodeId) : Read String := do
          let key ← k.shown
          let value ← inner v
          .ok (key ++ ": " ++ value)
        listed (entries.map fun (k, v) => entry k v) "\x7b" "\x7d"
    | .set keys =>
      if keys.isEmpty then .ok "set()"
      else listed ((Atom.inSetOrder keys).map Atom.shown) "\x7b" "\x7d"

def shown (d : Data) (i : NodeId) : Read String := d.shownIn (d.values.size + 2) [] i

def text? (d : Data) (i : NodeId) : Option String :=
  match d.value i with
  | .atom (.text s) => some s
  | _ => none

/-- The texts that a list holds, if it holds nothing else. -/
def texts? (d : Data) (i : NodeId) : Option (List String) :=
  match d.value i with
  | .list items => items.mapM d.text?
  | .pairs [] => some []
  | _ => none

def entry? (d : Data) (key : String) : Option NodeId :=
  match d.value d.root with
  | .mapping entries => (entries.find? fun (k, _) => k.same (.text key)).map (·.2)
  | _ => none

end Data

/-! ### Values of nodes -/

/-- A document whose values are being found: the nodes whose parts are still missing stand in a
queue. -/
structure Builder where
  graph : Graph
  values : Array (Option Value)
  queue : List NodeId := []

namespace Builder

def set (b : Builder) (i : NodeId) (v : Value) : Builder :=
  { b with values := b.values.setIfInBounds i (some v) }

/-- The text of a scalar node. A mapping may name its own text, but not by itself. -/
def scalarText (g : Graph) : Nat → NodeId → Read (List Char)
  | 0, _ => .error .endless
  | n + 1, i =>
    match (g.node i).content with
    | .scalar text => .ok text
    | .mapping entries =>
      match entries.find? fun (k, _) => (g.node k).tag = .value with
      | some (_, v) => scalarText g n v
      | none => .error .malformed
    | .sequence _ => .error .malformed

def flag (text : List Char) : Read Bool :=
  match String.ofList (text.map Char.toLower) with
  | "yes" | "true" | "on" => .ok true
  | "no" | "false" | "off" => .ok false
  | _ => .error .flag

def number (i : NodeId) (text : List Char) : Read Atom := do
  let x ← Number.float text
  .ok (if x.isNaN then .nan (if Number.isPlainNan text then none else some i) else .float x)

def atom (g : Graph) (i : NodeId) (text : List Char) : Read Atom :=
  match (g.node i).tag, (g.node i).content with
  | .null, _ => .ok .null
  | .bool, _ => (flag text).map .bool
  | .int, _ => (Number.int text).map .int
  | .float, _ => number i text
  | .binary, _ => (Base64.decode text).map .bytes
  | .timestamp, .scalar _ => (Timestamp.ofText text).map .time
  | .timestamp, _ => .error .timeless
  | .str, _ => .ok (.text (String.ofList text))
  | _, _ => .error .malformed

/-- A value without parts has them later. -/
def hollow? (tag : Tag) : Option Value :=
  match tag with
  | .seq => some (.list [])
  | .map => some (.mapping [])
  | .set => some (.set [])
  | .ordered | .pairs => some (.pairs [])
  | _ => none

def visit (b : Builder) (i : NodeId) : Read Builder :=
  if (b.values.getD i none).isSome then .ok b
  else
    match hollow? (b.graph.node i).tag with
    | some v => .ok { b.set i v with queue := b.queue ++ [i] }
    | none => do
      let text ← scalarText b.graph (b.graph.nodes.size + 1) i
      let a ← atom b.graph i text
      .ok (b.set i (.atom a))

def key (b : Builder) (i : NodeId) : Read Atom :=
  match b.values.getD i none with
  | some (.atom a) => .ok a
  | _ => .error .malformed

def entries (g : Graph) (i : NodeId) : Option (List (NodeId × NodeId)) :=
  match (g.node i).content with
  | .mapping es => some es
  | _ => none

def setEntries (g : Graph) (i : NodeId) (es : List (NodeId × NodeId)) : Graph :=
  g.modify i fun n => { n with content := .mapping es }

mutual

/-- Merges into a mapping what its merge keys name, from the entry at `place` on; `merged` are the
entries that come before its own. -/
def merge : Nat → Graph → NodeId → Nat → List (NodeId × NodeId) → Read Graph
  | 0, _, _, _, _ => .error .malformed
  | n + 1, g, i, place, merged =>
    let es := (entries g i).getD []
    match es[place]? with
    | none => .ok (if merged.isEmpty then g else setEntries g i (merged ++ es))
    | some (k, v) =>
      match (g.node k).tag with
      | .merge => do
        let g := setEntries g i (es.eraseIdx place)
        match (g.node v).content with
        | .mapping _ => do
          let g ← merge n g v 0 []
          merge n g i place (merged ++ (entries g v).getD [])
        | .sequence items => do
          let (g, more) ← mergeAll n g items
          merge n g i place (merged ++ more)
        | .scalar _ => .error .malformed
      | .value => merge n (g.modify k fun m => { m with tag := .str }) i (place + 1) merged
      | _ => merge n g i (place + 1) merged

/-- The entries of several mappings, those of later ones first. -/
def mergeAll : Nat → Graph → List NodeId → Read (Graph × List (NodeId × NodeId))
  | 0, _, _ => .error .malformed
  | _ + 1, g, [] => .ok (g, [])
  | n + 1, g, i :: rest =>
    match (g.node i).content with
    | .mapping _ => do
      let g ← merge n g i 0 []
      let es := (entries g i).getD []
      let (g, more) ← mergeAll n g rest
      .ok (g, more ++ es)
    | _ => .error .malformed

end

/-- Adds an entry; a key that is there already keeps its place. -/
def insertEntry (k : Atom) (v : NodeId) : List (Atom × NodeId) → List (Atom × NodeId)
  | [] => [(k, v)]
  | (k', v') :: rest => if k'.same k then (k', v) :: rest else (k', v') :: insertEntry k v rest

def visitEntries (b : Builder) (found : List (Atom × NodeId)) :
    List (NodeId × NodeId) → Read (Builder × List (Atom × NodeId))
  | [] => .ok (b, found)
  | (k, v) :: rest => do
    let b ← b.visit k
    let a ← b.key k
    let b ← b.visit v
    b.visitEntries (insertEntry a v found) rest

def fillMapping (b : Builder) (i : NodeId) : Read (Builder × List (Atom × NodeId)) := do
  match (b.graph.node i).content with
  | .mapping _ => do
    let size := b.graph.nodes.size
    let g ← merge (1000 + 20 * size * size) b.graph i 0 []
    visitEntries { b with graph := g } [] ((entries g i).getD [])
  | _ => .error .malformed

def fillPairs (b : Builder) (found : List (NodeId × NodeId)) :
    List NodeId → Read (Builder × List (NodeId × NodeId))
  | [] => .ok (b, found)
  | j :: rest =>
    match (b.graph.node j).content with
    | .mapping [(k, v)] => do
      let b ← b.visit k
      let b ← b.visit v
      b.fillPairs (found ++ [(k, v)]) rest
    | _ => .error .malformed

def fill (b : Builder) (i : NodeId) : Read Builder := do
  let n := b.graph.node i
  match n.tag, n.content with
  | .seq, .sequence items => do
    let b ← items.foldlM visit b
    .ok (b.set i (.list items))
  | .map, _ => do
    let (b, es) ← b.fillMapping i
    .ok (b.set i (.mapping es))
  | .set, _ => do
    let (b, es) ← b.fillMapping i
    .ok (b.set i (.set (es.map (·.1))))
  | .ordered, .sequence items => do
    let (b, es) ← b.fillPairs [] items
    .ok (b.set i (.pairs es))
  | .pairs, .sequence items => do
    let (b, es) ← b.fillPairs [] items
    .ok (b.set i (.pairs es))
  | _, _ => .error .malformed

/-- Finds the parts of the collections in the queue, the first one first; at most `n`. -/
def run : Nat → Builder → Read Builder
  | 0, b => .ok b
  | n + 1, b =>
    match b.queue with
    | [] => .ok b
    | i :: rest => do
      let b ← { b with queue := rest }.fill i
      run n b

end Builder

/-- The value of a source; an empty one has none. -/
def load (s : Source) : Read (Option Data) := do
  match ← document (scan s) with
  | none => .ok none
  | some (g, root) => do
    let b : Builder := { graph := g, values := Array.replicate g.nodes.size none }
    let b ← b.visit root
    let b ← Builder.run (g.nodes.size + 1) b
    .ok (some { values := b.values, root })

end Hyperstory.Yaml
