import Hyperstory.Yaml.Scalar
import Hyperstory.Yaml.Source

/-! The tokens of a YAML text. -/
namespace Hyperstory.Yaml

/-- A place where a key may have begun. -/
structure KeyStart where
  /-- The number of tokens before it. -/
  token : Nat
  /-- The block around it needs a key here. -/
  required : Bool
  index : Nat
  line : Nat
  column : Nat

/-- A scan: the place, the tokens so far, and what they leave open. -/
structure Scanner where
  cursor : Cursor
  tokens : Array Token := #[]
  /-- How many brackets are open. -/
  flow : Nat := 0
  indent : Int := -1
  indents : List Int := []
  keyAllowed : Bool := true
  /-- Where a key may have begun, by the number of brackets around it. -/
  keys : List (Nat × KeyStart) := []

namespace Scanner

def push (s : Scanner) (t : Token) : Scanner := { s with tokens := s.tokens.push t }

def insert (s : Scanner) (i : Nat) (t : Token) : Scanner :=
  { s with tokens := (s.tokens.extract 0 i).push t ++ s.tokens.extract i s.tokens.size }

def moveTo (s : Scanner) (c : Cursor) : Scanner := { s with cursor := c }

/-- Skips blanks, comments and line ends before a token; a line end allows a key in a block. -/
def skipGap : Nat → Scanner → Scanner
  | 0, s => s
  | n + 1, s =>
    let c := s.cursor.skipWhile (· == ' ')
    let c := if c.head? == some '#' then c.skipWhile (!isBreak ·) else c
    if c.atBreak then
      skipGap n { s with
        cursor := c.lineBreak.2
        keyAllowed := if s.flow = 0 then true else s.keyAllowed }
    else s.moveTo c

/-- Forgets a place where a key may have begun; no required key may be missing. -/
def dropKeys (s : Scanner) (gone : Nat × KeyStart → Bool) : Read Scanner :=
  if s.keys.any fun k => gone k && k.2.required then .error .malformed
  else .ok { s with keys := s.keys.filter (!gone ·) }

/-- Keys stand on one line and have at most 1024 characters. -/
def isStale (s : Scanner) (k : KeyStart) : Bool :=
  k.line ≠ s.cursor.line || 1024 < s.cursor.index - k.index

/-- Forgets where keys may have begun that would be too long. -/
def dropStaleKeys (s : Scanner) : Read Scanner := s.dropKeys fun (_, k) => s.isStale k

def dropKey (s : Scanner) : Read Scanner := s.dropKeys fun (level, _) => level = s.flow

def saveKey (s : Scanner) : Read Scanner :=
  if s.keyAllowed then do
    let s ← s.dropKey
    let c := s.cursor
    let start : KeyStart :=
      { token := s.tokens.size, required := s.flow = 0 && s.indent = c.column
        index := c.index, line := c.line, column := c.column }
    .ok { s with keys := (s.flow, start) :: s.keys }
  else .ok s

def closeBlocks (column : Int) : List Int → Scanner → Scanner
  | [], s => s
  | outer :: rest, s =>
    if column < s.indent then
      closeBlocks column rest ({ s with indent := outer, indents := rest }.push .blockEnd)
    else s

/-- Closes the blocks that are indented more than `column`; inside of brackets there are none. -/
def unwind (s : Scanner) (column : Int) : Scanner :=
  if s.flow = 0 then closeBlocks column s.indents s else s

/-- Opens a block at a column, if it is indented more than the one around it. -/
def openBlock (s : Scanner) (column : Nat) : Option Scanner :=
  if s.indent < column then some { s with indent := column, indents := s.indent :: s.indents }
  else none

/-- Opens a block with a token, which comes before the tokens from number `i` on. -/
def openBlockAt (s : Scanner) (column i : Nat) (t : Token) : Scanner :=
  match s.openBlock column with
  | some s => s.insert i t
  | none => s

def indicator (s : Scanner) (n : Nat) (t : Token) : Scanner :=
  (s.moveTo (s.cursor.skip n)).push t

def separator (s : Scanner) (t : Token) : Read Scanner := do
  let s ← (s.unwind (-1)).dropKey
  .ok ({ s with keyAllowed := false }.indicator 3 t)

def openBracket (s : Scanner) (t : Token) : Read Scanner := do
  let s ← s.saveKey
  .ok ({ s with flow := s.flow + 1, keyAllowed := true }.indicator 1 t)

def closeBracket (s : Scanner) (t : Token) : Read Scanner := do
  let s ← s.dropKey
  if s.flow = 0 then .error .malformed
  else .ok ({ s with flow := s.flow - 1, keyAllowed := false }.indicator 1 t)

/-- An indicator that opens a block of its own where it stands first on a line. -/
def blockIndicator (s : Scanner) (start t : Token) : Read Scanner :=
  if s.flow = 0 && !s.keyAllowed then .error .malformed
  else do
    let s := if s.flow = 0 then s.openBlockAt s.cursor.column s.tokens.size start else s
    let s ← { s with keyAllowed := t == Token.entry || s.flow = 0 }.dropKey
    .ok (s.indicator 1 t)

/-- The indicator of a value: what may have begun a key did so. -/
def valueIndicator (s : Scanner) : Read Scanner :=
  match s.keys.lookup s.flow with
  | some k =>
    let s := { s with keys := s.keys.filter (·.1 ≠ s.flow), keyAllowed := false }.insert k.token .key
    let s := if s.flow = 0 then s.openBlockAt k.column k.token .mappingStart else s
    .ok (s.indicator 1 .value)
  | none => s.blockIndicator .mappingStart .value

def mayBeKey (s : Scanner) (read : Cursor → Read (Token × Cursor)) : Read Scanner := do
  let s ← s.saveKey
  let (t, c) ← read s.cursor
  .ok (({ s with keyAllowed := false }.moveTo c).push t)

def atPlain (s : Scanner) (ch : Char) : Bool :=
  !(isBlank ch || isBreak ch || "-?:,[]\x7b\x7d#&*!|>'\"%@\x60".toList.contains ch) ||
    (!endsWord (s.cursor.peek 1) &&
      (ch == '-' || (s.flow = 0 && (ch == '?' || ch == ':'))))

def token (s : Scanner) (ch : Char) : Read Scanner :=
  let c := s.cursor
  let first := c.column = 0
  let bare := endsWord (c.peek 1)
  if ch == '%' && first then do
    let s ← (s.unwind (-1)).dropKey
    let (t, c) ← s.cursor.directive
    .ok (({ s with keyAllowed := false }.moveTo c).push t)
  else if first && c.atMark "---" then s.separator .documentStart
  else if first && c.atMark "..." then s.separator .documentEnd
  else if ch == '[' then s.openBracket .listOpen
  else if ch == '\x7b' then s.openBracket .mapOpen
  else if ch == ']' then s.closeBracket .listClose
  else if ch == '\x7d' then s.closeBracket .mapClose
  else if ch == ',' then do
    let s ← s.dropKey
    .ok ({ s with keyAllowed := true }.indicator 1 .comma)
  else if ch == '-' && bare then s.blockIndicator .sequenceStart .entry
  else if ch == '?' && (s.flow ≠ 0 || bare) then s.blockIndicator .mappingStart .key
  else if ch == ':' && (s.flow ≠ 0 || bare) then s.valueIndicator
  else if ch == '*' then
    s.mayBeKey fun c => do
      let (n, c) ← c.anchorName
      .ok (.alias n, c)
  else if ch == '&' then
    s.mayBeKey fun c => do
      let (n, c) ← c.anchorName
      .ok (.anchor n, c)
  else if ch == '!' then s.mayBeKey Cursor.tag
  else if (ch == '|' || ch == '>') && s.flow = 0 then do
    let s ← s.dropKey
    let (t, c) ← s.cursor.blockScalar s.indent
    .ok (({ s with keyAllowed := true }.moveTo c).push t)
  else if ch == '\'' || ch == '"' then s.mayBeKey Cursor.quoted
  else if s.atPlain ch then do
    let s ← s.saveKey
    let (t, fresh, c) := s.cursor.plain (s.flow ≠ 0) s.indent
    .ok (({ s with keyAllowed := fresh }.moveTo c).push t)
  else .error .malformed

/-- Reads the next token; the result says whether the text has ended instead. -/
def step (s : Scanner) : Read (Scanner × Bool) := do
  let s ← (skipGap (s.cursor.rest.length + 1) s).dropStaleKeys
  let s := s.unwind s.cursor.column
  match s.cursor.head? with
  | none => do
    let s ← (s.unwind (-1)).dropKey
    .ok (s, true)
  | some ch => do
    let s ← s.token ch
    .ok (s, false)

/-- The tokens that can be given away before the next one is read: all before the first place where a
key may have begun. -/
def ready (s : Scanner) : List Token :=
  let begun := (s.keys.filter fun (_, k) => !s.isStale k).map fun (_, k) => k.token
  s.tokens.toList.take (begun.foldl min s.tokens.size)

/-- The tokens up to one that cannot be read. -/
def stop (s : Scanner) (d : Defect) : List Token := s.ready ++ [.broken d]

/-- The text is used up as far as a scan looks ahead: by two characters, and by three at the beginning
of a line behind a plain scalar. -/
def isSpent (s : Scanner) : Bool :=
  match s.cursor.rest with
  | [] | [_] => true
  | [_, _] =>
    match s.tokens.back? with
    | some (.scalar _ plain) => plain && s.keyAllowed
    | _ => false
  | _ => false

/-- Reads at most `n` tokens up to the end of the text. -/
def run : Nat → Scanner → List Token
  | 0, s => s.stop .malformed
  | n + 1, s =>
    match s.step with
    | .error d => s.stop d
    | .ok (next, ended) =>
      match next.isSpent, s.cursor.wall with
      | true, some d => s.stop d
      | _, _ => if ended then next.tokens.toList else run n next

end Scanner

/-- How many nodes can be open inside of each other before the call stack is full. Nothing but the
reading of YAML minds the depth of that stack. -/
def maxDepth : Nat := 488

/-- Tokens up to the first that opens a node inside of too many others; `depth` of them are open. -/
def limitDepth : Nat → List Token → List Token
  | _, [] => []
  | depth, t :: ts =>
    match t with
    | .sequenceStart | .mappingStart | .listOpen | .mapOpen =>
      if maxDepth ≤ depth then [.broken .endless] else t :: limitDepth (depth + 1) ts
    | .blockEnd | .listClose | .mapClose => t :: limitDepth (depth - 1) ts
    | _ => t :: limitDepth depth ts

/-- The tokens of a source. A byte order mark at its beginning counts for nothing. -/
def scan (s : Source) : List Token :=
  let rest := match s.text with
    | '\ufeff' :: cs => cs
    | cs => cs
  match rest, s.defect with
  | [], some d => [.broken d]
  | _, wall => limitDepth 0 (Scanner.run (rest.length + 2) { cursor := { rest, wall } })

end Hyperstory.Yaml
