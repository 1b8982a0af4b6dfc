import Hyperstory.Text.Entity
import Hyperstory.Text.Half
import Hyperstory.Url.Percent
import Hyperstory.Yaml.Cursor

/-! Scalars, names and tags as they are written in a YAML text. -/
namespace Hyperstory.Yaml.Cursor

open Hyperstory.Text (Entity.hexDigit? Entity.number)

def isHex (c : Char) : Bool := (Entity.hexDigit? c).isSome

def isNameChar (c : Char) : Bool := c.isAlphanum || c == '-' || c == '_'

def name (c : Cursor) : Read (String × Cursor) :=
  let n := c.run isNameChar
  if n.isEmpty then .error .malformed else .ok (String.ofList n, c.skip n.length)

def anchorName (c : Cursor) : Read (String × Cursor) := do
  let (n, c) ← c.next.name
  if endsWord c.head? || c.sees ("?:,]\x7d%@\x60".toList.contains ·) then .ok (n, c)
  else .error .malformed

/-! ### Tags -/

def isTagChar (c : Char) : Bool := c.isAlphanum || "-;/?:@&=+$,_.!~*'()[]%".toList.contains c

def escapedBytes : Nat → Cursor → Read (List UInt8 × Cursor)
  | 0, c => .ok ([], c)
  | n + 1, c =>
    match c.rest with
    | '%' :: a :: b :: _ =>
      if isHex a && isHex b then do
        let (bytes, c') ← escapedBytes n (c.skip 3)
        .ok ((Entity.number 16 [a, b]).toUInt8 :: bytes, c')
      else .error .malformed
    | '%' :: few => .error (if few.all isHex then c.cutOff else .malformed)
    | _ => .ok ([], c)

def tagText : Nat → Cursor → Read (List Char × Cursor)
  | 0, c => .ok ([], c)
  | n + 1, c =>
    match c.head? with
    | some '%' => do
      let (bytes, c) ← escapedBytes c.rest.length c
      match String.fromUTF8? ⟨bytes.toArray⟩ with
      | some s => do
        let (more, c) ← tagText n c
        .ok (s.toList ++ more, c)
      | none => .error .malformed
    | some ch =>
      if isTagChar ch then do
        let (more, c) ← tagText n c.next
        .ok (ch :: more, c)
      else .ok ([], c)
    | none => .ok ([], c)

def tagUri (c : Cursor) : Read (String × Cursor) := do
  if c.sees isTagChar then
    let (t, c) ← tagText (c.rest.length + 1) c
    .ok (String.ofList t, c)
  else .error .malformed

/-- The handle of a tag: names between exclamation marks, or one exclamation mark. -/
def tagHandle (c : Cursor) : Read (String × Cursor) :=
  match c.rest with
  | '!' :: ' ' :: _ => .ok ("!", c.next)
  | '!' :: rest =>
    let n := rest.takeWhile isNameChar
    if (rest.drop n.length).head? == some '!' then
      .ok (String.ofList ('!' :: n ++ ['!']), c.skip (n.length + 2))
    else .error .malformed
  | _ => .error .malformed

def tag (c : Cursor) : Read (Token × Cursor) := do
  let (t, c) ← match c.peek 1 with
    | some '<' => do
      let (suffix, c) ← (c.skip 2).tagUri
      if c.head? == some '>' then .ok (Token.tag none suffix, c.next) else .error .malformed
    | ch =>
      if endsWord ch then .ok (Token.tag none "!", c.next)
      else if ((c.next.run fun d => d != ' ' && !isBreak d).contains '!') then do
        let (handle, c) ← c.tagHandle
        let (suffix, c) ← c.tagUri
        .ok (Token.tag (some handle) suffix, c)
      else do
        let (suffix, c) ← c.next.tagUri
        .ok (Token.tag (some "!") suffix, c)
  if endsHeader c.head? then .ok (t, c) else .error .malformed

/-! ### Directives -/

def digits (c : Cursor) : Read (Nat × Cursor) :=
  let ds := c.run Char.isDigit
  if ds.isEmpty then .error .malformed
  else if maxDigits < ds.length then .error .number
  else .ok (Entity.number 10 ds, c.skip ds.length)

def version (c : Cursor) : Read (Token × Cursor) := do
  let (major, c) ← (c.skipWhile (· == ' ')).digits
  if c.head? == some '.' then do
    let (_, c) ← c.next.digits
    if endsHeader c.head? then .ok (.version major, c) else .error .malformed
  else .error .malformed

def handle (c : Cursor) : Read (Token × Cursor) := do
  let (h, c) ← (c.skipWhile (· == ' ')).tagHandle
  if c.head? == some ' ' then do
    let (target, c) ← (c.skipWhile (· == ' ')).tagUri
    if endsHeader c.head? then .ok (.handle h target, c) else .error .malformed
  else .error .malformed

def directive (c : Cursor) : Read (Token × Cursor) := do
  let (n, c) ← c.next.name
  if endsHeader c.head? then do
    let (t, c) ←
      if n == "YAML" then c.version
      else if n == "TAG" then c.handle
      else .ok (.otherDirective, c.skipWhile (!isBreak ·))
    let c ← c.skipComment
    .ok (t, c)
  else .error .malformed

/-! ### Block scalars -/

inductive Chomping where
  | strip
  | clip
  | keep
  deriving DecidableEq

def chomping? (c : Option Char) : Option Chomping :=
  match c with
  | some '+' => some .keep
  | some '-' => some .strip
  | _ => none

def increment? (c : Option Char) : Option Nat :=
  match c with
  | some d => if d.isDigit then some (d.toNat - '0'.toNat) else none
  | none => none

/-- The header of a block scalar: its indicators in any order, and the rest of the line. -/
def blockHeader (c : Cursor) : Read (Chomping × Option Nat × Cursor) := do
  let (chomp, inc, c) := match chomping? c.head?, increment? c.head? with
    | some k, _ =>
      match increment? (c.peek 1) with
      | some n => (k, some n, c.skip 2)
      | none => (k, none, c.next)
    | none, some n =>
      match chomping? (c.peek 1) with
      | some k => (k, some n, c.skip 2)
      | none => (.clip, some n, c.next)
    | none, none => (.clip, none, c)
  if inc == some 0 || !endsHeader c.head? then .error .malformed
  else do
    let c ← c.skipComment
    .ok (chomp, inc, c)

/-- Skips empty lines, and the spaces before column `indent` after them. -/
def blockBreaks (indent : Nat) : Nat → Cursor → List Char × Cursor
  | 0, c => ([], c)
  | n + 1, c =>
    let spaces := c.run (· == ' ')
    let c := c.skip (min spaces.length (indent - c.column))
    if c.atBreak then
      let (b, c) := c.lineBreak
      let (more, c) := blockBreaks indent n c
      (b ++ more, c)
    else ([], c)

/-- Skips empty lines and spaces; the result has the greatest column that spaces reach. -/
def blockLead : Nat → Nat → Cursor → List Char × Nat × Cursor
  | 0, width, c => ([], width, c)
  | n + 1, width, c =>
    if c.head? == some ' ' then blockLead n (max width (c.column + 1)) c.next
    else if c.atBreak then
      let (b, c) := c.lineBreak
      let (more, width, c) := blockLead n width c
      (b ++ more, width, c)
    else ([], width, c)

/-- The lines of a block scalar at column `indent`; `breaks` are the empty lines before them. The
result has the last line end, and the empty lines behind it, apart. Folding joins lines that do not
begin with a blank. -/
def blockLines (folded : Bool) (indent : Nat) :
    Nat → List Char → Cursor → List Char × List Char × List Char × Cursor
  | 0, breaks, c => ([], [], breaks, c)
  | n + 1, breaks, c =>
    if c.column ≠ indent || c.rest.isEmpty then ([], [], breaks, c)
    else
      let indented := c.sees isBlank
      let text := c.run (!isBreak ·)
      let (lineEnd, c) := (c.skip text.length).lineBreak
      let (more, c) := blockBreaks indent (c.rest.length + 1) c
      if c.column = indent && !c.rest.isEmpty then
        let joint :=
          if folded && lineEnd == ['\n'] && !indented && !c.sees isBlank then
            if more.isEmpty then [' '] else []
          else lineEnd
        let (rest, tail) := blockLines folded indent n more c
        (breaks ++ text ++ joint ++ rest, tail)
      else (breaks ++ text, lineEnd, more, c)

/-- A block scalar; `outer` is the indentation around it. -/
def blockScalar (outer : Int) (c : Cursor) : Read (Token × Cursor) := do
  let folded := c.head? == some '>'
  let (chomp, inc, c) ← c.next.blockHeader
  let least := max 1 (outer + 1).toNat
  let fuel := c.rest.length + 1
  let (breaks, indent, c) := match inc with
    | none =>
      let (breaks, width, c) := blockLead fuel 0 c
      (breaks, max least width, c)
    | some n =>
      let (breaks, c) := blockBreaks (least + n - 1) fuel c
      (breaks, least + n - 1, c)
  let (text, lineEnd, more, c) := blockLines folded indent fuel breaks c
  let tail := match chomp with
    | .strip => []
    | .clip => lineEnd
    | .keep => lineEnd ++ more
  .ok (.scalar (text ++ tail) false, c)

/-! ### Quoted scalars -/

def shortEscape? (c : Char) : Option Char :=
  match c with
  | '0' => some '\x00'
  | 'a' => some '\x07'
  | 'b' => some '\x08'
  | 't' | '\t' => some '\t'
  | 'n' => some '\n'
  | 'v' => some '\x0b'
  | 'f' => some '\x0c'
  | 'r' => some '\r'
  | 'e' => some '\x1b'
  | ' ' => some ' '
  | '"' => some '"'
  | '\\' => some '\\'
  | '/' => some '/'
  | 'N' => some '\x85'
  | '_' => some '\xa0'
  | 'L' => some '\u2028'
  | 'P' => some '\u2029'
  | _ => none

def escapeLength? (c : Char) : Option Nat :=
  match c with
  | 'x' => some 2
  | 'u' => some 4
  | 'U' => some 8
  | _ => none

def escapeCode (n : Nat) (c : Cursor) : Read Nat :=
  let ds := c.rest.take n
  if !ds.all isHex then .error .malformed
  else if ds.length < n then .error c.cutOff
  else .ok (Entity.number 16 ds)

/-- A numeric escape with `n` digits. It may name half of a surrogate pair. -/
def numericEscape (n : Nat) (c : Cursor) : Read (Char × Cursor) := do
  let code ← escapeCode n c
  if 0x7fffffff < code then .error .tooLarge
  else if 0x10ffff < code then .error .codePoint
  else .ok (if Text.Half.isCode code then Text.Half.ofCode code else Char.ofNat code, c.skip n)

/-- Empty lines in a quoted scalar; no document may end in it. -/
def quotedBreaks : Nat → Cursor → Read (List Char × Cursor)
  | 0, c => .ok ([], c)
  | n + 1, c =>
    if c.atSeparator then .error .malformed
    else
      let c := c.skipWhile isBlank
      if c.atBreak then do
        let (b, c) := c.lineBreak
        let (more, c) ← quotedBreaks n c
        .ok (b ++ more, c)
      else .ok ([], c)

def stopsQuoted (c : Char) : Bool := c == '\'' || c == '"' || c == '\\' || isBlank c || isBreak c

def quotedWord (double : Bool) : Nat → Cursor → Read (List Char × Cursor)
  | 0, _ => .error .malformed
  | n + 1, c => do
    let text := c.run (!stopsQuoted ·)
    let c := c.skip text.length
    let go (piece : List Char) (c : Cursor) : Read (List Char × Cursor) := do
      let (more, c) ← quotedWord double n c
      .ok (text ++ piece ++ more, c)
    match double, c.rest with
    | false, '\'' :: '\'' :: _ => go ['\''] (c.skip 2)
    | false, '"' :: _ => go ['"'] c.next
    | false, '\\' :: _ => go ['\\'] c.next
    | true, '\'' :: _ => go ['\''] c.next
    | true, '\\' :: ch :: _ =>
      match shortEscape? ch, escapeLength? ch with
      | some e, _ => go [e] (c.skip 2)
      | none, some k => do
        let (e, c) ← numericEscape k (c.skip 2)
        go [e] c
      | none, none =>
        if isBreak ch then do
          let (breaks, c) ← quotedBreaks c.rest.length (c.next.lineBreak.2)
          go breaks c
        else .error .malformed
    | true, ['\\'] => .error c.cutOff
    | _, _ => .ok (text, c)

/-- Blanks in a quoted scalar: a line end reads as a space, more of them as one less. -/
def quotedSpaces (c : Cursor) : Read (List Char × Cursor) := do
  let blanks := c.run isBlank
  let c := c.skip blanks.length
  if c.rest.isEmpty then .error c.cutOff
  else if c.atBreak then
    let (b, c) := c.lineBreak
    let (more, c) ← quotedBreaks (c.rest.length + 1) c
    let joint := if b != ['\n'] then b else if more.isEmpty then [' '] else []
    .ok (joint ++ more, c)
  else .ok (blanks, c)

def quotedRest (double : Bool) : Nat → Cursor → Read (List Char × Cursor)
  | 0, _ => .error .malformed
  | n + 1, c => do
    let (word, c) ← quotedWord double (c.rest.length + 1) c
    if c.head? == some (if double then '"' else '\'') then .ok (word, c.next)
    else
      let (spaces, c) ← quotedSpaces c
      let (more, c) ← quotedRest double n c
      .ok (word ++ spaces ++ more, c)

def quoted (c : Cursor) : Read (Token × Cursor) := do
  let double := c.head? == some '"'
  let (text, c) ← quotedRest double (c.rest.length + 1) c.next
  .ok (.scalar text false, c)

/-! ### Plain scalars -/

/-- The part of a plain scalar without blanks. A colon ends it before a blank, and more characters
do so inside of brackets. -/
def plainWord (inFlow : Bool) : List Char → List Char
  | [] => []
  | c :: cs =>
    if isBlank c || isBreak c then []
    else if c == ':' &&
        (endsWord cs.head? || (inFlow && (cs.head?.map (",[]\x7b\x7d".toList.contains ·)).getD false))
    then []
    else if inFlow && ",?[]\x7b\x7d".toList.contains c then []
    else c :: plainWord inFlow cs

/-- Empty lines and spaces in a plain scalar; there is no result where a document ends. -/
def plainBreaks : Nat → Cursor → Option (List Char) × Cursor
  | 0, c => (some [], c)
  | n + 1, c =>
    if c.head? == some ' ' then plainBreaks n c.next
    else if c.atBreak then
      let (b, c) := c.lineBreak
      if c.atSeparator then (none, c)
      else
        let (more, c) := plainBreaks n c
        (more.map (b ++ ·), c)
    else (some [], c)

/-- The blanks behind a part of a plain scalar, and whether a line ended in them. Where no blanks are
given, the scalar ends. -/
def plainSpaces (c : Cursor) : List Char × Bool × Cursor :=
  let blanks := c.run (· == ' ')
  let c := c.skip blanks.length
  if c.atBreak then
    let (b, c) := c.lineBreak
    if c.atSeparator then ([], true, c)
    else
      match plainBreaks (c.rest.length + 1) c with
      | (none, c) => ([], true, c)
      | (some more, c) =>
        let joint := if b != ['\n'] then b else if more.isEmpty then [' '] else []
        (joint ++ more, true, c)
  else (blanks, false, c)

/-- The rest of a plain scalar behind `spaces`, and whether the scan stopped behind a line end. It ends
at a comment, and where the indentation falls below `indent`. -/
def plainRest (inFlow : Bool) (indent : Int) :
    Nat → List Char → Bool → Cursor → List Char × Bool × Cursor
  | 0, _, fresh, c => ([], fresh, c)
  | n + 1, spaces, fresh, c =>
    if c.head? == some '#' then ([], fresh, c)
    else
      let word := plainWord inFlow c.rest
      if word.isEmpty then ([], fresh, c)
      else
        let (gap, broken, c) := (c.skip word.length).plainSpaces
        if gap.isEmpty || c.head? == some '#' || (!inFlow && c.column < indent) then
          (spaces ++ word, broken, c)
        else
          let (more, fresh, c) := plainRest inFlow indent n gap broken c
          (spaces ++ word ++ more, fresh, c)

/-- A plain scalar, and whether the scan stopped behind a line end. -/
def plain (inFlow : Bool) (outer : Int) (c : Cursor) : Token × Bool × Cursor :=
  let (text, fresh, c) := plainRest inFlow (outer + 1) (c.rest.length + 1) [] false c
  (.scalar text true, fresh, c)

end Hyperstory.Yaml.Cursor
