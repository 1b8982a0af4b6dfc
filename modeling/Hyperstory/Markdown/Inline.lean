import Std.Data.HashMap
import Hyperstory.Markdown.Delimiter
import Hyperstory.Markdown.Link
import Hyperstory.Markdown.Tag

/-! Reading inline content. -/
namespace Hyperstory.Markdown

/-- A text with inline content, and the definitions that its links may refer to. -/
structure Inline where
  text : Array Char
  definitions : Definitions
  /-- The last place of a run of backticks of each length. -/
  lastTicks : Std.HashMap Nat Nat := {}

structure Memory where
  ends : Std.HashMap Nat Nat := {}

inductive Span where
  | plain
  | lineEnd
  | hardBreak
  | escape (char : Char)
  | code (mark text : String)
  | link (first last : Nat) (target : Target)
  | image (first last : Nat) (target : Target)
  | address (href shown : String)
  | html
  | entity (char : String)

structure Match where
  span : Span
  stop : Nat

namespace Inline

def char? (s : Inline) (i : Nat) : Option Char := s.text[i]?

def slice (s : Inline) (first stop : Nat) : List Char := (s.text.extract first stop).toList

def suffix (s : Inline) (first : Nat) : List Char := s.slice first s.text.size

/-- The first place from `i` on, and before `i + n`, whose character is refused. -/
def skipWhileUpTo (s : Inline) (accept : Char → Bool) : Nat → Nat → Nat
  | 0, i => i
  | n + 1, i =>
    match s.char? i with
    | some c => if accept c then s.skipWhileUpTo accept n (i + 1) else i
    | none => i

/-- The first place from `i` up to `stop` whose character is refused. -/
def skipWhile (s : Inline) (accept : Char → Bool) (i stop : Nat) : Nat :=
  s.skipWhileUpTo accept (stop - i) i

def endsPlain (c : Char) : Bool := "\n!#$%&*+-:<=>@[\\]^_\x60\x7b\x7d~".toList.contains c

/-- A backslash and the character behind it; a line feed there makes a hard break. -/
def escape? (s : Inline) (i stop : Nat) : Option Match :=
  if stop ≤ i + 1 then none
  else
    match s.char? (i + 1) with
    | some '\n' => some ⟨.hardBreak, s.skipWhile Text.isIndent (i + 2) stop⟩
    | some c => some ⟨.escape c, i + 2⟩
    | none => none

/-- The next run of backticks from `i` on that is as long as `length`: where it begins and ends. At
most `n` characters are looked at. -/
def closingTicksUpTo (s : Inline) (length stop : Nat) : Nat → Nat → Option (Nat × Nat)
  | 0, _ => none
  | n + 1, i =>
    match s.char? i with
    | none => none
    | some c =>
      if c == '\x60' then
        let next := s.skipWhile (· == '\x60') (i + 1) stop
        if next - i = length then some (i, next) else s.closingTicksUpTo length stop n next
      else s.closingTicksUpTo length stop n (i + 1)

/-- The last place of a run of backticks of each length; the text begins at `place`, behind `run`
backticks. -/
def lastTicksFrom (known : Std.HashMap Nat Nat) (place run : Nat) :
    List Char → Std.HashMap Nat Nat
  | [] => if run = 0 then known else known.insert run (place - run)
  | c :: cs =>
    if c == '\x60' then lastTicksFrom known (place + 1) (run + 1) cs
    else
      lastTicksFrom (if run = 0 then known else known.insert run (place - run)) (place + 1) 0 cs

def ofText (ds : Definitions) (text : List Char) : Inline :=
  { text := text.toArray, definitions := ds, lastTicks := lastTicksFrom {} 0 0 text }

/-- The text of a code span: line feeds become spaces, and one space at each end goes if both ends
have one and not all characters are spaces. -/
def codeText (cs : List Char) : List Char :=
  let cs := cs.map fun c => if c == '\n' then ' ' else c
  if cs.head? == some ' ' && cs.getLast? == some ' ' && !(cs.all (· == ' ')) then
    cs.dropLast.drop 1
  else cs

/-- A code span, or backticks that nothing closes. -/
def ticks (s : Inline) (i stop : Nat) : Match :=
  let first := s.skipWhile (· == '\x60') (i + 1) stop
  let length := first - i
  if s.lastTicks.getD length 0 ≤ i then ⟨.plain, first⟩
  else
    match s.closingTicksUpTo length stop (s.text.size + 1 - first) first with
    | some (last, next) =>
      ⟨.code (String.ofList (s.slice i first)) (String.ofList (codeText (s.slice first last))),
        next⟩
    | none => ⟨.plain, first⟩

/-- Scans one construct inside a label: the place after it. -/
abbrev Skip := Memory → Nat → Nat × Memory

/-- The end of a label. Brackets in it are balanced, `level` of them are open; with `plain`, no
link may stand in it. At most `n` constructs are looked at. -/
def labelEndUpTo (s : Inline) (skip : Skip) (plain : Bool) (stop : Nat) :
    Nat → Nat → Nat → Memory → Option Nat × Memory
  | 0, _, _, m => (none, m)
  | n + 1, level, i, m =>
    if stop ≤ i then (none, m)
    else
      let c := s.char? i
      if c == some ']' && level ≤ 1 then (some i, m)
      else
        let level := if c == some ']' then level - 1 else level
        let (next, m) := skip m i
        if c == some '[' then
          if next = i + 1 then s.labelEndUpTo skip plain stop n (level + 1) next m
          else if plain then (none, m)
          else s.labelEndUpTo skip plain stop n level next m
        else s.labelEndUpTo skip plain stop n level next m

/-- The end of the label that begins behind a bracket at `i`. -/
def labelEnd (s : Inline) (skip : Skip) (plain : Bool) (i stop : Nat) (m : Memory) :
    Option Nat × Memory :=
  s.labelEndUpTo skip plain stop (stop + 1 - i) 1 (i + 1) m

/-- The target that a label refers to, and the place after the reference. A second label may stand
at `i`; an empty one refers to the first, which lies from `first` up to `last`. -/
def reference (s : Inline) (skip : Skip) (first last i stop : Nat) (m : Memory) :
    Option (Target × Nat) × Memory :=
  let (second, m) :=
    if i < stop && s.char? i == some '[' then
      let (e, m) := s.labelEnd skip false i stop m
      (e.map fun e => (s.slice (i + 1) e, e + 1), m)
    else (none, m)
  let own := s.slice first last
  let (label, next) := match second with
    | some (l, next) => (if l.isEmpty then own else l, next)
    | none => (own, last + 1)
  ((s.definitions.lookup (normalLabel label)).map fun t => (t, next), m)

/-- The target in parentheses behind a label that ends at `last`: the place after them or, if they
are no target, the place behind the character that does not fit. A text that ends in them is none. -/
def inlineTarget (s : Inline) (last stop : Nat) : Option (Except Nat (Target × Nat)) :=
  let cs := s.slice (last + 2) stop
  if (cs.dropWhile isGap).isEmpty then none
  else
    let (target, rest) := Markdown.inlineTarget cs
    let next := stop - rest.length + 1
    some (if rest.head? == some ')' then .ok (target, next) else .error next)

/-- A link: a label, and a target in parentheses or a reference. -/
def link? (s : Inline) (skip : Skip) (m : Memory) (i stop : Nat) : Option Match × Memory :=
  match s.labelEnd skip true i stop m with
  | (none, m) => (none, m)
  | (some last, m) =>
    let refer (place : Nat) (m : Memory) : Option Match × Memory :=
      let (r, m) := s.reference skip (i + 1) last place stop m
      (r.map fun (t, next) => ⟨.link (i + 1) last t, next⟩, m)
    if last + 1 < stop && s.char? (last + 1) == some '(' then
      match s.inlineTarget last stop with
      | none => (none, m)
      | some (.ok (t, next)) => (some ⟨.link (i + 1) last t, next⟩, m)
      | some (.error place) => refer place m
    else refer (last + 1) m

def image? (s : Inline) (skip : Skip) (m : Memory) (i stop : Nat) : Option Match × Memory :=
  if stop ≤ i + 1 || s.char? (i + 1) != some '[' then (none, m)
  else
    match s.labelEnd skip false (i + 1) stop m with
    | (none, m) => (none, m)
    | (some last, m) =>
      if last + 1 < stop && s.char? (last + 1) == some '(' then
        match s.inlineTarget last stop with
        | some (.ok (t, next)) => (some ⟨.image (i + 2) last t, next⟩, m)
        | _ => (none, m)
      else
        let (r, m) := s.reference skip (i + 2) last (last + 1) stop m
        (r.map fun (t, next) => ⟨.image (i + 2) last t, next⟩, m)

/-- The text without one line feed at its end. -/
def withoutLineFeed (cs : List Char) : List Char :=
  if cs.getLast? == some '\n' then cs.dropLast else cs

/-- A scheme of two to thirty-two characters, a colon, and no blanks. -/
def isAddress (cs : List Char) : Bool :=
  let cs := withoutLineFeed cs
  let scheme := cs.takeWhile (· != ':')
  let rest := cs.drop (scheme.length + 1)
  scheme.length < cs.length && 2 ≤ scheme.length && scheme.length ≤ 32 &&
    (scheme.head?.map Char.isAlpha).getD false &&
    scheme.all (fun c => c.isAlphanum || c == '+' || c == '.' || c == '-') &&
    rest.all fun c => 0x20 < c.toNat && c != '<' && c != '>'

/-- A part of a mail host: letters and digits with hyphens between them. -/
def isMailLabel (cs : List Char) : Bool :=
  1 ≤ cs.length && cs.length ≤ 63 && cs.all (fun c => c.isAlphanum || c == '-') &&
    cs.head? != some '-' && cs.getLast? != some '-'

def isMail (cs : List Char) : Bool :=
  let cs := withoutLineFeed cs
  let user := cs.takeWhile (· != '@')
  user.length < cs.length && !user.isEmpty &&
    user.all (fun c => c.isAlphanum || ".!#$%&'*+/=?^_\x60\x7b|\x7d~-".toList.contains c) &&
    ((cs.drop (user.length + 1)).splitOn '.').all isMailLabel

def address? (s : Inline) (i stop : Nat) : Option Match :=
  let last := s.skipWhile (fun c => c != '<' && c != '>') (i + 1) stop
  if stop ≤ last || s.char? last != some '>' then none
  else
    let written := s.slice (i + 1) last
    let found (destination : List Char) : Option Match :=
      (href? destination).map fun href =>
        ⟨.address (String.ofList href) (String.ofList (Url.readable written)), last + 1⟩
    if isAddress written then found written
    else if isMail written then found ("mailto:".toList ++ written)
    else none

def html? (s : Inline) (i stop : Nat) : Option Match :=
  if stop ≤ i + 2 then none
  else (Tag.after? (s.suffix i)).map fun rest => ⟨.html, s.text.size - rest.length⟩

/-- The name of a reference: a letter, and one to thirty-one letters and digits. -/
def entityName? (cs : List Char) : Option (List Char) :=
  let name := cs.takeWhile Text.isNameChar
  if (name.head?.map Char.isAlpha).getD false && 2 ≤ name.length && name.length ≤ 32 &&
      (cs.drop name.length).head? == some ';' then some name
  else none

/-- The number of a reference in the given base, and its length with the semicolon. -/
def entityNumber? (base most : Nat) (isDigit : Char → Bool) (cs : List Char) : Option (Nat × Nat) :=
  let digits := cs.takeWhile isDigit
  if 1 ≤ digits.length && digits.length ≤ most && (cs.drop digits.length).head? == some ';' then
    some (Text.Entity.number base digits, digits.length + 1)
  else none

/-- The character of a number; one that no reference may name is replaced. -/
def entityChar (n : Nat) : String :=
  String.singleton (if Text.Entity.validCode n then Char.ofNat n else '�')

def entity? (s : Inline) (i stop : Nat) : Option Match :=
  if stop ≤ i + 1 then none
  else
    match s.slice (i + 1) (i + 40) with
    | '#' :: cs =>
      match cs with
      | [] => none
      | c :: rest =>
        if c == 'x' || c == 'X' then
          (entityNumber? 16 6 (fun d => (Text.Entity.hexDigit? d).isSome) rest).map fun (n, len) =>
            ⟨.entity (entityChar n), i + 3 + len⟩
        else
          (entityNumber? 10 7 Char.isDigit cs).map fun (n, len) =>
            ⟨.entity (entityChar n), i + 2 + len⟩
    | cs => do
      let name ← entityName? cs
      let text ← Text.Entity.ofName? (String.ofList name)
      some ⟨.entity text, i + 2 + name.length⟩

def match? (s : Inline) (skip : Skip) (m : Memory) (i stop : Nat) : Option Match × Memory :=
  match s.char? i with
  | none => (none, m)
  | some c =>
    if !endsPlain c then (some ⟨.plain, s.skipWhile (!endsPlain ·) i stop⟩, m)
    else if c == '\n' then (some ⟨.lineEnd, s.skipWhile Text.isIndent (i + 1) stop⟩, m)
    else if c == '\\' then (s.escape? i stop, m)
    else if c == '\x60' then (some (s.ticks i stop), m)
    else if c == '[' then s.link? skip m i stop
    else if c == '!' then s.image? skip m i stop
    else if c == '<' then ((s.address? i stop).orElse fun _ => s.html? i stop, m)
    else if c == '&' then (s.entity? i stop, m)
    else (none, m)

/-- The place after the construct at `i`, in labels nested `depth` deep at most. What lies deeper
is not looked at. -/
def skipAt (s : Inline) (stop : Nat) : Nat → Skip
  | depth, m, i =>
    match m.ends[i]? with
    | some next => (next, m)
    | none =>
      let (next, m) := match depth with
        | 0 => (stop + 1, m)
        | depth + 1 =>
          let (r, m) := s.match? (s.skipAt stop depth) m i stop
          ((r.map Match.stop).getD (i + 1), m)
      (next, { m with ends := m.ends.insert i next })

/-- A piece of inline content: finished tokens, or a mark of emphasis. -/
inductive Piece where
  | tokens (ts : List Token)
  | mark (d : Delimiter)

def textToken (cs : List Char) : Token := { kind := "text", content := String.ofList cs }

/-- The pieces with the plain text before them; both are kept in reverse. -/
def flush (pending : List Char) (pieces : List Piece) : List Piece :=
  if pending.isEmpty then pieces else .tokens [textToken pending.reverse] :: pieces

/-- A run of marks at `i`: one delimiter for each, in reverse; `place` is the place of the first. -/
def marks (s : Inline) (c : Char) (i stop place : Nat) : List Piece × Nat :=
  let next := s.skipWhile (· == c) i stop
  let before := if i = 0 then ' ' else (s.char? (i - 1)).getD ' '
  let after := if next < stop then (s.char? next).getD ' ' else ' '
  let n := next - i
  let delimiter (k : Nat) : Delimiter :=
    { mark := c, length := n, place := place + k
      opens := canOpen c before after, closes := canClose c before after }
  (((List.range n).map fun k => .mark (delimiter k)).reverse, next)

def joinTexts : List Token → List Token
  | [] => []
  | t :: ts =>
    match joinTexts ts with
    | u :: us =>
      if t.kind == "text" && u.kind == "text" then
        { u with content := t.content ++ u.content } :: us
      else t :: u :: us
    | [] => [t]

def ofPieces (pieces : List Piece) : List Token :=
  let ds := Pairing.all (pieces.filterMap fun p => match p with
    | .mark d => some d
    | .tokens _ => none).toArray
  let out := (pieces.map fun p => match p with
    | .mark d => [textToken [d.mark]]
    | .tokens ts => ts).toArray
  joinTexts (emphasize ds ds.size out).toList.flatten

def titleAttrs (title : String) : Attrs :=
  if title.isEmpty then [] else [("title", title)]

def linkTokens (attrs : Attrs) (mark info : String) (body : List Token) :
    List Token :=
  { kind := "link_open", tag := "a", nesting := .opens, attrs, markup := mark, info } :: body ++
    [{ kind := "link_close", tag := "a", nesting := .closes, markup := mark, info }]

def imageToken (target : Target) (content : List Char) (children : List Token) : Token :=
  { kind := "image", tag := "img"
    attrs := ("src", target.href) :: ("alt", "") :: titleAttrs target.title
    children := if children.isEmpty then none else some children
    content := String.ofList content }

def leafTokens (written : List Char) : Span → List Token
  | .hardBreak => [{ kind := "hardbreak", tag := "br" }]
  | .escape c =>
    let content := if Text.isEscapable c then [c] else written
    [{ kind := "text_special", content := String.ofList content, markup := String.ofList written,
       info := "escape" }]
  | .code mark text => [{ kind := "code_inline", tag := "code", content := text, markup := mark }]
  | .address href shown =>
    linkTokens [("href", href)] "autolink" "auto" [{ kind := "text", content := shown }]
  | .html => [{ kind := "html_inline", content := String.ofList written }]
  | .entity text =>
    [{ kind := "text_special", content := text, markup := String.ofList written, info := "entity" }]
  | _ => []

/-- The end of a line: two spaces before it make a hard break. The result is the pending text
without its last spaces, and the break. -/
def lineEnd (pending : List Char) : List Char × Token :=
  match pending with
  | ' ' :: ' ' :: rest => (rest.dropWhile (· == ' '), { kind := "hardbreak", tag := "br" })
  | ' ' :: rest => (rest, { kind := "softbreak", tag := "br" })
  | _ => (pending, { kind := "softbreak", tag := "br" })

def maxDepth : Nat := 20

/-- The pieces from place `i` up to `stop`, in reverse behind those before them. `depth` is how
deep labels may still be nested; at most `n` constructs are read. -/
def pieces (s : Inline) : Nat → (depth stop : Nat) → Memory → (i : Nat) → (pending : List Char) →
    List Piece → List Piece × Memory
  | 0, _, _, m, _, pending, out => (flush pending out, m)
  | n + 1, depth, stop, m, i, pending, out =>
    match s.char? i with
    | none => (flush pending out, m)
    | some c =>
      if stop ≤ i then (flush pending out, m)
      else if c == '*' || c == '_' then
        let out := flush pending out
        let (marks, next) := s.marks c i stop out.length
        s.pieces n depth stop m next [] (marks ++ out)
      else
        match s.match? (s.skipAt stop depth) m i stop with
        | (none, m) => s.pieces n depth stop m (i + 1) (c :: pending) out
        | (some r, m) =>
          let written := s.slice i r.stop
          match r.span with
          | .plain => s.pieces n depth stop m r.stop (written.reverse ++ pending) out
          | .lineEnd =>
            let (pending, lineBreak) := lineEnd pending
            s.pieces n depth stop m r.stop [] (.tokens [lineBreak] :: flush pending out)
          | .link first last target =>
            let (inner, m) := s.pieces n (depth - 1) last m first [] []
            let body := ofPieces inner.reverse
            let attrs : Attrs := ("href", target.href) :: titleAttrs target.title
            s.pieces n depth stop m r.stop []
              (.tokens (linkTokens attrs "" "" body) :: flush pending out)
          | .image first last target =>
            let content := s.slice first last
            let alt := ofText s.definitions content
            let (inner, _) := alt.pieces n maxDepth content.length {} 0 [] []
            let token := imageToken target content (ofPieces inner.reverse)
            s.pieces n depth stop m r.stop [] (.tokens [token] :: flush pending out)
          | span =>
            s.pieces n depth stop m r.stop [] (.tokens (leafTokens written span) :: flush pending out)

def read (ds : Definitions) (text : String) : List Token :=
  let s := ofText ds text.toList
  let n := s.text.size
  ofPieces (s.pieces (n + 1) maxDepth n {} 0 [] []).1.reverse

end Inline

end Hyperstory.Markdown
