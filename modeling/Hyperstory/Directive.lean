/-!
Directives in story text: `\x7b` opens one, the character after it tells its kind, and the brace that
closes the outermost level ends it. A backslash takes the next character out of the count.
-/
namespace Hyperstory

inductive DirectiveKind where
  | sectionBegin
  | sectionRef
  | functionRef
  | variableRef
  deriving DecidableEq, Repr

namespace DirectiveKind

/-- The character after the opening brace. -/
def sigil : DirectiveKind → Char
  | sectionBegin => '{'
  | sectionRef => '@'
  | functionRef => '#'
  | variableRef => '$'

def ofSigil? : Char → Option DirectiveKind
  | '{' => some sectionBegin
  | '@' => some sectionRef
  | '#' => some functionRef
  | '$' => some variableRef
  | _ => none

/-- The kind a text of exactly one character selects. -/
def ofText? : List Char → Option DirectiveKind
  | [c] => ofSigil? c
  | _ => none

end DirectiveKind

/-- Removes escape backslashes: each stands for the character after it, and one at the end stays. -/
def unescape : List Char → List Char
  | [] => []
  | ['\\'] => ['\\']
  | '\\' :: c :: cs => c :: unescape cs
  | c :: cs => c :: unescape cs

/-- A directive cut out of a text: the characters from `start` up to `stop`. -/
structure Directive where
  kind : DirectiveKind
  identifier : String
  start : Nat
  stop : Nat
  text : String
  deriving DecidableEq, Repr

namespace Directive

/-- The identifier behind its sigil; a section is named by its identifier alone. -/
def reference (d : Directive) : String :=
  match d.kind with
  | .sectionBegin => d.identifier
  | k => String.ofList (k.sigil :: d.identifier.toList)

inductive Problem where
  | unterminated (near : String)
  | unknown (text : String)
  deriving DecidableEq, Repr

/-- How many characters there are up to and with the brace that brings the depth back to zero. -/
def span (depth : Int) : List Char → Option Nat
  | [] => none
  | ['\\'] => none
  | '\\' :: _ :: cs => (span depth cs).map (· + 2)
  | '{' :: cs => (span (depth + 1) cs).map (· + 1)
  | '}' :: cs => if depth = 1 then some 1 else (span (depth - 1) cs).map (· + 1)
  | _ :: cs => (span depth cs).map (· + 1)

/-- The characters of the name: what is left without the opening and the closing part. -/
def nameOf (kind : DirectiveKind) (text : List Char) : List Char :=
  match kind with
  | .sectionBegin => (text.take (text.length - 2)).drop 2
  | _ => (text.take (text.length - 1)).drop 2

/-- The directive with this text, if its second character tells a kind. -/
def ofText (start : Nat) (text : List Char) : Except Problem Directive :=
  match DirectiveKind.ofText? ((text.drop 1).take 1) with
  | some kind =>
    .ok ⟨kind, String.ofList (unescape (nameOf kind text)), start, start + text.length,
      String.ofList text⟩
  | none => .error (.unknown (String.ofList text))

/-- Reads the directive that opens at position `start`. -/
def scan (literal : List Char) (start : Nat) : Except Problem Directive :=
  match span 0 (literal.drop start) with
  | some n => ofText start ((literal.drop start).take n)
  | none => .error (.unterminated (String.ofList ((literal.drop start).take 10)))

end Directive

/-- A link or image destination that is a directive: its name with the sigil, and what follows
the first colon. -/
structure Destination where
  identifier : String
  modifier : Option String
  deriving DecidableEq, Repr

namespace Destination

def cut (cs : List Char) : Destination :=
  match cs.dropWhile (· != ':') with
  | [] => ⟨String.ofList cs, none⟩
  | _ :: rest => ⟨String.ofList (cs.takeWhile (· != ':')), some (String.ofList rest)⟩

/-- Reads a destination; the one thing checked is that it ends in a closing brace which is not
its first character. -/
def ofUrl? (url : String) : Option Destination :=
  let cs := url.toList
  if cs.length < 2 || cs.getLast? != some '}' then none
  else some (cut ((cs.take (cs.length - 1)).drop 1))

/-- The kind of the directive, by the first character of the identifier. -/
def kind? (d : Destination) : Option DirectiveKind :=
  DirectiveKind.ofText? (d.identifier.toList.take 1)

/-- The identifier without its first character. -/
def name (d : Destination) : String := String.ofList (d.identifier.toList.drop 1)

end Destination

end Hyperstory
