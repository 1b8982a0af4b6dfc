import Hyperstory.Tree.Forest

/-! The tree of a token stream. -/
namespace Hyperstory

namespace Token

/-- The kind of the node for a token: opening tokens lose their last five characters, and some
leaves have a shorter name. -/
def nodeKind (t : Token) : String :=
  if t.nesting = .opens then String.ofList (t.kind.toList.take (t.kind.length - 5))
  else if t.kind == "code_inline" then "code"
  else if t.kind == "fence" then "code_block"
  else if t.kind == "text_special" then "text"
  else t.kind

/-- The place of the node for a token; the text of a fence begins on the line after it. -/
def nodePosition (t : Token) (line : Option Int) : Option Position :=
  match t.map with
  | some (first, _) => some ⟨first + 1 + (if t.kind == "fence" then 1 else 0), 1⟩
  | none => line.map fun l => ⟨l, 1⟩

/-- A text that was escaped is kept as it was written; any other has its content. -/
def writtenText (t : Token) : String := if t.info == "escape" then t.markup else t.content

def toNode (t : Token) (inline : Bool) (line : Option Int) : Node :=
  let container := t.nesting = .opens || t.kind == "image"
  let base : Node :=
    { kind := t.nodeKind, position := t.nodePosition line, inline, container }
  let base :=
    if t.kind == "text_special" then
      { base with
        literal := some t.writtenText
        token := some { kind := "text", content := t.writtenText } }
    else { base with token := some t, literal := if container then none else some t.content }
  if t.kind == "link_open" then { base with destination := t.attr? "href" }
  else if t.kind == "image" then { base with destination := t.attr? "src" }
  else base

def lineAfter (t : Token) (line : Option Int) : Option Int :=
  if t.kind == "softbreak" || t.kind == "hardbreak" then line.map (· + 1)
  else if t.kind == "code_inline" then line.map (· + t.content.toList.count '\n')
  else line

end Token

namespace Forest

/-- Adds nodes for `tokens` below the containers on the stack, the innermost first. The content of
an inline token goes below the innermost container, the content of an image below the image. -/
def attach (t : Forest) (stack : List NodeId) (tokens : List Token) (inline : Bool)
    (line : Option Int) : Except Fault Forest :=
  match tokens with
  | [] => .ok t
  | tok :: rest =>
    if tok.nesting = .closes then
      match stack with
      | [] => .error .unopened
      | top :: below =>
        (t.modify top fun n => { n with closing := some tok }).attach below rest inline line
    else if tok.kind == "inline" then
      match stack with
      | [] => .error .unopened
      | top :: _ => do
        let t ← t.attach [top] tok.kids true (tok.map.map fun m => m.1 + 1)
        t.attach stack rest inline line
    else
      match stack with
      | [] => .error .unopened
      | top :: _ => do
        let (t, i) := t.add (tok.toNode inline line)
        let t := t.appendChild top i
        let next := tok.lineAfter line
        if tok.nesting = .opens then t.attach (i :: stack) rest inline next
        else if tok.kind == "image" then
          let t ← t.attach [i] tok.kids true line
          t.attach stack rest inline next
        else t.attach stack rest inline next
termination_by sizeOf tokens
decreasing_by
  all_goals
    have := tok.sizeOf_kids_lt
    rw [List.cons.sizeOf_spec]
    omega

/-- The tree of a stream of block tokens; its root is the node at place zero. -/
def ofTokens (tokens : List Token) : Except Fault Forest :=
  let (t, root) := Forest.add {} { kind := "document", container := true }
  t.attach [root] tokens false none

end Forest

end Hyperstory
