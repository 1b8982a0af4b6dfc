import Hyperstory.Directive
import Hyperstory.Tree.Cursor

/-! Passes over the text of a tree: joining neighbours and removing escapes. -/
namespace Hyperstory

def isScanned (kind : String) : Bool := kind == "text" || kind == "code" || kind == "code_block"

namespace Forest

/-- Steps enough for a pass that only takes nodes out. -/
def passBound (t : Forest) : Nat := (t.size + 1) * t.visitBound

/-- Joins a text to the text visited right before it. Returns the node to compare the next visit
with. -/
def mergeStep (t : Forest) (previous : Option NodeId) (i : NodeId) :
    Forest × Except Fault (Option NodeId) :=
  match previous with
  | none => (t, .ok (some i))
  | some p =>
    if (t.node i).kind == "text" && (t.node p).kind == "text" then
      match (t.node p).literal with
      | none => (t, .error .wordless)
      | some text =>
        let joined := text ++ (t.node i).literal.getD ""
        ((t.modify p fun n => { n with literal := some joined }).unlink i, .ok (some p))
    else (t, .ok (some i))

def mergeFrom : Nat → Option NodeId → Cursor → Forest → Forest × Option Fault
  | 0, _, _, t => (t, none)
  | fuel + 1, previous, c, t =>
    match c.next? t with
    | none => (t, none)
    | some (v, c') =>
      match t.mergeStep previous v.node with
      | (t, .ok previous) => mergeFrom fuel previous c' t
      | (t, .error e) => (t, some e)

/-- Joins neighbouring texts below `root`, so that a directive lies within one literal. -/
def mergeText (t : Forest) (root : NodeId) : Forest × Option Fault :=
  mergeFrom t.passBound none (.start root) t

def stripNode (t : Forest) (i : NodeId) : Forest :=
  if isScanned (t.node i).kind then
    t.modify i fun n => { n with literal := n.literal.map fun s => String.ofList (unescape s.toList) }
  else t

def stripFrom : Nat → Cursor → Forest → Forest
  | 0, _, t => t
  | fuel + 1, c, t =>
    match c.next? t with
    | none => t
    | some (v, c') => stripFrom fuel c' (t.stripNode v.node)

def stripEscapes (t : Forest) (root : NodeId) : Forest := stripFrom t.visitBound (.start root) t

end Forest

end Hyperstory
