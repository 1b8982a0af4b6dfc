import Hyperstory.Located
import Hyperstory.Token

/-! Documents as linked nodes that can be moved, inserted and removed while they are walked. -/
namespace Hyperstory

abbrev NodeId := Nat

structure Links where
  parent : Option NodeId := none
  firstChild : Option NodeId := none
  lastChild : Option NodeId := none
  prev : Option NodeId := none
  next : Option NodeId := none
  deriving DecidableEq, Repr, Inhabited

structure Node where
  kind : String
  literal : Option String := none
  position : Option Position := none
  /-- The node is part of a run of text, not a block. -/
  inline : Bool := false
  container : Bool := false
  destination : Option AttrValue := none
  /-- The token of a leaf, or the opening token of a container. -/
  token : Option Token := none
  closing : Option Token := none
  links : Links := {}
  deriving Inhabited

/-- A table of nodes. Links that lead nowhere are `none`; the table never shrinks. -/
structure Forest where
  nodes : Array Node := #[]
  deriving Inhabited

namespace Forest

def size (t : Forest) : Nat := t.nodes.size

def node (t : Forest) (i : NodeId) : Node := t.nodes.getD i default

def links (t : Forest) (i : NodeId) : Links := (t.node i).links

def modify (t : Forest) (i : NodeId) (f : Node → Node) : Forest := ⟨t.nodes.modify i f⟩

def relink (t : Forest) (i : NodeId) (f : Links → Links) : Forest :=
  t.modify i fun n => { n with links := f n.links }

def relink? (t : Forest) (i : Option NodeId) (f : Links → Links) : Forest :=
  match i with
  | some i => t.relink i f
  | none => t

def add (t : Forest) (n : Node) : Forest × NodeId := (⟨t.nodes.push n⟩, t.nodes.size)

def unlink (t : Forest) (i : NodeId) : Forest :=
  let l := t.links i
  let t :=
    match l.prev with
    | some p => t.relink p fun k => { k with next := l.next }
    | none => t.relink? l.parent fun k => { k with firstChild := l.next }
  let l := t.links i
  let t :=
    match l.next with
    | some n => t.relink n fun k => { k with prev := l.prev }
    | none => t.relink? l.parent fun k => { k with lastChild := l.prev }
  t.relink i fun k => { k with parent := none, prev := none, next := none }

def appendChild (t : Forest) (i child : NodeId) : Forest :=
  let t := t.unlink child
  let t := t.relink child fun k => { k with parent := some i }
  match (t.links i).lastChild with
  | none => t.relink i fun k => { k with firstChild := some child, lastChild := some child }
  | some last =>
    let t := t.relink last fun k => { k with next := some child }
    let t := t.relink child fun k => { k with prev := (t.links i).lastChild }
    t.relink i fun k => { k with lastChild := some child }

/-- Makes a node that ends its list the last child of its parent. -/
def markLast (t : Forest) (i : NodeId) : Forest :=
  match (t.links i).next with
  | none => t.relink? (t.links i).parent fun k => { k with lastChild := some i }
  | some _ => t

/-- Makes a node that begins its list the first child of its parent. -/
def markFirst (t : Forest) (i : NodeId) : Forest :=
  match (t.links i).prev with
  | none => t.relink? (t.links i).parent fun k => { k with firstChild := some i }
  | some _ => t

def insertAfter (t : Forest) (i sibling : NodeId) : Forest :=
  let t := t.unlink sibling
  let t := t.relink sibling fun k => { k with next := (t.links i).next }
  let t := t.relink? (t.links sibling).next fun k => { k with prev := some sibling }
  let t := t.relink sibling fun k => { k with prev := some i }
  let t := t.relink i fun k => { k with next := some sibling }
  let t := t.relink sibling fun k => { k with parent := (t.links i).parent }
  t.markLast sibling

def insertBefore (t : Forest) (i sibling : NodeId) : Forest :=
  let t := t.unlink sibling
  let t := t.relink sibling fun k => { k with prev := (t.links i).prev }
  let t := t.relink? (t.links sibling).prev fun k => { k with next := some sibling }
  let t := t.relink sibling fun k => { k with next := some i }
  let t := t.relink i fun k => { k with prev := some sibling }
  let t := t.relink sibling fun k => { k with parent := (t.links i).parent }
  t.markFirst sibling

def chain (t : Forest) : Nat → Option NodeId → List NodeId
  | 0, _ => []
  | _, none => []
  | limit + 1, some i => i :: t.chain limit (t.links i).next

def childrenUpTo (t : Forest) (limit : Nat) (i : NodeId) : List NodeId :=
  t.chain limit (t.links i).firstChild

def children (t : Forest) (i : NodeId) : List NodeId := t.childrenUpTo t.size i

/-- Takes the children out one by one, at most `limit` of them. -/
def drain (t : Forest) : Nat → Option NodeId → Forest × List NodeId
  | 0, _ => (t, [])
  | _, none => (t, [])
  | limit + 1, some i =>
    let following := (t.links i).next
    let (t, rest) := (t.unlink i).drain limit following
    (t, i :: rest)

/-- A leaf of the same kind and token that holds `literal`; it keeps the place unless one is
given. -/
def splitOff (n : Node) (literal : String) (position : Option Position) : Node :=
  { kind := n.kind, literal := some literal, position := position.or n.position,
    inline := n.inline, token := n.token }

end Forest

end Hyperstory
