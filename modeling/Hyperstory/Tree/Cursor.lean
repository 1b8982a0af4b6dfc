import Hyperstory.Tree.Forest

/-! A walk over a tree that finds its way by the links of the node it stands on. -/
namespace Hyperstory

/-- A visit: containers are entered and left, leaves are entered only. -/
structure Visit where
  node : NodeId
  entering : Bool
  deriving DecidableEq, Repr

/-- Where a walk below `root` goes next; the walk is over when there is no current node. -/
structure Cursor where
  root : NodeId
  current : Option NodeId
  entering : Bool
  deriving DecidableEq, Repr

namespace Cursor

def start (root : NodeId) : Cursor := ⟨root, some root, true⟩

/-- The position after a visit. It is found before anyone acts on the visit, so the node just
visited may be taken out. -/
def after (t : Forest) (root : NodeId) (v : Visit) : Cursor :=
  let n := t.node v.node
  if v.entering && n.container then
    match n.links.firstChild with
    | some c => ⟨root, some c, true⟩
    | none => ⟨root, some v.node, false⟩
  else if v.node = root then ⟨root, none, v.entering⟩
  else
    match n.links.next with
    | some s => ⟨root, some s, true⟩
    | none => ⟨root, n.links.parent, false⟩

def next? (t : Forest) (c : Cursor) : Option (Visit × Cursor) :=
  c.current.map fun i => (⟨i, c.entering⟩, after t c.root ⟨i, c.entering⟩)

def resumeAt (c : Cursor) (i : NodeId) (entering : Bool) : Cursor :=
  { c with current := some i, entering := entering }

end Cursor

namespace Forest

/-- The visits of a walk from `c`, `none` if there are more than `limit`. -/
def visitsUpTo (t : Forest) : Nat → Cursor → Option (List Visit)
  | limit, c =>
    match c.next? t with
    | none => some []
    | some (v, c') =>
      match limit with
      | 0 => none
      | limit + 1 => (t.visitsUpTo limit c').map (v :: ·)

/-- A walk that ends has fewer visits than this: each node is entered and left at most once. -/
def visitBound (t : Forest) : Nat := 2 * t.size + 1

/-- All visits of a walk below `root`, `none` if the links run in a circle. -/
def visits? (t : Forest) (root : NodeId) : Option (List Visit) :=
  t.visitsUpTo t.visitBound (.start root)

end Forest

end Hyperstory
