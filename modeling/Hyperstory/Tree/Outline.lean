import Hyperstory.Tree.Cursor
import Hyperstory.Text.Quoted
import Hyperstory.Text.Replace

/-! A node written out, and a tree with one node on a line. -/
namespace Hyperstory

/-- A node as messages show it. -/
def Node.quoted (n : Node) : String :=
  "Node(" ++ Text.quoted n.kind ++ ", " ++ (n.literal.map Text.quoted).getD "None" ++ ")"

namespace Forest

def outlineLine (n : Node) (depth : Int) : String :=
  let literal := Text.replaceAll "\n" "\\n" (n.literal.getD "")
  String.join (List.replicate depth.toNat "  ") ++ n.kind ++ ": " ++ literal

/-- The lines for a list of visits; leaving a container ends its indentation. -/
def outlineLines (t : Forest) : Int → List Visit → List String
  | _, [] => []
  | depth, v :: vs =>
    let n := t.node v.node
    if n.container then
      if v.entering then outlineLine n depth :: outlineLines t (depth + 1) vs
      else outlineLines t (depth - 1) vs
    else outlineLine n depth :: outlineLines t depth vs

/-- The tree below `root`, indented by depth. -/
def outline (t : Forest) (root : NodeId) : String :=
  "\n".intercalate (outlineLines t 0 ((t.visits? root).getD []))

end Forest

end Hyperstory
