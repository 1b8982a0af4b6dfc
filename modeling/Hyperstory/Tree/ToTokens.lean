import Hyperstory.Tree.Forest

/-! The token stream of a tree. -/
namespace Hyperstory

def Slot.ofToken (t : Token) : Slot :=
  .filled t (t.children.map fun _ => t.kids.attach.map fun ⟨k, _⟩ => Slot.ofToken k)
termination_by sizeOf t
decreasing_by
  have h := List.sizeOf_lt_of_mem ‹k ∈ t.kids›
  have := t.sizeOf_kids_lt
  omega

def Slot.ofToken? : Option Token → Slot
  | some t => .ofToken t
  | none => .missing

namespace Forest

def leafSlot (n : Node) : Slot :=
  match n.token, n.literal with
  | none, literal => .filled { kind := n.kind, content := literal.getD "" } none
  | some t, none => .ofToken t
  | some t, some literal => .ofToken { t with content := literal }

/-- Runs of inline content become inline tokens; what is not inline stands by itself. -/
def groupRuns : List Slot → List (Bool × List Slot) → List Slot
  | [], [] => []
  | run, [] => [.filled { kind := "inline" } (some run)]
  | run, (true, slots) :: rest => groupRuns (run ++ slots) rest
  | [], (false, slots) :: rest => slots ++ groupRuns [] rest
  | run, (false, slots) :: rest =>
    .filled { kind := "inline" } (some run) :: (slots ++ groupRuns [] rest)

/-- How the children of a node are laid out. -/
inductive Layout where
  | inline
  | block
  deriving DecidableEq, Repr

def slotsBelow (t : Forest) : Nat → Layout → NodeId → Except Fault (List Slot)
  | 0, _, _ => .ok []
  | depth + 1, layout, i => do
    let parts ← (t.children i).mapM fun c => do
      let n := t.node c
      let slots ←
        if n.kind == "image" then
          match n.token with
          | none => .error .tokenless
          | some tok => do
            let inner ← t.slotsBelow depth .inline c
            .ok [Slot.filled tok (some inner)]
        else if n.container then do
          let inner ← t.slotsBelow depth (if n.inline then .inline else .block) c
          .ok (Slot.ofToken? n.token :: inner ++ [Slot.ofToken? n.closing])
        else .ok [leafSlot n]
      .ok (n.inline, slots)
    match layout with
    | .inline => .ok (parts.flatMap (·.2))
    | .block => .ok (groupRuns [] parts)

def toTokens (t : Forest) (i : NodeId) : Except Fault (List Slot) := t.slotsBelow (t.size + 1) .block i

def inlineTokens (t : Forest) (i : NodeId) : Except Fault (List Slot) :=
  t.slotsBelow (t.size + 1) .inline i

end Forest

end Hyperstory
