/-! Findings in story files and the places they are found at. -/
namespace Hyperstory

/-- A line and a column. Those of a document are counted from one. -/
structure Position where
  line : Int
  column : Int
  deriving DecidableEq, Repr

/-- A finding, with as much of its place as is known. -/
structure Located (α : Type) where
  what : α
  path : Option String := none
  line : Option Int := none
  column : Option Int := none
  deriving DecidableEq, Repr

namespace Located

variable {α : Type}

/-- Fills in the parts of the place that are still unknown. -/
def locate (d : Located α) (path : Option String) (position : Option Position) : Located α :=
  let d := if d.path.isNone then { d with path := path } else d
  match position, d.line with
  | some p, none => { d with line := some p.line, column := some p.column }
  | _, _ => d

def showNumber : Option Int → String
  | some n => toString n
  | none => "None"

def describe (d : Located α) (message : α → String) : String :=
  match d.path, d.line with
  | none, _ => message d.what
  | some p, some l => p ++ " (" ++ toString l ++ "," ++ showNumber d.column ++ "): " ++ message d.what
  | some p, none => p ++ ": " ++ message d.what

end Located

end Hyperstory
