import Hyperstory.Decimal.Shortest

/-! Tokens: the flat form of a document, in which containers open and close. -/
namespace Hyperstory

/-- Whether a token opens a container, closes one, or stands alone. -/
inductive Nesting where
  | opens
  | alone
  | closes
  deriving DecidableEq, Repr

inductive AttrValue where
  | text (s : String)
  | whole (n : Int)
  | decimal (x : Float)
  deriving Repr, Inhabited

namespace AttrValue

instance : Coe String AttrValue := ⟨text⟩

def shown : AttrValue → String
  | text s => s
  | whole n => toString n
  | decimal x => Decimal.text x

end AttrValue

/-- Attributes in the order in which they are written. -/
abbrev Attrs := List (String × AttrValue)

structure Token where
  kind : String
  tag : String := ""
  nesting : Nesting := .alone
  attrs : Attrs := []
  /-- The first line, and the line after the last. Those of a document are counted from zero. -/
  map : Option (Int × Int) := none
  children : Option (List Token) := none
  content : String := ""
  markup : String := ""
  info : String := ""
  block : Bool := false
  hidden : Bool := false
  deriving Repr, Inhabited

namespace Token

def kids (t : Token) : List Token := t.children.getD []

theorem sizeOf_kids_lt (t : Token) : sizeOf t.kids < sizeOf t := by
  cases t with
  | mk kind tag nesting attrs map children content markup info block hidden =>
    cases children with
    | none => simp [kids]
    | some cs => simp [kids]; omega

def attr? (t : Token) (name : String) : Option AttrValue := t.attrs.lookup name

end Token

/-- A place in a stream made from a tree: a token with its children, or the gap that a container
without its opening or closing token leaves. -/
inductive Slot where
  | missing
  | filled (token : Token) (children : Option (List Slot))
  deriving Inhabited

/-- What is wrong with a stream or a tree that no document has. -/
inductive Fault where
  /-- A source ends before the columns that a block's last line should have. -/
  | cut
  /-- A token stands where every container is closed. -/
  | unopened
  /-- A container has no closing token. -/
  | unclosed
  /-- An image has no token. -/
  | tokenless
  /-- A text has no literal. -/
  | wordless
  /-- A number stands where a destination is read. -/
  | numericDestination
  /-- A word is added to an attribute that is a number. -/
  | numericAttr
  deriving DecidableEq, Repr

namespace Attrs

/-- The attributes with the value of `name` set; a new name comes last. -/
def set (name : String) (value : AttrValue) : Attrs → Attrs
  | [] => [(name, value)]
  | (n, v) :: rest => if n == name then (n, value) :: rest else (n, v) :: set name value rest

/-- The attributes with a word added behind the value of `name`, which must be a text. -/
def join (name word : String) (attrs : Attrs) : Except Fault Attrs :=
  match attrs.lookup name with
  | some (.text s) => .ok (attrs.set name (.text (s ++ " " ++ word)))
  | some _ => .error .numericAttr
  | none => .ok (attrs.set name (.text word))

end Attrs

/-- The text of a destination. One that is missing or zero counts as empty. -/
def AttrValue.destination : Option AttrValue → Except Fault String
  | none => .ok ""
  | some (text s) => .ok s
  | some (whole n) => if n = 0 then .ok "" else .error .numericDestination
  | some (decimal x) => if x == 0 then .ok "" else .error .numericDestination

end Hyperstory
