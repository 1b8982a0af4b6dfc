/-! Paths as they are written, and the places they lead to. -/
namespace Hyperstory

/-- A place in a directory tree: the names from the root down. -/
abbrev Location := List String

namespace Location

/-- The place with a slash before each name. -/
def text (l : Location) : String := "/" ++ "/".intercalate l

/-- One place lies in the directory at another, or deeper. -/
def isBelow (inner outer : Location) : Bool :=
  outer.isPrefixOf inner && decide (outer.length < inner.length)

/-- Goes one step: two points lead one up, and stay at the root. -/
def step (l : Location) (name : String) : Location :=
  if name == ".." then l.dropLast else l ++ [name]

def relativeTo : Location → Location → List String
  | target, [] => target
  | [], base => base.map fun _ => ".."
  | n :: target, m :: base =>
    if n == m then relativeTo target base else (m :: base).map (fun _ => "..") ++ n :: target

end Location

inductive PathRoot where
  | here
  | slash
  /-- At the root, which is written with two slashes. -/
  | slashes
  deriving DecidableEq, Repr

namespace PathRoot

/-- Reads the beginning of a path. Only exactly two slashes are kept apart. -/
def ofChars : List Char → PathRoot
  | '/' :: '/' :: '/' :: _ => slash
  | '/' :: '/' :: _ => slashes
  | '/' :: _ => slash
  | _ => here

def text : PathRoot → String
  | here => ""
  | slash => "/"
  | slashes => "//"

end PathRoot

structure Path where
  root : PathRoot := .here
  names : List String := []
  deriving DecidableEq, Repr

namespace Path

/-- The names in a text; empty ones and single points count for nothing. -/
def namesIn (s : String) : List String :=
  ((s.toList.splitOn '/').map String.ofList).filter fun n => n != "" && n != "."

def ofString (s : String) : Path := ⟨.ofChars s.toList, namesIn s⟩

def ofLocation (l : Location) : Path := ⟨.slash, l⟩

/-- Writes a path; the working directory is a point. -/
def text (p : Path) : String :=
  if p.root = .here && p.names.isEmpty then "." else p.root.text ++ "/".intercalate p.names

/-- A path behind another, which it replaces if it begins at the root. -/
def join (p q : Path) : Path := if q.root = .here then { p with names := p.names ++ q.names } else q

def parent (p : Path) : Path := { p with names := p.names.dropLast }

def start (cwd : Location) (p : Path) : Location := if p.root = .here then cwd else []

/-- Where a path leads, whatever is there. -/
def resolve (cwd : Location) (p : Path) : Location := p.names.foldl Location.step (p.start cwd)

end Path

end Hyperstory
