import Hyperstory.Disk

/-! Patterns of paths. -/
namespace Hyperstory

inductive PatternError where
  | empty
  | rooted
  /-- Two stars stand in a name beside something else. -/
  | mixedStars
  /-- It names nothing. -/
  | nameless
  /-- It names nothing but the directory itself. -/
  | namelessDirectory
  deriving DecidableEq, Repr

inductive Wild where
  | many
  | one
  | char (c : Char)
  | range (negated : Bool) (ranges : List (Char × Char))
  deriving DecidableEq, Repr

namespace Wild

def admits : Wild → Char → Bool
  | many, _ => false
  | one, _ => true
  | char c, d => c == d
  | range negated rs, d =>
    let n := Text.Half.code d
    rs.any (fun (a, b) => Text.Half.code a ≤ n && n ≤ Text.Half.code b) != negated

/-- For every place of a list, whether `true` stands there or behind it. -/
def anyFrom : List Bool → List Bool
  | [] => []
  | b :: bs =>
    let rest := anyFrom bs
    (b || rest.headD false) :: rest

/-- For every suffix of a text, the longest first, whether the pattern matches the whole of it. -/
def matchSuffixes : List Wild → List Char → List Bool
  | [], cs => cs.map (fun _ => false) ++ [true]
  | many :: ws, cs => anyFrom (matchSuffixes ws cs)
  | w :: ws, cs =>
    List.zipWith (fun c b => w.admits c && b) cs (matchSuffixes ws cs).tail ++ [false]

def isMatch (ws : List Wild) (cs : List Char) : Bool := (matchSuffixes ws cs).headD false

/-- Cuts the text of a class at the hyphens that make ranges: there is a character before each, and
two between any two of them. `held` is the part read so far, and `wait` how many characters come
before the next hyphen can count. -/
def cutRanges (held : List Char) : Nat → List Char → List (List Char)
  | _, [] => [held]
  | 0, '-' :: cs => held :: cutRanges [] 2 cs
  | wait, c :: cs => cutRanges (held ++ [c]) (wait - 1) cs

/-- A hyphen at the end stands for itself. -/
def closeRanges (chunks : List (List Char)) : List (List Char) :=
  match chunks.reverse with
  | [] :: last :: rest => ((last ++ ['-']) :: rest).reverse
  | _ => chunks

/-- Leaves out ranges whose ends are in the wrong order, from the last to the first. -/
def dropEmptyRanges : List (List Char) → List (List Char)
  | [] => []
  | chunk :: rest =>
    match dropEmptyRanges rest with
    | next :: more =>
      match chunk.getLast?, next with
      | some a, b :: tail =>
        if Text.Half.code b < Text.Half.code a then (chunk.dropLast ++ tail) :: more
        else chunk :: next :: more
      | _, _ => chunk :: next :: more
    | [] => [chunk]

def singles (cs : List Char) : List (Char × Char) := cs.map fun c => (c, c)

/-- The ranges between chunks, and the characters inside of them. -/
def rangesOf : List (List Char) → List (Char × Char)
  | [] => []
  | [chunk] => singles chunk
  | chunk :: next :: rest =>
    match chunk.getLast?, next.head? with
    | some a, some b => (a, b) :: singles chunk ++ rangesOf (next :: rest)
    | _, _ => singles chunk ++ rangesOf (next :: rest)

def ofClass (text : List Char) : Wild :=
  let wait := if text.head? == some '!' then 2 else 1
  let chunks := dropEmptyRanges (closeRanges (cutRanges [] wait text))
  match chunks with
  | ('!' :: first) :: rest =>
    let chunks := first :: rest
    if chunks == [[]] then one else range true (rangesOf chunks)
  | _ => range false (rangesOf chunks)

/-- The text of a class behind its opening bracket, and the rest. A closing bracket that stands first
is part of it. -/
def splitClass? (cs : List Char) : Option (List Char × List Char) :=
  let bang := if cs.head? == some '!' then 1 else 0
  let lead := if (cs.drop bang).head? == some ']' then bang + 1 else bang
  let body := (cs.drop lead).takeWhile (· != ']')
  match cs.drop (lead + body.length) with
  | ']' :: rest => some (cs.take lead ++ body, rest)
  | _ => none

/-- Reads the pattern of a name; at most `n` parts. -/
def readUpTo : Nat → List Char → List Wild
  | 0, _ => []
  | _, [] => []
  | n + 1, c :: cs =>
    if c == '*' then many :: readUpTo n cs
    else if c == '?' then one :: readUpTo n cs
    else if c == '[' then
      match splitClass? cs with
      | some (text, rest) => ofClass text :: readUpTo n rest
      | none => char c :: readUpTo n cs
    else char c :: readUpTo n cs

def read (s : String) : List Wild := readUpTo s.length s.toList

end Wild

inductive GlobStep where
  /-- Any depth of directories, also none. -/
  | deep
  | wild (parts : List Wild)
  | name (s : String)
  /-- Stays; only directories can stand before it. -/
  | here
  deriving DecidableEq, Repr

abbrev Glob := List GlobStep

namespace Glob

def hasTwoStars : List Char → Bool
  | '*' :: '*' :: _ => true
  | _ :: cs => hasTwoStars cs
  | [] => false

def stepOf (s : String) : Except PatternError GlobStep :=
  if s == "**" then .ok .deep
  else if hasTwoStars s.toList then .error .mixedStars
  else if s.toList.any fun c => c == '*' || c == '?' || c == '[' then .ok (.wild (Wild.read s))
  else .ok (.name s)

/-- Reads a pattern. A slash at its end restricts it to directories. -/
def parse (s : String) : Except PatternError Glob := do
  if s == "" then .error .empty
  else if s.toList.head? == some '/' then .error .rooted
  else
    let slash := s.toList.getLast? == some '/'
    match Path.namesIn s with
    | [] => .error (if slash then .namelessDirectory else .nameless)
    | names => do
      let steps ← names.mapM stepOf
      .ok (if slash then steps ++ [.here] else steps)

/-- The directory that a path below a base directory leads to. It cannot be read if the path is too
long. -/
def scan (d : Disk) (base : Location) (p : List String) : Except DiskError (Option Location) :=
  match d.locate [] (Path.ofLocation (base ++ p)) with
  | .ok l => .ok (some l)
  | .error .tooLong => .error .tooLong
  | .error _ => .ok none

/-- The paths that a step leads to from a path below a base directory. Only directories can stand
before another step; `last` says that there is none. Names are read from the directory, and two stars
have all directories below it read. -/
def step (d : Disk) (base : Location) (last : Bool) (p : List String) :
    GlobStep → Except DiskError (List (List String))
  | .here => .ok [p]
  | .name n => do
    let path := Path.ofLocation (base ++ p ++ [n])
    let found ← if last then d.has [] path else d.isDirectory [] path
    .ok (if found then [p ++ [n]] else [])
  | .wild ws => do
    match ← scan d base p with
    | none => .ok []
    | some l =>
      .ok (((d.namesAt l).filter fun n =>
        Wild.isMatch ws n.toList && (last || d.isDirectoryAt (l ++ [n]))).map fun n => p ++ [n])
  | .deep => do
    match ← scan d base p with
    | none => .ok []
    | some l =>
      let below := (d.directoriesBelow l).map (p ++ ·)
      let _ ← below.mapM (scan d base)
      .ok (p :: below)

/-- The paths that a pattern leads to from some paths below a base directory, each once. -/
def select (d : Disk) (base : Location) :
    Glob → List (List String) → Except DiskError (List (List String))
  | [], ps => .ok ps
  | s :: rest, ps => do
    let found ← ps.mapM fun p => step d base rest.isEmpty p s
    select d base rest found.flatten.eraseDups

def files (d : Disk) (base : Location) (g : Glob) : Except DiskError (List (List String)) := do
  if d.isDirectoryAt base then
    let found ← g.select d base [[]]
    found.filterM fun p => d.isFile [] (Path.ofLocation (base ++ p))
  else .ok []

end Glob

end Hyperstory
