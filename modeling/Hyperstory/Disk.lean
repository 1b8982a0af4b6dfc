import Hyperstory.Path
import Hyperstory.Text.Half

/-! A directory tree and the changes that can be made to it. All that it holds are regular files and
directories: there are no symbolic links, and nobody is denied access. -/
namespace Hyperstory

inductive Item where
  | file (bytes : ByteArray)
  | directory

instance : DecidableEq Item
  | .file a, .file b =>
    match ByteArray.instDecidableEq a b with
    | .isTrue h => .isTrue (congrArg Item.file h)
    | .isFalse h => .isFalse fun e => h (Item.file.inj e)
  | .directory, .directory => .isTrue rfl
  | .file _, .directory => .isFalse Item.noConfusion
  | .directory, .file _ => .isFalse Item.noConfusion

inductive DiskError where
  /-- Something on the way is missing. -/
  | notFound
  /-- A directory stands where a file must. -/
  | isDirectory
  /-- A file stands where a directory must. -/
  | notDirectory
  | alreadyExists
  /-- A file would be copied onto itself. -/
  | sameFile
  /-- A directory is not empty, or is not named as itself. -/
  | notRemovable
  /-- A path has a character that no name can have. -/
  | unnameable
  /-- A path or a text has a half of a surrogate pair. -/
  | unencodable
  | tooLong
  deriving DecidableEq, Repr

namespace Path

/-- Why no name can be what a text says. Halves that stand for bytes can be part of a name. -/
def nameTrouble? (name : String) : Option DiskError :=
  if name.toList.any fun c => Text.Half.isHalf c && !Text.Half.isByte c then some .unencodable
  else if name.toList.contains '\x00' then some .unnameable
  else none

/-- Why a path leads nowhere, whatever the directory tree is. -/
def trouble? (p : Path) : Option DiskError := p.names.findSome? nameTrouble?

def maxNameSize : Nat := 255

def maxSize : Nat := 4095

end Path

/-- A directory tree: what stands at each place below the root. -/
structure Disk where
  entries : List (Location × Item) := []

namespace Disk

/-- What stands at a place; the root is a directory. -/
def get? (d : Disk) (l : Location) : Option Item :=
  if l.isEmpty then some .directory else d.entries.lookup l

def erase (d : Disk) (l : Location) : Disk := ⟨d.entries.filter (·.1 != l)⟩

def put (d : Disk) (l : Location) (i : Item) : Disk := ⟨(l, i) :: (d.erase l).entries⟩

def isDirectoryAt (d : Disk) (l : Location) : Bool := d.get? l == some .directory

def namesAt (d : Disk) (l : Location) : List String :=
  d.entries.filterMap fun (m, _) => if m.dropLast == l then m.getLast? else none

def directoriesBelow (d : Disk) (l : Location) : List (List String) :=
  d.entries.filterMap fun (m, i) =>
    if i == .directory && m.isBelow l then some (m.drop l.length) else none

/-- Where names lead from a place. All but the last lead to directories that are there. -/
def walk (d : Disk) : Location → List String → Except DiskError Location
  | l, [] => .ok l
  | l, name :: rest =>
    match d.get? l with
    | none => .error .notFound
    | some (.file _) => .error .notDirectory
    | some .directory =>
      if Path.maxNameSize < name.utf8ByteSize then .error .tooLong else d.walk (l.step name) rest

def locate (d : Disk) (cwd : Location) (p : Path) : Except DiskError Location :=
  match p.trouble? with
  | some e => .error e
  | none =>
    if Path.maxSize < p.text.utf8ByteSize then .error .tooLong
    else d.walk (p.start cwd) p.names

/-- The place that a path leads to, and what stands there. -/
def find (d : Disk) (cwd : Location) (p : Path) : Except DiskError (Location × Item) := do
  let l ← d.locate cwd p
  match d.get? l with
  | some i => .ok (l, i)
  | none => .error .notFound

/-- Whether a path leads to what is asked for. One that leads nowhere does not, but one that is too
long leaves the question open. -/
def ask (d : Disk) (cwd : Location) (p : Path) (wanted : Item → Bool) : Except DiskError Bool :=
  match d.find cwd p with
  | .ok (_, i) => .ok (wanted i)
  | .error .tooLong => .error .tooLong
  | .error _ => .ok false

def has (d : Disk) (cwd : Location) (p : Path) : Except DiskError Bool := d.ask cwd p fun _ => true

def isDirectory (d : Disk) (cwd : Location) (p : Path) : Except DiskError Bool :=
  d.ask cwd p fun i => i == .directory

def isFile (d : Disk) (cwd : Location) (p : Path) : Except DiskError Bool :=
  d.ask cwd p fun i => i != .directory

def names (d : Disk) (cwd : Location) (p : Path) : List String :=
  match d.find cwd p with
  | .ok (l, .directory) => d.namesAt l
  | _ => []

def read (d : Disk) (cwd : Location) (p : Path) : Except DiskError ByteArray := do
  match ← d.find cwd p with
  | (_, .file bytes) => .ok bytes
  | (_, .directory) => .error .isDirectory

/-- Writes a file, which replaces a file that is there. -/
def write (d : Disk) (cwd : Location) (p : Path) (bytes : ByteArray) : Except DiskError Disk := do
  let l ← d.locate cwd p
  if d.isDirectoryAt l then .error .isDirectory else .ok (d.put l (.file bytes))

def makeDirectory (d : Disk) (cwd : Location) (p : Path) : Except DiskError Disk := do
  let l ← d.locate cwd p
  if (d.get? l).isSome then .error .alreadyExists else .ok (d.put l .directory)

/-- Makes a directory where nothing is; one that is there does as well. -/
def ensureDirectory (d : Disk) (cwd : Location) (p : Path) : Except DiskError Disk :=
  match d.makeDirectory cwd p with
  | .ok d => .ok d
  | .error e =>
    if e = .notFound then .error e
    else do
      let there ← d.isDirectory cwd p
      if there then .ok d else .error e

/-- Makes a directory and, where they are missing, the directories that it lies in. Its names are
given from the last to the first. What was made stays when the rest fails. -/
def ensureDirectories (d : Disk) (cwd : Location) (root : PathRoot) :
    List String → Disk × Option DiskError
  | [] =>
    match d.ensureDirectory cwd ⟨root, []⟩ with
    | .ok d => (d, none)
    | .error e => (d, some e)
  | name :: above =>
    let path : Path := ⟨root, (name :: above).reverse⟩
    match d.ensureDirectory cwd path with
    | .ok d => (d, none)
    | .error .notFound =>
      match d.ensureDirectories cwd root above with
      | (d, some e) => (d, some e)
      | (d, none) =>
        match d.ensureDirectory cwd path with
        | .ok d => (d, none)
        | .error e => (d, some e)
    | .error e => (d, some e)

def removeFile (d : Disk) (cwd : Location) (p : Path) : Except DiskError Disk := do
  match ← d.find cwd p with
  | (l, .file _) => .ok (d.erase l)
  | (_, .directory) => .error .isDirectory

def removeDirectory (d : Disk) (cwd : Location) (p : Path) : Except DiskError Disk := do
  match ← d.find cwd p with
  | (_, .file _) => .error .notDirectory
  | (l, .directory) =>
    if p.names.isEmpty || p.names.getLast? == some ".." || !(d.namesAt l).isEmpty then
      .error .notRemovable
    else .ok (d.erase l)

def isSame (d : Disk) (cwd : Location) (p q : Path) : Bool :=
  match d.find cwd p, d.find cwd q with
  | .ok (l, _), .ok (m, _) => l == m
  | _, _ => false

def copy (d : Disk) (cwd : Location) (source target : Path) : Except DiskError Disk :=
  match source.trouble?.or target.trouble? with
  | some e => .error e
  | none =>
    if d.isSame cwd source target then .error .sameFile
    else do
      let bytes ← d.read cwd source
      d.write cwd target bytes

end Disk

end Hyperstory
