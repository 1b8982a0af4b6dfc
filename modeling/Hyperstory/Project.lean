import Hyperstory.Run

/-! Projects: finding and loading them, and the files that belong to them. -/
namespace Hyperstory

structure Project where
  base : Location
  settings : Settings
  deriving DecidableEq, Repr

namespace Project

def path (p : Project) (s : String) : Path := (Path.ofLocation p.base).join (.ofString s)

def output (p : Project) : Location := (p.path p.settings.output).resolve []

def template (p : Project) : Location := (p.path p.settings.template).resolve []

/-- The project file that a path leads to, or that lies in the directory it leads to. -/
def find (path : Path) : Run Path := do
  if ← Run.ofDisk fun d cwd => d.isDirectory cwd path then
    let files := fileNames.map fun name => path.join ⟨.here, [name]⟩
    match ← Run.ofDisk fun d cwd => files.findM? (d.isFile cwd) with
    | some file => pure file
    | none => throw (.project (.noFileIn path))
  else if ← Run.ofDisk fun d cwd => d.isFile cwd path then pure path
  else throw (.project (.fileNotFound path))

def readSettings (file : Path) (bytes : ByteArray) : Except Halt Settings :=
  match Yaml.load (.ofBytes bytes) >>= Settings.ofData with
  | .error .malformed => .error (.project (.notParsed file))
  | .error .unreadable => .error .encoding
  | .error defect => .error (.settings defect)
  | .ok (.error problems) => .error (.project (.invalid file problems))
  | .ok (.ok s) => .ok s

def load (path : Path) : Run Project := do
  let file ← find path
  let bytes ← Run.ofDisk fun d cwd => d.read cwd file
  let settings ← readSettings file bytes
  Run.log .debug ("Loaded project " ++ file.text)
  let base ← Run.resolve file.parent
  pure ⟨base, settings⟩

/-- The files that patterns lead to, by the names from the project's directory. Two stars at the end
of a pattern lead to the files below. -/
def expand (p : Project) (d : Disk) (patterns : List String) : Except Halt (List String) := do
  let found ← patterns.mapM fun s => do
    let g ← (Glob.parse (if s.toList.reverse.take 2 == ['*', '*'] then s ++ "/*" else s)).mapError
      Halt.pattern
    let files ← (g.files d p.base).mapError Halt.disk
    pure (files.map "/".intercalate)
  pure found.flatten

def isOutput (p : Project) (file : String) : Bool := ((p.path file).resolve []).isBelow p.output

/-- The files that patterns lead to, each once and in order, without those that the project ignores
and those below its output directory. -/
def gatherFrom (p : Project) (d : Disk) (patterns : List String) : Except Halt (List String) := do
  let ignored ← p.expand d p.settings.ignore
  let found ← p.expand d patterns
  pure ((found.eraseDups.filter fun f => !ignored.contains f && !p.isOutput f).mergeSort
    Text.Half.isLe)

/-- The directories that hold all that a build can look at: patterns can lead up from the project's
directory. -/
def reach (p : Project) : List Location :=
  let s := p.settings
  let ups := (s.markdown ++ s.javascript ++ s.assets ++ s.ignore).map fun pattern =>
    (Path.namesIn pattern).count ".."
  let up := ups.foldl max 0
  [p.base.take (p.base.length - up), p.output, p.template.dropLast]

/-- The output directory of a project, if its name can be one. -/
def resolveOutput (p : Project) : Run Location := Run.resolve (p.path p.settings.output)

def resolveTemplate (p : Project) : Run Location := Run.resolve (p.path p.settings.template)

def gather (p : Project) (patterns : List String) : Run (List String) := do
  let _ ← p.resolveOutput
  match ← Run.look fun d _ => p.gatherFrom d patterns with
  | .ok files => pure files
  | .error h => throw h

end Project

end Hyperstory
