import Hyperstory.CommandLine
import Std.Time

/-! The program: runs command lines on the directories of the machine. -/
namespace Hyperstory.Main

/-- All that stands at a place or below it. -/
partial def readTree (l : Location) : IO (List (Location × Item)) := do
  let path := (← IO.currentDir) / l.text
  if ← path.isDir then
    let below ← (← path.readDir).toList.mapM fun entry => readTree (l ++ [entry.fileName])
    pure ((l, .directory) :: below.flatten)
  else if ← path.pathExists then pure [(l, .file (← IO.FS.readBinFile path))]
  else pure []

/-- The directory tree, as far as it lies below some places. -/
def readDisk (places : List Location) : IO Disk := do
  let mut disk : Disk := {}
  for place in places do
    for n in List.range place.length do
      disk := disk.put (place.take n) .directory
    for (l, i) in ← readTree place do
      disk := disk.put l i
  pure disk

/-- Makes the machine's directory tree what it is after a run. -/
def writeDisk (before after : Disk) : IO Unit := do
  let root ← IO.currentDir
  let gone := before.entries.filter fun (l, _) => !l.isEmpty && (after.get? l).isNone
  for (l, i) in gone.mergeSort fun a b => decide (b.1.length ≤ a.1.length) do
    match i with
    | .directory => IO.FS.removeDir (root / l.text)
    | .file _ => IO.FS.removeFile (root / l.text)
  let made := after.entries.filter fun (l, i) => !l.isEmpty && before.get? l != some i
  for (l, i) in made.mergeSort fun a b => decide (a.1.length ≤ b.1.length) do
    match i with
    | .directory => IO.FS.createDir (root / l.text)
    | .file bytes => IO.FS.writeBinFile (root / l.text) bytes

def printLog (c : CommandLine) (happenings : List Happening) : IO Unit := do
  for h in happenings do
    match h with
    | .logged r =>
      if c.shows r then
        let now ← Std.Time.PlainDateTime.now
        IO.eprintln (now.format "uuuu-MM-dd HH:mm:ss" ++ " - " ++ r.message)
    | _ => pure ()

def perform {α : Type} (c : CommandLine) (w : Workspace) (run : StateM Workspace α) :
    IO (α × Workspace) := do
  let (a, done) := run.run { w with happenings := [] }
  writeDisk w.disk done.disk
  printLog c done.happenings
  pure (a, done)

/-- The places that a command line can look at. -/
def placesOf (cwd : Location) (path : Path) : IO (List Location) := do
  let place := path.resolve cwd
  let places := [place, place.dropLast]
  let near := if ← ((← IO.currentDir) / place.text).isDir then [place] else places
  let disk ← readDisk near
  match (Project.load path).run.run { disk, cwd } with
  | (.ok p, _) => pure (near ++ p.reach)
  | (.error _, _) => pure near

/-- Builds the project again whenever its files change. -/
partial def follow (c : CommandLine) (path : Path) (w : Watcher) (before : Workspace) : IO Unit := do
  IO.sleep 1000
  let disk ← readDisk (← placesOf before.cwd path)
  let mut watcher := w
  let mut now := { before with disk }
  for e in FileEvent.between before.disk disk do
    let ((next, outcome), after) ← perform c now (watcher.handle e)
    watcher := next
    now := after
    match outcome with
    | .ok () => pure ()
    | .error h => throw (IO.userError h.message)
  follow c path watcher now

def runLine (c : CommandLine) (path : Path) : IO UInt32 := do
  let cwd := Path.namesIn (← IO.currentDir).toString
  let w : Workspace := { disk := ← readDisk (← placesOf cwd path), cwd }
  match c.command with
  | .compile => do
    match ← perform c w (c.run [] true).run with
    | (.ok code, _) => pure code.toUInt32
    | (.error h, _) => throw (IO.userError h.message)
  | .watch => do
    match ← perform c w (Watcher.begin path c.options).run with
    | (.ok watcher, after) =>
      follow c path watcher after
      pure 0
    | (.error (.project e), _) =>
      printLog c [.logged ⟨.error, "Error: " ++ e.message⟩]
      pure 1
    | (.error h, _) => throw (IO.userError h.message)

end Hyperstory.Main

def main (arguments : List String) : IO UInt32 := do
  match Hyperstory.CommandLine.parse arguments with
  | .error .help =>
    IO.print Hyperstory.Usage.helpText
    pure 0
  | .error (.error e) =>
    IO.eprint e.report
    pure 2
  | .ok c =>
    match c.path with
    | none => throw (IO.userError Hyperstory.Halt.pathless.message)
    | some path => Hyperstory.Main.runLine c (.ofString path)
