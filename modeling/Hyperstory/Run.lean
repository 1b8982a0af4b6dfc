import Hyperstory.Log
import Hyperstory.Project.Error
import Hyperstory.Text.Newline

/-! Runs: what a program does to a directory tree, and what it reports. -/
namespace Hyperstory

/-- What an onlooker sees of a run. -/
inductive Happening where
  | logged (r : LogRecord)
  | watching (directory : Location)
  | stoppedWatching
  deriving DecidableEq, Repr

structure Workspace where
  disk : Disk := {}
  cwd : Location := []
  happenings : List Happening := []

/-- A run ends with a value or before its time. What it did until then stays done. -/
abbrev Run := ExceptT Halt (StateM Workspace)

namespace Run

def report (h : Happening) : Run Unit :=
  modify fun w => { w with happenings := w.happenings ++ [h] }

def log (level : LogLevel) (message : String) : Run Unit := report (.logged ⟨level, message⟩)

def logAction (action path : String) : Run Unit := log .info ("  " ++ action ++ " " ++ path)

def look {α : Type} (f : Disk → Location → α) : Run α := return f (← get).disk (← get).cwd

/-- Goes on with a result of the directory tree. -/
def ofDisk {α : Type} (f : Disk → Location → Except DiskError α) : Run α := do
  match ← look f with
  | .ok a => pure a
  | .error e => throw (.disk e)

def change (f : Disk → Location → Except DiskError Disk) : Run Unit := do
  let d ← ofDisk f
  modify fun w => { w with disk := d }

/-- Makes a directory and, where they are missing, the directories that it lies in. -/
def makeDirectories (p : Path) : Run Unit := do
  let (d, e) ← look fun d cwd => d.ensureDirectories cwd p.root p.names.reverse
  modify fun w => { w with disk := d }
  match e with
  | none => pure ()
  | some e => throw (.disk e)

/-- Where a path leads, whatever is there. -/
def resolve (p : Path) : Run Location :=
  match p.trouble? with
  | none => look fun _ cwd => p.resolve cwd
  | some e => throw (.disk e)

/-- The text of a file, with one kind of line ends. -/
def readText (p : Path) : Run String := do
  let bytes ← ofDisk fun d cwd => d.read cwd p
  match String.fromUTF8? bytes with
  | some s => pure (String.ofList (Text.unifyNewlines s.toList))
  | none => throw .encoding

end Run

end Hyperstory
