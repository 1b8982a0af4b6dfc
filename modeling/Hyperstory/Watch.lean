import Hyperstory.Build

/-! Rebuilding a project when its files change. -/
namespace Hyperstory

def rebuild (path : Path) (o : BuildOptions) : Run Bool :=
  tryCatch (build path o) fun
    | .project e => do
      Run.log .error e.message
      pure false
    | e => throw e

inductive ChangeKind where
  | modified
  | created
  | deleted
  | moved (target : Path)
  /-- It was looked at, and is as it was. -/
  | inspected
  deriving DecidableEq, Repr

namespace ChangeKind

/-- The kind in a word; nothing changes when a file is looked at. -/
def word? : ChangeKind → Option String
  | modified => some "modified"
  | created => some "created"
  | deleted => some "deleted"
  | moved _ => some "moved"
  | inspected => none

end ChangeKind

structure FileEvent where
  kind : ChangeKind
  path : Path
  isDirectory : Bool := false
  deriving DecidableEq, Repr

/-- Rebuilds a project when its files change. -/
structure Watcher where
  file : Location
  /-- The output directory when the project file was read last; what is written there is no reason to
  build again. -/
  output : Location
  options : BuildOptions
  deriving DecidableEq, Repr

namespace Watcher

def base (w : Watcher) : Location := w.file.dropLast

def isSource (w : Watcher) (l : Location) : Bool :=
  !(l == w.output || l.isBelow w.output) && (l == w.file || l.isBelow w.base)

def readOutput (file : Location) : Run Location := do
  let p ← Project.load (.ofLocation file)
  p.resolveOutput

def start (path : Path) (o : BuildOptions) : Run Watcher := do
  let file ← Run.resolve path
  let output ← readOutput file
  Run.log .info "Handler initialized. Monitoring for changes..."
  pure ⟨file, output, o⟩

/-- Reads the output directory anew; reports what is wrong with the project. -/
def refresh (w : Watcher) : Run (Option Watcher) :=
  tryCatch (do pure (some { w with output := ← readOutput w.file })) fun
    | .project e => do
      Run.log .error e.message
      pure none
    | e => throw e

/-- Learns of an event. Gives what is known then, and whether the project has to be built. -/
def notice (w : Watcher) (e : FileEvent) : Run (Watcher × Bool) := do
  match e.isDirectory, e.kind.word? with
  | false, some word => do
    let l ← Run.resolve e.path
    if w.isSource l then
      Run.log .info ("Detected " ++ word ++ ": " ++ l.text)
      if w.file == l then
        match ← w.refresh with
        | none => pure (w, false)
        | some w => pure (w, true)
      else pure (w, true)
    else pure (w, false)
  | _, _ => pure (w, false)

/-- Builds the project if an event is about one of its sources. What was learned of the output
directory is kept when the build ends before its time. -/
def handle (w : Watcher) (e : FileEvent) : StateM Workspace (Watcher × Except Halt Unit) := do
  match ← (w.notice e).run with
  | .error h => pure (w, .error h)
  | .ok (w, false) => pure (w, .ok ())
  | .ok (w, true) => do
    match ← (rebuild (.ofLocation w.file) w.options).run with
    | .error h => pure (w, .error h)
    | .ok _ => pure (w, .ok ())

end Watcher

/-- Something that happens while a project is watched: files change, and an event tells of it. -/
structure Incident where
  change : Disk → Disk
  event : FileEvent

namespace Watcher

/-- Handles what happens, up to the first event that ends the run before its time. -/
def follow (w : Watcher) : List Incident → StateM Workspace (Except Halt Unit)
  | [] => pure (.ok ())
  | i :: rest => do
    modify fun s => { s with disk := i.change s.disk }
    match ← w.handle i.event with
    | (_, .error h) => pure (.error h)
    | (w, .ok ()) => w.follow rest

end Watcher

def Watcher.begin (path : Path) (o : BuildOptions) : Run Watcher := do
  let file ← Run.resolve (← Project.find path)
  let _ ← rebuild (.ofLocation file) o
  let w ← Watcher.start (.ofLocation file) o
  Run.report (.watching w.base)
  Run.log .info ("Watching " ++ w.base.text ++ " for changes. Press Ctrl+C to stop.")
  pure w

/-- Builds a project, then builds it again for whatever happens. At the end the watching is
interrupted, or ends by itself. -/
def watch (path : Path) (o : BuildOptions) (incidents : List Incident) (interrupted : Bool) :
    Run Unit := do
  let w ← Watcher.begin path o
  tryCatch (ExceptT.mk (w.follow incidents)) fun h => do
    Run.report .stoppedWatching
    Run.log .info "Watcher stopped."
    throw h
  if interrupted then
    Run.log .info "Stopping watcher (Ctrl+C pressed)..."
    Run.report .stoppedWatching
  Run.log .info "Watcher stopped."

def FileEvent.between (before after : Disk) : List FileEvent :=
  let made := after.entries.filterMap fun (l, i) =>
    match before.get? l with
    | none => some ⟨.created, .ofLocation l, i == .directory⟩
    | some j => if i == j then none else some ⟨.modified, .ofLocation l, i == .directory⟩
  let gone := before.entries.filterMap fun (l, i) =>
    if (after.get? l).isNone then some ⟨.deleted, .ofLocation l, i == .directory⟩ else none
  gone ++ made

end Hyperstory
