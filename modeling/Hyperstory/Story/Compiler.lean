import Hyperstory.Log
import Hyperstory.Story.Expansion
import Hyperstory.Tree.OfTokens
import Hyperstory.Tree.Outline

/-! One compiler for the files of a story: names and numbers are unique over all of them. -/
namespace Hyperstory

/-- What a compiler remembers from file to file, and of the last file. -/
structure Compiler where
  debug : Bool := false
  nextInline : Nat := 0
  sections : List String := []
  /-- How many sections the last file declared. -/
  sectionCount : Nat := 0
  /-- The names of the sections the last file declared. -/
  fileSections : List String := []
  deriving DecidableEq, Repr

/-- The outcome for one file, the compiler after it, and the log. -/
structure Compilation (α : Type) where
  outcome : α
  compiler : Compiler
  log : Log

namespace Compiler

def treeLog (c : Compiler) (title : String) (t : Forest) : Log :=
  if c.debug then [⟨.debug, title ++ "\n" ++ t.outline 0⟩] else []

def startFile (c : Compiler) : Compiler := { c with sectionCount := 0, fileSections := [] }

def withTally (c : Compiler) (tally : Tally) : Compiler :=
  { c with
    nextInline := tally.nextInline
    sectionCount := tally.count
    fileSections := tally.declared }

def page (t : Forest) : Except Failure String :=
  match t.toTokens 0 with
  | .error f => .error (.fault f)
  | .ok slots =>
    match Slot.render slots with
    | .error f => .error (.fault f)
    | .ok html => .ok html

def endSection (t : Forest) : Forest :=
  let (t, closing) := t.add { kind := "html_inline", literal := some Markup.sectionEnd }
  t.appendChild 0 closing

/-- Ends the last section of a file that has sections, and commits their names. -/
def finish (c : Compiler) (path : String) (t : Forest) : Compilation (Except Failure String) :=
  let t := t.stripEscapes 0
  match (t.links 0).firstChild with
  | none => ⟨.ok "", c, []⟩
  | some first =>
    if c.sectionCount = 0 then
      let d := Located.locate ⟨Cause.noSection, none, none, none⟩ (some path) (t.node first).position
      ⟨.error (.problem d), c, []⟩
    else
      let t := endSection t
      ⟨page t, { c with sections := c.fileSections ++ c.sections }, c.treeLog "FINAL AST" t⟩

def compileTree (c : Compiler) (path : String) (raw : Forest) :
    Compilation (Except Failure String) :=
  let rawLog := c.treeLog "RAW AST" raw
  match raw.mergeText 0 with
  | (_, some f) => ⟨.error (.fault f), c, rawLog⟩
  | (t, none) =>
    let log := rawLog ++ c.treeLog "CONSOLIDATED AST" t
    match Expansion.all path { nextInline := c.nextInline, taken := c.sections } t 0 with
    | (tally, .error e) => ⟨.error e, c.withTally tally, log⟩
    | (tally, .ok t) =>
      let r := (c.withTally tally).finish path t
      ⟨r.outcome, r.compiler, log ++ r.log⟩

def compileTokens (c : Compiler) (path : String) (tokens : List Token) :
    Compilation (Except Failure String) :=
  let c := c.startFile
  match Forest.ofTokens tokens with
  | .error f => ⟨.error (.fault f), c, []⟩
  | .ok t => c.compileTree path t

end Compiler

end Hyperstory
