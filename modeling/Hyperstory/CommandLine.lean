import Hyperstory.Text.Digit
import Hyperstory.Text.Quoted
import Hyperstory.Watch

/-! The command line. -/
namespace Hyperstory

inductive Command where
  | compile
  | watch
  deriving DecidableEq, Repr

namespace Command

def byName : List (String × Command) := [("compile", compile), ("watch", watch)]

def ofString? (s : String) : Option Command := byName.lookup s

end Command

inductive Switch where
  | help
  | dryRun
  | verbose
  | debug
  deriving DecidableEq, Repr

namespace Switch

def spellings : List (String × Switch) :=
  [("-h", help), ("--help", help), ("--dry-run", dryRun), ("--verbose", verbose), ("--debug", debug)]

def ofString? (s : String) : Option Switch := spellings.lookup s

/-- All that can be written for a switch. -/
def title (s : Switch) : String := "/".intercalate ((spellings.filter (·.2 == s)).map (·.1))

end Switch

inductive UsageError where
  | missing (names : List String)
  | invalidCommand (value : String)
  | unrecognized (arguments : List String)
  | ambiguous (argument : String) (switches : List String)
  | ignoredValue (s : Switch) (value : String)
  deriving DecidableEq, Repr

inductive Usage where
  | help
  | error (e : UsageError)
  deriving DecidableEq, Repr

namespace Usage

def form : String :=
  "usage: fractive [-h] [--dry-run] [--verbose] [--debug] \x7bcompile,watch\x7d path\n"

def helpText : String := form ++ "
Compiles a Fractive story project into a playable html file

positional arguments:
  \x7bcompile,watch\x7d
  path             Story directory (containing fractive.yaml/fractive.json) or
                   project file path

options:
  -h, --help       show this help message and exit
  --dry-run        Log what would've been done, but don't touch any files
  --verbose        Log more detailed build information
  --debug          Log debugging information during the build

Example: python -m fractive compile ~/Stories/MyStory --verbose
"

end Usage

namespace UsageError

def message : UsageError → String
  | missing names => "the following arguments are required: " ++ ", ".intercalate names
  | invalidCommand v =>
    "argument command: invalid choice: " ++ Text.quoted v ++ " (choose from " ++
      ", ".intercalate (Command.byName.map fun (name, _) => Text.quoted name) ++ ")"
  | unrecognized l => "unrecognized arguments: " ++ " ".intercalate l
  | ambiguous a l => "ambiguous option: " ++ a ++ " could match " ++ ", ".intercalate l
  | ignoredValue s v => "argument " ++ s.title ++ ": ignored explicit argument " ++ Text.quoted v

def report (e : UsageError) : String := Usage.form ++ "fractive: error: " ++ e.message ++ "\n"

end UsageError

inductive Argument where
  | plain (s : String)
  /-- All arguments behind it are plain. -/
  | divider
  | switch (s : Switch)
  | switchWith (s : Switch) (value : String)
  | letters (s : Switch) (cs : List Char)
  | unknown (s : String)
  deriving DecidableEq, Repr

namespace Argument

/-- The argument as it was given; switches do not need it. -/
def given : Argument → String
  | plain s => s
  | divider => "--"
  | unknown s => s
  | _ => ""

/-- The argument can be a command or a path, or stand beside one. -/
def isPlain : Argument → Bool
  | plain _ | divider => true
  | _ => false

/-- A text is a negative number; a line may end behind it. -/
def isNegativeNumber : List Char → Bool
  | '-' :: cs =>
    let cs := if cs.getLast? == some '\n' then cs.dropLast else cs
    match cs.dropWhile Text.isDigit with
    | [] => !cs.isEmpty
    | '.' :: more => !more.isEmpty && more.all Text.isDigit
    | _ => false
  | _ => false

/-- A text before the first equals sign, and the one behind it. -/
def splitValue (s : String) : String × Option String :=
  let name := s.toList.takeWhile (· != '=')
  match s.toList.drop name.length with
  | _ :: value => (String.ofList name, some (String.ofList value))
  | [] => (s, none)

def ofSwitch (s : Switch) : Option String → Argument
  | some v => switchWith s v
  | none => switch s

def ofLetter? (c : Char) : Option Switch := Switch.ofString? (String.ofList ['-', c])

/-- What an argument stands for that begins with a hyphen and is not written out. The beginning of a
long switch will do. -/
def ofHyphen (s : String) : Except UsageError Argument :=
  let other : Argument :=
    if isNegativeNumber s.toList || s.toList.contains ' ' then plain s else unknown s
  match s.toList with
  | '-' :: '-' :: _ =>
    let (name, value) := splitValue s
    match Switch.spellings.filter fun (t, _) => name.toList.isPrefixOf t.toList with
    | [] => .ok other
    | [(_, found)] => .ok (ofSwitch found value)
    | several => .error (.ambiguous s (several.map (·.1)))
  | '-' :: c :: cs =>
    match ofLetter? c with
    | some found => .ok (letters found cs)
    | none => .ok other
  | _ => .ok other

/-- What an argument stands for. What stands behind a switch of one letter and an equals sign is taken
for letters. -/
def ofString (s : String) : Except UsageError Argument :=
  if s.toList.head? != some '-' then .ok (plain s)
  else
    match Switch.ofString? s with
    | some found => .ok (switch found)
    | none =>
      if s == "-" then .ok (plain s)
      else
        match splitValue s with
        | (name, some value) =>
          match Switch.ofString? name with
          | some found =>
            .ok (if name.length = 2 && !value.isEmpty then letters found value.toList
              else switchWith found value)
          | none => ofHyphen s
        | (_, none) => ofHyphen s

def ofStrings : List String → Except UsageError (List Argument)
  | [] => .ok []
  | s :: rest =>
    if s == "--" then .ok (divider :: rest.map plain)
    else do
      let a ← ofString s
      let more ← ofStrings rest
      .ok (a :: more)

end Argument

structure Invocation where
  command : Option Command := none
  /-- The path; a lone divider in its place leaves it out. -/
  path : Option (Option String) := none
  options : BuildOptions := {}
  unrecognized : List String := []
  deriving DecidableEq, Repr

namespace Invocation

def set (i : Invocation) : Switch → Except Usage Invocation
  | .help => .error .help
  | .dryRun => .ok { i with options := { i.options with dryRun := true } }
  | .verbose => .ok { i with options := { i.options with verbose := true } }
  | .debug => .ok { i with options := { i.options with debug := true } }

/-- A switch and the letters behind it, each of which must be a switch. -/
def readLetters (s : Switch) : List Char → Except UsageError (List Switch)
  | [] => .ok [s]
  | c :: cs =>
    match Argument.ofLetter? c with
    | none => .error (.ignoredValue s (String.ofList (c :: cs)))
    | some t => do
      let more ← readLetters t cs
      .ok (s :: more)

/-- Takes the first plain argument, with the dividers around it. -/
def takePlain? (l : List Argument) : Option (Option String × List Argument) :=
  let before := l.takeWhile (· == .divider)
  match l.drop before.length with
  | .plain s :: rest =>
    let after := rest.takeWhile (· == .divider)
    some (if s == "--" && (before ++ after).isEmpty then none else some s, rest.drop after.length)
  | _ => none

def takePath (i : Invocation) (l : List Argument) : Invocation :=
  let (path, rest) :=
    match i.path with
    | some _ => (i.path, l)
    | none =>
      match takePlain? l with
      | some (s, rest) => (some s, rest)
      | none => (none, l)
  { i with path := path, unrecognized := i.unrecognized ++ rest.map Argument.given }

/-- Takes a command and a path, where they are still missing, from plain arguments. -/
def takePlains (i : Invocation) (l : List Argument) : Except Usage Invocation :=
  match i.command with
  | some _ => .ok (i.takePath l)
  | none =>
    match takePlain? l with
    | none => .ok { i with unrecognized := i.unrecognized ++ l.map Argument.given }
    | some (s, rest) =>
      match Command.ofString? (s.getD "") with
      | some c => .ok ({ i with command := some c }.takePath rest)
      | none => .error (.error (.invalidCommand (s.getD "")))

def takeSwitch (i : Invocation) : Argument → Except Usage Invocation
  | .switch s => i.set s
  | .switchWith s v => .error (.error (.ignoredValue s v))
  | .letters s cs =>
    match readLetters s cs with
    | .error e => .error (.error e)
    | .ok switches => switches.foldlM set i
  | a => .ok { i with unrecognized := i.unrecognized ++ [a.given] }

/-- Takes arguments in order; plain ones that stand beside each other are taken together. -/
def takeAll (i : Invocation) (plains : List Argument) : List Argument → Except Usage Invocation
  | [] => if plains.isEmpty then .ok i else i.takePlains plains
  | a :: rest =>
    if a.isPlain then takeAll i (plains ++ [a]) rest
    else do
      let i ← if plains.isEmpty then .ok i else i.takePlains plains
      let i ← i.takeSwitch a
      takeAll i [] rest

end Invocation

structure CommandLine where
  command : Command
  path : Option String
  options : BuildOptions
  deriving DecidableEq, Repr

namespace CommandLine

def parse (arguments : List String) : Except Usage CommandLine :=
  match Argument.ofStrings arguments with
  | .error e => .error (.error e)
  | .ok l => do
    let i ← Invocation.takeAll {} [] l
    match i.command, i.path with
    | some c, some p =>
      if i.unrecognized.isEmpty then .ok ⟨c, p, i.options⟩
      else .error (.error (.unrecognized i.unrecognized))
    | some _, none => .error (.error (.missing ["path"]))
    | none, _ => .error (.error (.missing ["command", "path"]))

def shows (c : CommandLine) (r : LogRecord) : Bool :=
  c.options.verbose || c.options.debug || r.level != .debug

/-- Runs a command line whose path is known. Gives the exit code. -/
def perform (c : CommandLine) (path : String) (incidents : List Incident) (interrupted : Bool) :
    Run Nat :=
  match c.command with
  | .watch => do
    watch (.ofString path) c.options incidents interrupted
    pure 0
  | .compile => do
    let done ← build (.ofString path) c.options
    pure (if done then 0 else 1)

/-- Runs a command line; what is wrong with the project is reported. -/
def run (c : CommandLine) (incidents : List Incident) (interrupted : Bool) : Run Nat :=
  match c.path with
  | none => throw .pathless
  | some path =>
    tryCatch (c.perform path incidents interrupted) fun
      | .project e => do
        Run.log .error ("Error: " ++ e.message)
        pure 1
      | e => throw e

end CommandLine

end Hyperstory
