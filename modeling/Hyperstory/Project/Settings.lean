import Hyperstory.Yaml.Value

/-! The settings of a project. -/
namespace Hyperstory

structure Settings where
  title : String := "Untitled"
  author : String := "Anonymous"
  description : String := "An interactive story written in Fractive"
  website : String := "fractive.io"
  markdown : List String := ["source/**/*.md"]
  javascript : List String := ["source/**/*.js"]
  assets : List String := ["assets/**"]
  ignore : List String := []
  template : String := "template.html"
  output : String := "build"
  start : String := "Start"
  deriving DecidableEq, Repr

inductive SettingRule where
  | text
  | nonEmptyText
  | patterns
  | nonEmptyPatterns
  deriving DecidableEq, Repr

/-- What is wrong with the values of a project file. Values are given as they are shown. -/
inductive Violation where
  | notObject (value : String)
  | unknownSettings (names : List String)
  | notText (setting value : String)
  | emptyText (setting : String)
  | notPatterns (setting value : String)
  deriving DecidableEq, Repr

def Violation.message : Violation → String
  | notObject v => v ++ " is not of type 'object'"
  | unknownSettings names =>
    "Additional properties are not allowed (" ++ ", ".intercalate names ++
      (if names.length == 1 then " was" else " were") ++ " unexpected)"
  | notText s v => "'" ++ s ++ "': " ++ v ++ " is not of type 'string'"
  | emptyText s => "'" ++ s ++ "': '' should be non-empty"
  | notPatterns s v => "'" ++ s ++ "': " ++ v ++ " is not valid under any of the given schemas"

namespace Settings

def rules : List (String × SettingRule) :=
  [("assets", .patterns), ("author", .text), ("description", .text), ("ignore", .patterns),
    ("javascript", .patterns), ("markdown", .nonEmptyPatterns), ("output", .nonEmptyText),
    ("start", .nonEmptyText), ("template", .text), ("title", .text), ("website", .text)]

/-- The patterns that a value stands for; a single one may stand without a list. -/
def patterns? (d : Yaml.Data) (i : Yaml.NodeId) : Option (List String) :=
  match d.text? i with
  | some s => some [s]
  | none => d.texts? i

def admits (d : Yaml.Data) (i : Yaml.NodeId) : SettingRule → Bool
  | .text => (d.text? i).isSome
  | .nonEmptyText => (d.text? i).isSome && d.text? i != some ""
  | .patterns => (patterns? d i).isSome
  | .nonEmptyPatterns => d.text? i != some "" && (patterns? d i).getD [] != []

/-- What is wrong with a value that a rule does not allow, where the value is shown. -/
def violation (d : Yaml.Data) (setting : String) (i : Yaml.NodeId) (shown : String) :
    SettingRule → Violation
  | .text => .notText setting shown
  | .nonEmptyText => if (d.text? i).isSome then .emptyText setting else .notText setting shown
  | .patterns | .nonEmptyPatterns => .notPatterns setting shown

def check (d : Yaml.Data) : List (String × SettingRule) → Yaml.Read (List Violation)
  | [] => .ok []
  | (name, rule) :: rest =>
    match d.entry? name with
    | none => check d rest
    | some i =>
      if admits d i rule then check d rest
      else do
        let shown ← d.shown i
        let more ← check d rest
        .ok (violation d name i shown rule :: more)

def unknownKeys (entries : List (Yaml.Atom × Yaml.NodeId)) : List Yaml.Atom :=
  (entries.map (·.1)).filter fun k => !rules.any fun (name, _) => k.same (.text name)

def shownKeys (keys : List Yaml.Atom) : Yaml.Read (List String) := do
  let texts ← keys.mapM fun k => do
    let order ← k.sortText
    let shown ← k.shown
    .ok (Text.Half.codes order, shown)
  .ok ((texts.mergeSort fun a b => !List.lex b.1 a.1 Nat.blt).map (·.2))

/-- What is wrong with the values of a project file: unknown settings first, then the others by
name. -/
def violations (d : Yaml.Data) : Yaml.Read (List Violation) :=
  match d.value d.root with
  | .mapping entries => do
    let unknown ← shownKeys (unknownKeys entries)
    let others ← check d rules
    .ok ((if unknown.isEmpty then [] else [.unknownSettings unknown]) ++ others)
  | _ => do
    let shown ← d.shown d.root
    .ok [.notObject shown]

def textOr (d : Yaml.Data) (name default : String) : String :=
  match d.entry? name with
  | some i => (d.text? i).getD default
  | none => default

def patternsOr (d : Yaml.Data) (name : String) (default : List String) : List String :=
  match d.entry? name with
  | some i => (patterns? d i).getD default
  | none => default

def ofValues (d : Yaml.Data) : Settings :=
  let s : Settings := {}
  { title := textOr d "title" s.title
    author := textOr d "author" s.author
    description := textOr d "description" s.description
    website := textOr d "website" s.website
    markdown := patternsOr d "markdown" s.markdown
    javascript := patternsOr d "javascript" s.javascript
    assets := patternsOr d "assets" s.assets
    ignore := patternsOr d "ignore" s.ignore
    template := textOr d "template" s.template
    output := textOr d "output" s.output
    start := textOr d "start" s.start }

/-- The settings of a project file, or all that is wrong with it. An empty file sets nothing. -/
def ofData : Option Yaml.Data → Yaml.Read (Except (List Violation) Settings)
  | none => .ok (.ok {})
  | some d =>
    match d.value d.root with
    | .atom .null => .ok (.ok {})
    | _ => do
      match ← violations d with
      | [] => .ok (.ok (ofValues d))
      | problems => .ok (.error problems)

end Settings

end Hyperstory
