import Hyperstory.Project
import Hyperstory.Story.Source
import Hyperstory.Text.Replace

/-! Building a project into one page. -/
namespace Hyperstory

structure BuildOptions where
  /-- Report what would be done, and leave all files as they are. -/
  dryRun : Bool := false
  verbose : Bool := false
  debug : Bool := false
  deriving DecidableEq, Repr

namespace Page

def scriptMark : String := "<!--\x7bscript\x7d-->"

def storyMark : String := "<!--\x7bstory\x7d-->"

/-- The scripts as a part of the page; `exports` holds what a story can call. -/
def scriptElement (script : String) : String :=
  "<script>var exports = \x7b\x7d;" ++ script ++ "</script>"

/-- The part of the page that opens the first section. -/
def startElement (start : String) : String :=
  "<script>Core.GotoSection(\"" ++ start ++ "\");</script>"

/-- A name has a half of a surrogate pair, which no file can hold. -/
def hasHalf (name : String) : Bool := name.toList.any Text.Half.isHalf

/-- Puts scripts into a template, then the story, and opens the first section at the end. -/
def fill (template html script start : String) : String :=
  Text.replaceAll storyMark html (Text.replaceAll scriptMark (scriptElement script) template) ++
    startElement start

/-- The names that stand in a filled template: that of the first section, and those of the files
that have their place in it. All else in a page was read from files. -/
def names (template script start : String) (stories scripts : List String) : List String :=
  let scripted := Text.replaceAll scriptMark (scriptElement script) template
  start :: ((if Text.occursIn storyMark.toList scripted.toList then stories else []) ++
    if Text.occursIn scriptMark.toList template.toList then scripts else [])

end Page

namespace Build

/-- Compiles story files one after the other. Gives their pages behind each other, and how many
files have problems. -/
def renderFrom (p : Project) : Compiler → List String → Run (String × Nat)
  | _, [] => pure ("", 0)
  | c, file :: rest => do
    Run.logAction "render" file
    let source ← Run.readText (p.path file)
    let r := c.render file source
    r.log.forM fun record => Run.report (.logged record)
    match r.outcome with
    | .error f => throw (.story f)
    | .ok none => do
      let (html, problems) ← renderFrom p r.compiler rest
      pure (html, problems + 1)
    | .ok (some page) => do
      let (html, problems) ← renderFrom p r.compiler rest
      pure ("<!-- " ++ file ++ " -->\n" ++ page ++ "\n" ++ html, problems)

def render (p : Project) (o : BuildOptions) (files : List String) : Run (String × Nat) :=
  renderFrom p { debug := o.debug } files

/-- Puts script files behind each other. -/
def bundle (p : Project) : List String → Run String
  | [] => pure ""
  | file :: rest => do
    Run.logAction "import" file
    let script ← Run.readText (p.path file)
    let more ← bundle p rest
    pure ("// " ++ file ++ "\n" ++ script ++ "\n" ++ more)

def readTemplate (p : Project) : Run String := do
  let l ← p.resolveTemplate
  let path := Path.ofLocation l
  let found ← Run.ofDisk fun d cwd => d.has cwd path
  if !found then throw (.project (.templateNotFound l))
  let isFile ← Run.ofDisk fun d cwd => d.isFile cwd path
  if !isFile then throw (.project (.templateNotFile l))
  Run.readText path

def fillTemplate (p : Project) (html script : String) : Run String := do
  let template ← readTemplate p
  pure (Page.fill template html script p.settings.start)

/-- Removes what a path leads to, at most `n` levels deep. -/
def cleanUpTo (o : BuildOptions) : Nat → Path → Run Unit
  | 0, _ => pure ()
  | n + 1, p => do
    if ← Run.ofDisk fun d cwd => d.isDirectory cwd p then
      let names ← Run.look fun d cwd => d.names cwd p
      names.forM fun name => cleanUpTo o n (p.join ⟨.here, [name]⟩)
      if o.verbose then Run.logAction "rmdir" p.text
      if !o.dryRun then Run.change fun d cwd => d.removeDirectory cwd p
    else
      if o.verbose then Run.logAction "unlink" p.text
      if !o.dryRun then Run.change fun d cwd => d.removeFile cwd p

/-- Removes a file, or a directory with all that is in it. -/
def clean (o : BuildOptions) (p : Path) : Run Unit := do
  let depth ← Run.look fun d _ => d.entries.length + 1
  cleanUpTo o depth p

def copy (p : Project) (o : BuildOptions) (target : Path) : List String → Run Unit
  | [] => pure ()
  | file :: rest => do
    Run.logAction "copy" file
    if !o.dryRun then
      let destination := target.join (.ofString file)
      Run.makeDirectories destination.parent
      Run.change fun d cwd => d.copy cwd (p.path file) destination
    copy p o target rest

structure Plan where
  project : Project
  output : Location
  page : String
  /-- The names that stand in the page. -/
  names : List String
  assets : List String

/-- Reads all that a build needs. There is no plan if a story file has problems. -/
def plan (path : Path) (o : BuildOptions) : Run (Option Plan) := do
  let p ← Project.load path
  if o.dryRun then Run.log .warning "(This is a dry run. No output files will be written.)"
  let output ← p.resolveOutput
  if output == p.base || p.base.isBelow output then throw (.project (.outputHoldsProject output))
  let stories ← p.gather p.settings.markdown
  let scripts ← p.gather p.settings.javascript
  let assets ← p.gather p.settings.assets
  let (html, problems) ← render p o stories
  if problems > 0 then
    Run.log .error ("Build failed: " ++ toString problems ++ " file" ++
      (if problems == 1 then "" else "s") ++ " had errors")
    pure none
  else
    let script ← bundle p scripts
    let template ← readTemplate p
    let start := p.settings.start
    pure (some ⟨p, output, Page.fill template html script start,
      Page.names template script start stories scripts, assets⟩)

/-- Replaces the output directory by what a plan says. A page that no file can hold leaves its file
empty. -/
def install (o : BuildOptions) (plan : Plan) : Run Unit := do
  let output := Path.ofLocation plan.output
  let index := plan.output ++ ["index.html"]
  if ← Run.ofDisk fun d cwd => d.has cwd output then clean o output
  if !o.dryRun then Run.makeDirectories output
  copy plan.project o output plan.assets
  Run.logAction "output" ("/".intercalate (index.relativeTo plan.project.base))
  if !o.dryRun then
    if plan.names.any Page.hasHalf then
      Run.change fun d cwd => d.write cwd (.ofLocation index) .empty
      throw (.disk .unencodable)
    else Run.change fun d cwd => d.write cwd (.ofLocation index) plan.page.toUTF8

end Build

/-- Builds a project into the page in its output directory. Fails if a story file has problems. -/
def build (path : Path) (o : BuildOptions) : Run Bool := do
  match ← Build.plan path o with
  | none => pure false
  | some plan => do
    Build.install o plan
    pure true

end Hyperstory
