import Hyperstory.Glob
import Hyperstory.Project.Settings
import Hyperstory.Token

/-! What can go wrong with a project. -/
namespace Hyperstory

/-- What is wrong with a project, for its author to mend. -/
inductive ProjectError where
  | noFileIn (directory : Path)
  | fileNotFound (file : Path)
  | notParsed (file : Path)
  | invalid (file : Path) (problems : List Violation)
  | outputHoldsProject (output : Location)
  | templateNotFound (template : Location)
  | templateNotFile (template : Location)
  deriving DecidableEq, Repr

/-- The names that a project file can have, in the order they are looked for. -/
def Project.fileNames : List String := ["fractive.yaml", "fractive.yml", "fractive.json"]

def ProjectError.message : ProjectError → String
  | noFileIn p =>
    "No project file (" ++ ", ".intercalate Project.fileNames ++ ") found in " ++ p.text
  | fileNotFound p => "Project file not found: " ++ p.text
  | notParsed p => p.text ++ ": Failed parsing project file"
  | invalid p problems =>
    p.text ++ ": Invalid project file: " ++ "; ".intercalate (problems.map Violation.message)
  | outputHoldsProject l => "Output directory \"" ++ l.text ++ "\" would contain the project itself"
  | templateNotFound l => "Template file not found: \"" ++ l.text ++ "\""
  | templateNotFile l => "Template \"" ++ l.text ++ "\" is not a file"

inductive Halt where
  | project (e : ProjectError)
  | disk (e : DiskError)
  /-- A text file is not UTF-8. -/
  | encoding
  | pattern (e : PatternError)
  /-- A value in a project file is not written like one of its kind. -/
  | settings (defect : Yaml.Defect)
  | story (f : Fault)
  | pathless
  deriving DecidableEq, Repr

namespace Halt

/-- Why the directory tree stands in the way, in words. -/
def diskMessage : DiskError → String
  | .notFound => "No such file or directory"
  | .isDirectory => "Is a directory"
  | .notDirectory => "Not a directory"
  | .alreadyExists => "File exists"
  | .sameFile => "A file would be copied onto itself"
  | .notRemovable => "Directory not empty"
  | .unnameable => "A path has a null character"
  | .unencodable => "A path or a text has a half of a surrogate pair"
  | .tooLong => "File name too long"

def message : Halt → String
  | project e => e.message
  | disk e => diskMessage e
  | encoding => "A text file is not UTF-8"
  | pattern .rooted => "A pattern begins at the root"
  | pattern _ => "A pattern is not well formed"
  | settings _ => "A value in the project file is not well formed"
  | story _ => "A story file has no tree"
  | pathless => "There is no path"

end Halt

end Hyperstory
