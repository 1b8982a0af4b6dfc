import Hyperstory.Markdown
import Hyperstory.Story.Compiler

/-! Compiling the source text of story files. -/
namespace Hyperstory.Compiler

def compile (c : Compiler) (path source : String) : Compilation (Except Failure String) :=
  match Markdown.parse source with
  | .error f => ⟨.error (.fault f), c.startFile, []⟩
  | .ok tokens => c.compileTokens path tokens

/-- Compiles the source of a file; a problem in it is logged, and there is no page then. -/
def render (c : Compiler) (path source : String) : Compilation (Except Fault (Option String)) :=
  let r := c.compile path source
  match r.outcome with
  | .ok html => { r with outcome := .ok (some html) }
  | .error (.fault f) => { r with outcome := .error f }
  | .error (.problem d) =>
    { r with outcome := .ok none, log := r.log ++ [⟨.error, d.describe⟩] }

end Hyperstory.Compiler
