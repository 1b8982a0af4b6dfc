import Hyperstory.Proofs.Obstacles
import Hyperstory.Proofs.Watching

/-!
What can interrupt a watcher. A rebuild reports what is wrong with the project, so that only an
obstacle gets past it. An event adds one reason of its own: it may tell of a path that nothing can
have.
-/
namespace Hyperstory

open Run

variable {path : Path} {o : BuildOptions} {s : Workspace} {h : Halt}

namespace Watcher

variable {w : Watcher} {e : FileEvent}

end Watcher

end Hyperstory
