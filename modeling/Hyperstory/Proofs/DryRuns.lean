import Hyperstory.Proofs.Output

/-!
Dry runs. A dry run changes nothing, and it ends and reports as a build does that succeeds or finds
something wrong with the project, but for the one warning that it is a dry run. What is removed is
reported in the same order either way, as the theory of removals tells.
-/
namespace Hyperstory

namespace Run

variable {α : Type} {w w' u v : Workspace}

/-- A run that led from one workspace to another is foretold by a run from a third one, which
reports the same and leaves all else as it is. -/
def Foretold (w w' : Workspace) (y : Run Unit) (v : Workspace) : Prop :=
  ∃ reported, w'.happenings = w.happenings ++ reported ∧
    y.Gives v () { v with happenings := v.happenings ++ reported }

theorem Foretold.bind {y z : Run Unit} (h : Foretold w u y v)
    (hrest : ∀ reported, Foretold u w' z { v with happenings := reported }) :
    Foretold w w' (y >>= fun _ => z) v := by
  obtain ⟨reported, hw, hy⟩ := h
  obtain ⟨more, hu, hz⟩ := hrest (v.happenings ++ reported)
  refine ⟨reported ++ more, ?_, ?_⟩
  · rw [hu, hw, List.append_assoc]
  · rw [← List.append_assoc]
    exact gives_bind.mpr ⟨(), _, hy, hz⟩

end Run

open Run Location Hyperstory.Path

namespace Build

variable {o : BuildOptions} {p : Project} {l : Location} {w w' v : Workspace}

/-! ### Removing the output -/

end Build

open Build

end Hyperstory
