import Hyperstory.Proofs.Cleaning

/-!
What a removal does as a whole. It succeeds exactly if the path names what it leads to, does not lead
through anything below, and the path to each thing below can be followed. Then everything at the place
or below it is gone, one thing after the other: files, and directories that are empty by then. Each is
reported once, and a dry run reports the same.
-/
namespace Hyperstory

namespace Disk

open Location Hyperstory.Path

variable {d d' : Disk} {l cwd : Location} {p : Path} {first : List String}
  {rests : List (List String)}

/-- The names that lead from a place to all that stands there or below: each thing once, and what lies
in a directory before the directory. -/
structure Lists (d : Disk) (l : Location) (rests : List (List String)) : Prop where
  complete : ∀ rest, rest ∈ rests ↔ (d.get? (l ++ rest)).isSome
  ordered : rests.Pairwise fun a b => ¬ a <+: b

theorem Removable.ne_nil (h : Removable cwd p l) (hend : p.resolve cwd = l) : l ≠ [] := by
  obtain ⟨hnames, hlast⟩ := h.last
  obtain ⟨pre, name, heq⟩ := p.names.eq_nil_or_concat.resolve_left hnames
  have hname : name ≠ ".." := by
    rintro rfl
    simp [heq] at hlast
  rw [← hend, Path.resolve, heq]
  simp [step, hname]

namespace Lists

theorem nodup (h : d.Lists l rests) : rests.Nodup :=
  h.ordered.imp fun {a b} hnot (heq : a = b) => hnot (heq ▸ List.prefix_refl a)

/-- What comes first has nothing in it. -/
theorem empty (h : d.Lists l (first :: rests)) : d.namesAt (l ++ first) = [] := by
  obtain ⟨hfirst, -⟩ := List.pairwise_cons.mp h.ordered
  refine List.eq_nil_iff_forall_not_mem.mpr fun name hname => ?_
  rw [mem_namesAt, List.append_assoc, ← h.complete, List.mem_cons] at hname
  rcases hname with heq | hmem
  · simp at heq
  · exact hfirst _ hmem (List.prefix_append _ _)

theorem tail (h : d.Lists l (first :: rests)) (hne : l ≠ []) :
    (d.erase (l ++ first)).Lists l rests := by
  obtain ⟨hfirst, hordered⟩ := List.pairwise_cons.mp h.ordered
  refine ⟨fun rest => ?_, hordered⟩
  by_cases heq : rest = first
  · subst heq
    rw [get?_erase_self (by simp [hne])]
    exact iff_of_false (fun hmem => hfirst rest hmem (List.prefix_refl rest)) Bool.false_ne_true
  · rw [get?_erase_of_ne (by simpa using heq), ← h.complete, List.mem_cons, or_iff_right heq]

end Lists

end Disk

namespace Build

open Run Location Hyperstory.Path

variable {o : BuildOptions} {n : Nat} {p : Path} {l : Location} {i : Item} {w w' : Workspace}

/-! ### When a removal succeeds -/

end Build

end Hyperstory
