import Hyperstory.Proofs.DryRuns
import Hyperstory.Proofs.Rebuilding

/-!
When a plan can be carried out. All that it leads to has to fit into a path, no file may be on the way
to the output directory, and the assets have to lie in the project's directory, apart from the output.
The copies cannot get in each other's way then, since what stands in the output directory mirrors what
stands in the project's directory.
-/
namespace Hyperstory

open Run Location Hyperstory.Path

namespace Disk

variable {d : Disk} {l cwd : Location} {names : List String}

end Disk

namespace Build

variable {o : BuildOptions} {p : Project} {w w' : Workspace} {d d' : Disk} {l cwd : Location}

/-- A file that a project can deliver: it lies in the project's directory, apart from the output
directory, and both its path and that of its copy can be followed. -/
structure Deliverable (p : Project) (d : Disk) (file : String) (names : List String) : Prop where
  parts : ∀ n ∈ names, IsName n
  ne_nil : names ≠ []
  eq : file = "/".intercalate names
  exists_file : ∃ bytes, d.get? (p.base ++ names) = some (.file bytes)
  fits : (ofLocation (p.base ++ names)).Fits
  copy_fits : (ofLocation (p.output ++ names)).Fits
  apart : ¬ p.output <+: p.base ++ names

namespace Deliverable

variable {file : String} {names : List String}

theorem namesIn_eq (h : Deliverable p d file names) : namesIn file = names := by
  rw [h.eq, namesIn_intercalate fun n hn => (h.parts n hn).toIsPart]

theorem up_notMem (h : Deliverable p d file names) : ".." ∉ names :=
  fun hmem => (h.parts ".." hmem).ne_up rfl

end Deliverable

/-- What stands in the output directory stands in the project's directory as well, and there it is
of the same kind. -/
structure Mirrors (p : Project) (d : Disk) : Prop where
  file : ∀ rel bytes, rel ≠ [] → d.get? (p.output ++ rel) = some (.file bytes) →
    ∃ bytes', d.get? (p.base ++ rel) = some (.file bytes')
  directory : ∀ rel, rel ≠ [] → d.get? (p.output ++ rel) = some .directory →
    d.get? (p.base ++ rel) = some .directory

namespace Mirrors

variable {file : String} {names : List String} {bytes : ByteArray}

theorem copied (h : Mirrors p d) (hp : p.Placed) (hfile : Deliverable p d file names)
    (hcopied : Copied p file bytes d d') : Mirrors p d' := by
  have hup : ".." ∉ namesIn file := hfile.namesIn_eq ▸ hfile.up_notMem
  have hcopy : p.copyOf file = p.output ++ names := by
    rw [copyOf_eq_append hp hcopied.here hup, hfile.namesIn_eq]
  -- Files stay files, also where a copy replaces one.
  have hstays : ∀ {m : Location} {bytes : ByteArray}, d.get? m = some (.file bytes) →
      ∃ bytes', d'.get? m = some (.file bytes') := by
    intro m before hm
    by_cases hself : m = p.copyOf file
    · exact ⟨bytes, hself ▸ hcopied.copied⟩
    · exact ⟨before, (hcopied.keepsAt hself).file_iff.mpr hm⟩
  obtain ⟨source, hsource⟩ := hfile.exists_file
  obtain ⟨source', hsource'⟩ := hstays hsource
  refine ⟨fun rel after hrel hget => ?_, fun rel hrel hget => ?_⟩
  · by_cases hself : p.output ++ rel = p.copyOf file
    · obtain rfl : rel = names := List.append_cancel_left (hself.trans hcopy)
      exact ⟨source', hsource'⟩
    · obtain ⟨before, hbefore⟩ := h.file rel after hrel ((hcopied.keepsAt hself).file_iff.mp hget)
      exact hstays hbefore
  · rcases (hcopied.directory_iff hp hup).mp hget with ⟨hne, hpre⟩ | hbefore
    · -- A directory on the way to the copy: the same leads to the file that is copied.
      rw [hfile.namesIn_eq] at hne hpre
      have hrel : rel <+: names := (List.prefix_append_right_inj _).mp hpre
      refine hcopied.formed.directory_above (l := p.base ++ names) (by rw [hsource']; rfl)
        ((List.prefix_append_right_inj _).mpr hrel) fun heq => hne ?_
      rw [List.append_cancel_left heq]
    · exact (hcopied.directory_iff hp hup).mpr (.inr (h.directory rel hrel hbefore))

end Mirrors

/-- Another file is as deliverable after a copy as it was before. -/
theorem Deliverable.copied {file other : String} {names others : List String} {bytes : ByteArray}
    (h : Deliverable p d other others) (hp : p.Placed) (hfile : Deliverable p d file names)
    (hcopied : Copied p file bytes d d') : Deliverable p d' other others := by
  obtain ⟨before, hbefore⟩ := h.exists_file
  have hne : p.base ++ others ≠ p.copyOf file := by
    rw [copyOf_eq_append hp hcopied.here (hfile.namesIn_eq ▸ hfile.up_notMem)]
    exact fun heq => h.apart (heq ▸ List.prefix_append _ _)
  exact ⟨h.parts, h.ne_nil, h.eq, ⟨before, (hcopied.keepsAt hne).file_iff.mpr hbefore⟩, h.fits,
    h.copy_fits, h.apart⟩

variable {planned : Plan}

/-- The places that carrying out a plan leads to: what it removes, and what it makes. -/
inductive Plan.Touches (planned : Plan) (o : BuildOptions) (d : Disk) : Location → Prop where
  | output : Touches planned o d planned.output
  | removed {l : Location} (hl : planned.output <+: l) (hthere : (d.get? l).isSome) :
      Touches planned o d l
  | index (hdry : o.dryRun = false) : Touches planned o d (planned.output ++ ["index.html"])
  | asset {a : String} (hdry : o.dryRun = false) (ha : a ∈ planned.assets) :
      Touches planned o d (planned.output ++ namesIn a)

/-- What a plan needs to be carried out: room for all that it leads to, and for a build that is no
dry run besides a free way to the output directory, assets that lie in the project's directory and
not where the output goes, and a page with names that a file can hold. -/
structure Plan.Feasible (planned : Plan) (o : BuildOptions) (d : Disk) : Prop where
  fits : ∀ l, planned.Touches o d l → (ofLocation l).Fits
  way : o.dryRun = false → ∀ m, m <+: planned.output → m ≠ planned.output →
    ∀ bytes, d.get? m ≠ some (.file bytes)
  inside : o.dryRun = false → ∀ a ∈ planned.assets, ".." ∉ namesIn a
  apart : o.dryRun = false → ∀ a ∈ planned.assets, planned.project.place a ≠ planned.output
  index : o.dryRun = false → ∀ a ∈ planned.assets, ["index.html"] <+: namesIn a →
    namesIn a = ["index.html"]
  names : o.dryRun = false → planned.names.any Page.hasHalf = false

namespace Planned

variable {path : Path} {stories scripts : List String} {html script : String}

end Planned

end Build

end Hyperstory
