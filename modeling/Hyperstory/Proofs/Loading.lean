import Hyperstory.Proofs.Planning

/-!
Loading a project. Its directory is there, its paths begin at the root, and the names on the way to
its output directory are names that a file system has.
-/
namespace Hyperstory

namespace Project

open Run Location Hyperstory.Path

variable {path : Path} {p : Project} {w : Workspace} {s : String}

theorem value_load_eq_ok_iff : (load path).value w = .ok p ↔
    ∃ file bytes, (find path).value w = .ok file ∧ w.disk.read w.cwd file = .ok bytes ∧
      readSettings file bytes = .ok p.settings ∧ file.parent.trouble? = none ∧
      p.base = file.parent.resolve w.cwd := by
  rw [← (readsOnly_load path).run_eq w]
  constructor
  · intro h
    obtain ⟨file, _, hfind, h⟩ := (readsOnly_find path).exists_of_bind_ok h
    obtain ⟨bytes, _, hread, h⟩ := (readsOnly_ofDisk _).exists_of_bind_ok h
    obtain ⟨settings, _, hsettings, h⟩ := (readsOnly_lift _).exists_of_bind_ok h
    obtain ⟨_, _, -, h⟩ := (readsOnly_report _).exists_of_bind_ok h
    obtain ⟨base, _, hbase, h⟩ := (readsOnly_resolve _).exists_of_bind_ok h
    obtain rfl : ⟨base, settings⟩ = p := Except.ok.inj h
    obtain ⟨htrouble, hbase⟩ := value_resolve_eq_ok_iff.mp hbase
    exact ⟨file, bytes, hfind, value_ofDisk_eq_ok_iff.mp hread, hsettings, htrouble, hbase⟩
  · rintro ⟨file, bytes, hfind, hread, hsettings, htrouble, hbase⟩
    refine (readsOnly_find path).bind_eq hfind fun _ => ?_
    refine (readsOnly_ofDisk _).bind_eq (value_ofDisk_eq_ok_iff.mpr hread) fun _ => ?_
    refine (readsOnly_lift _).bind_eq hsettings fun _ => ?_
    refine (readsOnly_report _).bind_eq rfl fun _ => ?_
    have hresolve := value_resolve_eq_ok_iff.mpr ⟨htrouble, hbase⟩
    exact (readsOnly_resolve _).bind_eq hresolve fun _ => rfl

/-- The directory of a project is there, since its file is. -/
theorem isSome_base (h : (load path).value w = .ok p) : (w.disk.get? p.base).isSome := by
  obtain ⟨file, bytes, -, hread, -, -, hbase⟩ := value_load_eq_ok_iff.mp h
  obtain ⟨l, hfind⟩ := Disk.read_eq_ok_iff.mp hread
  obtain ⟨hlocate, hget⟩ := Disk.find_eq_ok_iff.mp hfind
  obtain ⟨-, -, hleads, hl⟩ := Disk.locate_eq_ok_iff.mp hlocate
  rw [hbase]
  rcases file.names.eq_nil_or_concat with hnil | ⟨pre, name, hnames⟩
  · have hsame : file.parent.resolve w.cwd = l := by
      simp [hl, Path.resolve, start, parent, hnil]
    rw [hsame, hget]
    rfl
  · rw [hnames, List.concat_eq_append] at hleads
    obtain ⟨-, hdir, -⟩ := Disk.leads_concat.mp hleads
    have hparent : file.parent.resolve w.cwd = pre.foldl step (file.start w.cwd) := by
      simp [Path.resolve, start, parent, hnames]
    rw [hparent, hdir]
    rfl

theorem path_rooted : (p.path s).root ≠ .here := by
  unfold path join
  split
  · simp [ofLocation]
  · assumption

/-- The directory of a project is a place that a file system can have. -/
def Placed (p : Project) : Prop := ∀ n ∈ p.base, IsName n

theorem placed_of_load (hw : w.disk.Formed) (h : (load path).value w = .ok p) : p.Placed :=
  hw.isName (isSome_base h)

namespace Placed

theorem up_notMem_base (hp : p.Placed) : ".." ∉ p.base := fun hmem => (hp _ hmem).ne_up rfl

theorem isPart_path (hp : p.Placed) : ∀ n ∈ (p.path s).names, IsPart n := by
  intro n hn
  unfold path join at hn
  split at hn
  · rcases List.mem_append.mp hn with hn | hn
    · exact (hp n hn).toIsPart
    · exact isPart_of_mem_namesIn hn
  · exact isPart_of_mem_namesIn hn

theorem isName_output (hp : p.Placed) : ∀ n ∈ p.output, IsName n := by
  intro n hn
  rw [output, resolve_of_rooted path_rooted] at hn
  rcases mem_of_mem_foldl_step hn with hn | ⟨hn, hup⟩
  · simp at hn
  · exact ⟨hp.isPart_path n hn, hup⟩

theorem up_notMem_output (hp : p.Placed) : ".." ∉ p.output :=
  fun hmem => (hp.isName_output _ hmem).ne_up rfl

end Placed

/-- A path of a project leads to the same place from everywhere. -/
theorem value_resolve_path_eq_ok_iff {l : Location} : (Run.resolve (p.path s)).value w = .ok l ↔
    (p.path s).trouble? = none ∧ l = (p.path s).resolve [] := by
  rw [value_resolve_eq_ok_iff, resolve_of_rooted path_rooted, resolve_of_rooted path_rooted]

theorem value_gather (h : (p.path p.settings.output).trouble? = none) (patterns : List String) :
    (p.gather patterns).value w = p.gatherFrom w.disk patterns := by
  rw [← (p.readsOnly_gather patterns).run_eq w]
  have hl : p.resolveOutput.value w = .ok p.output :=
    value_resolve_path_eq_ok_iff.mpr ⟨h, rfl⟩
  refine (readsOnly_resolve _).bind_eq hl fun _ => (readsOnly_look _).bind_eq rfl fun _ => ?_
  dsimp only
  cases p.gatherFrom w.disk patterns <;> rfl

theorem exists_of_gatherFrom {d : Disk} {patterns files : List String}
    (h : p.gatherFrom d patterns = .ok files) :
    ∃ ignored found, p.expand d p.settings.ignore = .ok ignored ∧
      p.expand d patterns = .ok found ∧
      files = (found.eraseDups.filter fun f => !ignored.contains f && !p.isOutput f).mergeSort
        Text.Half.isLe := by
  obtain ⟨ignored, hignored, h⟩ := exists_of_bind_ok h
  obtain ⟨found, hfound, h⟩ := exists_of_bind_ok h
  exact ⟨ignored, found, hignored, hfound, (Except.ok.inj h).symm⟩

/-- No file is gathered that lies below the output directory. -/
theorem isOutput_eq_false {d : Disk} {patterns files : List String}
    (h : p.gatherFrom d patterns = .ok files) {file : String} (hfile : file ∈ files) :
    p.isOutput file = false := by
  obtain ⟨ignored, found, -, -, rfl⟩ := exists_of_gatherFrom h
  rw [List.mem_mergeSort, List.mem_filter] at hfile
  simpa using (Bool.and_eq_true_iff.mp hfile.2).2

end Project

namespace Build

/-- A plan puts its output where the project says, and copies nothing that was built before. -/
structure Plan.Proper (planned : Plan) : Prop where
  placed : planned.project.Placed
  output_eq : planned.output = planned.project.output
  output_ne : planned.output ≠ []
  assets_apart : ∀ a ∈ planned.assets, planned.project.isOutput a = false

namespace Planned

variable {path : Path} {o : BuildOptions} {w : Workspace} {planned : Plan}
  {stories scripts : List String} {html script : String}

theorem value_gather (h : Planned path o w planned stories scripts html script) (w' : Workspace)
    (patterns : List String) :
    (planned.project.gather patterns).value w' = planned.project.gatherFrom w'.disk patterns :=
  Project.value_gather (Project.value_resolve_path_eq_ok_iff.mp h.output).1 patterns

theorem proper (h : Planned path o w planned stories scripts html script) (hw : w.disk.Formed) :
    planned.Proper := by
  constructor
  · exact Project.placed_of_load hw h.load
  · exact (Project.value_resolve_path_eq_ok_iff.mp h.output).2
  · intro hnil
    exact h.apart (hnil ▸ List.nil_prefix)
  · intro a ha
    exact Project.isOutput_eq_false ((h.value_gather w _).symm.trans h.assets) ha

end Planned

end Build

end Hyperstory
