import Hyperstory.Proofs.Deliveries
import Hyperstory.Proofs.Parsed

/-!
What can keep a build from its end. Besides what is wrong with a project, which is reported to its
author, there are obstacles: files that are no text, values and patterns that are not well formed,
names and paths that nothing can have, a story that is cut off, and an output that the directory tree
does not admit. A build that ends before its time has met with one of them.
-/
namespace Hyperstory

open Run Location Hyperstory.Path

/-- The patterns that a project is searched for. -/
def Settings.patterns (s : Settings) : List String :=
  s.markdown ++ s.javascript ++ s.assets ++ s.ignore

/-- The texts that a project is built from: its page, and the stories and scripts that its patterns
lead to. -/
inductive Project.Reads (p : Project) (d : Disk) : Path → Prop where
  | template : Reads p d (.ofLocation p.template)
  | story {files : List String} {file : String}
      (hfiles : p.gatherFrom d p.settings.markdown = .ok files) (hfile : file ∈ files) :
      Reads p d (p.path file)
  | script {files : List String} {file : String}
      (hfiles : p.gatherFrom d p.settings.javascript = .ok files) (hfile : file ∈ files) :
      Reads p d (p.path file)

/-- What a build can meet with that is nothing wrong with the project as such, and how it ends then. -/
inductive Obstacle (path : Path) (o : BuildOptions) (w : Workspace) : Halt → Prop where
  /-- No project file can be looked for, since the path is too long. -/
  | longPath {q : Path} (hq : q = path ∨ ∃ name ∈ Project.fileNames, q = path.join ⟨.here, [name]⟩)
      (hlong : w.disk.locate w.cwd q = .error .tooLong) : Obstacle path o w (.disk .tooLong)
  /-- The project file is no text. -/
  | projectBytes {file : Path} {bytes : ByteArray} (hfile : (Project.find path).value w = .ok file)
      (hread : w.disk.read w.cwd file = .ok bytes)
      (hdefect : Yaml.load (.ofBytes bytes) >>= Settings.ofData = .error .unreadable) :
      Obstacle path o w .encoding
  /-- A value in the project file is not written like one of its kind. -/
  | projectValue {file : Path} {bytes : ByteArray} {defect : Yaml.Defect}
      (hfile : (Project.find path).value w = .ok file) (hread : w.disk.read w.cwd file = .ok bytes)
      (hdefect : Yaml.load (.ofBytes bytes) >>= Settings.ofData = .error defect)
      (hmalformed : defect ≠ .malformed) (hunreadable : defect ≠ .unreadable) :
      Obstacle path o w (.settings defect)
  /-- The output directory or the page has a name that nothing can have. -/
  | name {p : Project} {s : String} {e : DiskError} (hload : (Project.load path).value w = .ok p)
      (hs : s = p.settings.output ∨ s = p.settings.template)
      (htrouble : (p.path s).trouble? = some e) : Obstacle path o w (.disk e)
  /-- A pattern is not well formed. -/
  | pattern {p : Project} {s : String} {e : PatternError}
      (hload : (Project.load path).value w = .ok p) (hs : s ∈ p.settings.patterns)
      (hparse : Glob.parse (Project.whole s) = .error e) : Obstacle path o w (.pattern e)
  /-- A pattern leads to a path or through a directory whose path is too long. -/
  | longSearch {p : Project} {s : String} {g : Glob} (hload : (Project.load path).value w = .ok p)
      (hs : s ∈ p.settings.patterns) (hparse : Glob.parse (Project.whole s) = .ok g)
      (hlong : g.files w.disk p.base = .error .tooLong) : Obstacle path o w (.disk .tooLong)
  /-- A file that the page is made of is not UTF-8. -/
  | bytes {p : Project} {q : Path} {bytes : ByteArray} (hload : (Project.load path).value w = .ok p)
      (hq : p.Reads w.disk q) (hread : w.disk.read w.cwd q = .ok bytes)
      (hbytes : String.fromUTF8? bytes = none) : Obstacle path o w .encoding
  /-- A story ends with HTML that is cut off. -/
  | cutStory {p : Project} {stories : List String} {file source : String}
      (hload : (Project.load path).value w = .ok p)
      (hstories : p.gatherFrom w.disk p.settings.markdown = .ok stories) (hfile : file ∈ stories)
      (hsource : Run.text w (p.path file) = .ok source)
      (hcut : Markdown.parse source = .error .cut) : Obstacle path o w (.story .cut)
  /-- The path of the page is too long. -/
  | longTemplate {p : Project} (hload : (Project.load path).value w = .ok p)
      (hlong : w.disk.locate w.cwd (.ofLocation p.template) = .error .tooLong) :
      Obstacle path o w (.disk .tooLong)
  /-- The plan for the output is not feasible. -/
  | plan {planned : Build.Plan} {e : DiskError}
      (hplan : (Build.plan path o).value w = .ok (some planned))
      (hinfeasible : ¬ planned.Feasible o w.disk) : Obstacle path o w (.disk e)

/-- A build ends before its time for something that is wrong with the project, or for an obstacle. -/
def Explained (path : Path) (o : BuildOptions) (w : Workspace) (h : Halt) : Prop :=
  (∃ e, h = .project e) ∨ Obstacle path o w h

namespace Run

variable {α β : Type} {x : Run α} {f : α → Run β} {w : Workspace} {P : Halt → Prop}

/-- A run from a workspace ends before its time for some reasons only, whatever was reported
before. -/
def HaltsOnly (P : Halt → Prop) (w : Workspace) (x : Run α) : Prop :=
  ∀ reported h, (x.run.run { w with happenings := reported }).1 = .error h → P h

theorem haltsOnly_pure (a : α) : (pure a : Run α).HaltsOnly P w := nofun

namespace HaltsOnly

/-- What a run that only reads has found is known to what follows. -/
theorem bind (hx : x.ReadsOnly) (h : x.HaltsOnly P w)
    (hrest : ∀ a, x.value w = .ok a → (f a).HaltsOnly P w) : (x >>= f).HaltsOnly P w := by
  intro reported halt hrun
  obtain ⟨more, hx⟩ := hx.exists_run { w with happenings := reported }
  have hfirst := h reported halt
  rw [run_bind, hx, value_with_happenings] at hrun
  rw [hx, value_with_happenings] at hfirst
  cases hvalue : x.value w with
  | error e =>
    rw [hvalue] at hrun hfirst
    obtain rfl : e = halt := Except.error.inj hrun
    exact hfirst rfl
  | ok a =>
    rw [hvalue] at hrun
    exact hrest a hvalue more halt hrun

theorem ite {c : Prop} [Decidable c] {y : Run α} (hx : c → x.HaltsOnly P w)
    (hy : ¬ c → y.HaltsOnly P w) : (if c then x else y).HaltsOnly P w := by
  split
  · exact hx ‹_›
  · exact hy ‹_›

theorem forM {γ : Type} {g : γ → Run Unit} (hreads : ∀ c, (g c).ReadsOnly)
    (h : ∀ c, (g c).HaltsOnly P w) (cs : List γ) : (cs.forM g).HaltsOnly P w := by
  induction cs with
  | nil => exact haltsOnly_pure ()
  | cons c cs ih => exact .bind (hreads c) (h c) fun _ _ => ih

end HaltsOnly

end Run

/-! ### Loading a project -/

namespace Disk

end Disk

theorem eq_true_of_findM?_eq_some {α ε : Type} {f : α → Except ε Bool} {xs : List α} {x : α}
    (h : xs.findM? f = .ok (some x)) : f x = .ok true := by
  induction xs with
  | nil => cases h
  | cons y xs ih =>
    rw [List.findM?] at h
    obtain ⟨found, hfound, h⟩ := exists_of_bind_ok h
    cases found with
    | true =>
      obtain rfl : y = x := Option.some.inj (Except.ok.inj h)
      exact hfound
    | false => exact ih h

namespace Project

variable {path : Path} {o : BuildOptions} {w : Workspace} {p : Project}

/-- A project file that was found can be read, and its directory has a name. -/
theorem exists_of_find {file : Path} (h : (find path).value w = .ok file) :
    ∃ bytes, w.disk.read w.cwd file = .ok bytes ∧ file.parent.trouble? = none := by
  have hfile : w.disk.isFile w.cwd file = .ok true := by
    rcases value_find_eq_ok_iff.mp h with ⟨-, hfound⟩ | ⟨-, hfile, rfl⟩
    · exact eq_true_of_findM?_eq_some hfound
    · exact hfile
  obtain ⟨l, i, hfind, hi⟩ := Disk.ask_eq_true_iff.mp hfile
  cases i with
  | directory => cases hi
  | file bytes =>
    refine ⟨bytes, Disk.read_eq_ok_iff.mpr ⟨l, hfind⟩, ?_⟩
    have htrouble := (Disk.locate_eq_ok_iff.mp (Disk.find_eq_ok_iff.mp hfind).1).1
    rw [trouble?, List.findSome?_eq_none_iff] at htrouble ⊢
    exact fun n hn => htrouble n (List.mem_of_mem_dropLast hn)

end Project

namespace Build

variable {path : Path} {o : BuildOptions} {w : Workspace} {p : Project} {files : List String}

/-! ### Making a plan -/

end Build

end Hyperstory
