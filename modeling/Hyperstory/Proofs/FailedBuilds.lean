import Hyperstory.Proofs.Planning

/-!
Builds that fail. All that can be wrong with a project is found before the first change, so what was
built before stays.
-/
namespace Hyperstory

namespace Run

variable {α β : Type}

/-- A run ends before its time only where the directory tree stands in the way. -/
def HaltsByDisk (x : Run α) : Prop :=
  ∀ w h, (x.run.run w).1 = .error h → ∃ e, h = .disk e

theorem haltsByDisk_pure (a : α) : (pure a : Run α).HaltsByDisk := by
  intro w h hrun
  cases hrun

theorem haltsByDisk_throw (e : DiskError) : (throw (.disk e) : Run α).HaltsByDisk := by
  intro w h hrun
  cases hrun
  exact ⟨e, rfl⟩

theorem haltsByDisk_modify (f : Workspace → Workspace) : (modify f : Run Unit).HaltsByDisk := by
  intro w h hrun
  cases hrun

theorem haltsByDisk_look (f : Disk → Location → α) : (look f).HaltsByDisk := by
  intro w h hrun
  cases hrun

theorem haltsByDisk_ofDisk (f : Disk → Location → Except DiskError α) : (ofDisk f).HaltsByDisk := by
  intro w h hrun
  rw [ofDisk_run] at hrun
  cases hf : f w.disk w.cwd with
  | ok a =>
    rw [hf] at hrun
    cases hrun
  | error e =>
    rw [hf] at hrun
    cases hrun
    exact ⟨e, rfl⟩

namespace HaltsByDisk

variable {x : Run α} {f : α → Run β}

theorem bind (hx : x.HaltsByDisk) (hf : ∀ a, (f a).HaltsByDisk) : (x >>= f).HaltsByDisk := by
  intro w h hrun
  rw [run_bind] at hrun
  cases hstep : x.run.run w with
  | mk result w' =>
    rw [hstep] at hrun
    cases result with
    | ok a => exact hf a w' h hrun
    | error e =>
      obtain rfl : e = h := Except.error.inj hrun
      exact hx w e (by rw [hstep])

theorem ite {c : Prop} [Decidable c] {y : Run α} (hx : x.HaltsByDisk) (hy : y.HaltsByDisk) :
    (if c then x else y).HaltsByDisk := by
  split
  · exact hx
  · exact hy

end HaltsByDisk

theorem haltsByDisk_forM {γ : Type} {f : γ → Run Unit} (hf : ∀ a, (f a).HaltsByDisk)
    (l : List γ) : (l.forM f).HaltsByDisk := by
  induction l with
  | nil => exact haltsByDisk_pure ()
  | cons a l ih => exact (hf a).bind fun _ => ih

theorem haltsByDisk_change (f : Disk → Location → Except DiskError Disk) :
    (change f).HaltsByDisk :=
  (haltsByDisk_ofDisk f).bind fun _ => haltsByDisk_modify _

theorem haltsByDisk_makeDirectories (p : Path) : (makeDirectories p).HaltsByDisk := by
  refine (haltsByDisk_look _).bind fun found => (haltsByDisk_modify _).bind fun _ => ?_
  cases found.2 with
  | none => exact haltsByDisk_pure ()
  | some e => exact haltsByDisk_throw e

end Run

namespace Build

open Run

variable (o : BuildOptions)

theorem haltsByDisk_cleanUpTo (n : Nat) (p : Path) : (cleanUpTo o n p).HaltsByDisk := by
  induction n generalizing p with
  | zero => exact haltsByDisk_pure ()
  | succ n ih =>
    simp only [cleanUpTo, ite_bind]
    refine (haltsByDisk_ofDisk _).bind fun _ => .ite ?_ ?_
    · refine (haltsByDisk_look _).bind fun names => ?_
      refine (haltsByDisk_forM (fun name => ih _) names).bind fun _ => ?_
      refine (HaltsByDisk.ite (haltsByDisk_modify _) (haltsByDisk_pure _)).bind fun _ => ?_
      exact .ite (haltsByDisk_change _) (haltsByDisk_pure _)
    · refine (HaltsByDisk.ite (haltsByDisk_modify _) (haltsByDisk_pure _)).bind fun _ => ?_
      exact .ite (haltsByDisk_change _) (haltsByDisk_pure _)

theorem haltsByDisk_clean (p : Path) : (clean o p).HaltsByDisk :=
  (haltsByDisk_look _).bind fun _ => haltsByDisk_cleanUpTo o _ p

theorem haltsByDisk_copy (p : Project) (target : Path) (files : List String) :
    (copy p o target files).HaltsByDisk := by
  induction files with
  | nil => exact haltsByDisk_pure ()
  | cons file rest ih =>
    rw [copy]
    refine (haltsByDisk_modify _).bind fun _ => .ite ?_ ih
    refine (haltsByDisk_makeDirectories _).bind fun _ => ?_
    exact (haltsByDisk_change _).bind fun _ => ih

/-- Once there is a plan, nothing but the directory tree can stand in its way. -/
theorem haltsByDisk_install (planned : Plan) : (install o planned).HaltsByDisk := by
  simp only [install, ite_bind]
  refine (haltsByDisk_ofDisk _).bind fun _ => ?_
  refine (HaltsByDisk.ite (haltsByDisk_clean o _) (haltsByDisk_pure _)).bind fun _ => ?_
  refine (HaltsByDisk.ite (haltsByDisk_makeDirectories _) (haltsByDisk_pure _)).bind fun _ => ?_
  refine (haltsByDisk_copy o _ _ _).bind fun _ => (haltsByDisk_modify _).bind fun _ => ?_
  refine .ite (.ite ?_ (haltsByDisk_change _)) (haltsByDisk_pure _)
  exact (haltsByDisk_change _).bind fun _ => haltsByDisk_throw _

/-- Something that a build has to read cannot be read: the project, a file of the story, a script or
the template. -/
inductive Unreadable (path : Path) (w : Workspace) : Prop
  | project {h : Halt} (hload : (Project.load path).value w = .error h)
  | story {p : Project} {files : List String} {file : String} {h : Halt}
      (hload : (Project.load path).value w = .ok p)
      (hfiles : (p.gather p.settings.markdown).value w = .ok files) (hfile : file ∈ files)
      (htext : text w (p.path file) = .error h)
  | script {p : Project} {files : List String} {file : String} {h : Halt}
      (hload : (Project.load path).value w = .ok p)
      (hfiles : (p.gather p.settings.javascript).value w = .ok files) (hfile : file ∈ files)
      (htext : text w (p.path file) = .error h)
  | template {p : Project} {l : Location} {h : Halt}
      (hload : (Project.load path).value w = .ok p) (hl : p.resolveTemplate.value w = .ok l)
      (htext : text w (.ofLocation l) = .error h)

variable {o} {path : Path} {w : Workspace}

/-- There is no plan if something cannot be read. -/
theorem Unreadable.plan_ne (h : Unreadable path w) (planned : Plan) :
    (plan path o).value w ≠ .ok (some planned) := by
  intro hplan
  obtain ⟨stories, scripts, html, script, hplanned⟩ := value_plan_eq_some_iff.mp hplan
  cases h with
  | project hload =>
    rw [hplanned.load] at hload
    cases hload
  | story hload hfiles hfile htext =>
    obtain rfl := Except.ok.inj (hplanned.load.symm.trans hload)
    obtain rfl := Except.ok.inj (hplanned.markdown.symm.trans hfiles)
    obtain ⟨source, hsource⟩ := text_of_renderFrom hplanned.render hfile
    rw [htext] at hsource
    cases hsource
  | script hload hfiles hfile htext =>
    obtain rfl := Except.ok.inj (hplanned.load.symm.trans hload)
    obtain rfl := Except.ok.inj (hplanned.javascript.symm.trans hfiles)
    obtain ⟨source, hsource⟩ := text_of_bundle hplanned.bundle hfile
    rw [htext] at hsource
    cases hsource
  | template hload hl htext =>
    obtain rfl := Except.ok.inj (hplanned.load.symm.trans hload)
    obtain ⟨template, htemplate, -⟩ := hplanned.fill
    obtain ⟨l', hl', hsource⟩ := value_readTemplate_eq_ok_iff.mp htemplate
    obtain rfl := Except.ok.inj (hl.symm.trans hl')
    rw [htext] at hsource
    cases hsource

end Build

open Run Build

variable {path : Path} {o : BuildOptions} {w : Workspace}

/-- A build that comes to no plan leaves the directory tree as it is. -/
theorem build_of_no_plan (h : ∀ planned, (plan path o).value w ≠ .ok (some planned)) :
    ((build path o).run.run w).1 ≠ .ok true ∧ ((build path o).run.run w).2.disk = w.disk := by
  obtain ⟨reported, hplan⟩ := (readsOnly_plan o path).exists_run w
  rw [build, run_bind, hplan]
  cases hvalue : (plan path o).value w with
  | error e => exact ⟨nofun, rfl⟩
  | ok found =>
    cases found with
    | none => exact ⟨nofun, rfl⟩
    | some planned => exact absurd hvalue (h planned)

/-- A build that has a plan succeeds, or the directory tree stands in its way. -/
theorem build_of_plan {planned : Plan} (h : (plan path o).value w = .ok (some planned)) :
    ((build path o).run.run w).1 = .ok true ∨
      ∃ e, ((build path o).run.run w).1 = .error (.disk e) := by
  obtain ⟨reported, hplan⟩ := (readsOnly_plan o path).exists_run w
  rw [build, run_bind, hplan, h]
  dsimp only
  have hhalts := haltsByDisk_install o planned { w with happenings := reported }
  rw [run_bind]
  cases hinstall : (install o planned).run.run { w with happenings := reported } with
  | mk result w' =>
    rw [hinstall] at hhalts
    cases result with
    | ok _ => exact .inl rfl
    | error halt =>
      obtain ⟨e, rfl⟩ := hhalts halt rfl
      exact .inr ⟨e, rfl⟩

/-- Whatever a build finds wrong before the directory tree stands in its way, it finds before the
first change. -/
theorem build_disk_of_ne (hok : ((build path o).run.run w).1 ≠ .ok true)
    (hdisk : ∀ e, ((build path o).run.run w).1 ≠ .error (.disk e)) :
    ((build path o).run.run w).2.disk = w.disk := by
  refine (build_of_no_plan fun planned hplanned => ?_).2
  rcases build_of_plan hplanned with htrue | ⟨e, he⟩
  · exact hok htrue
  · exact hdisk e he

/-- A rebuild fails if the build fails or something is wrong with the project. -/
theorem rebuild_disk_of_false (h : ((rebuild path o).run.run w).1 = .ok false) :
    ((rebuild path o).run.run w).2.disk = w.disk := by
  have hdisk := @build_disk_of_ne path o w
  unfold rebuild at h ⊢
  rw [run_tryCatch] at h ⊢
  cases hbuild : (build path o).run.run w with
  | mk result w' =>
    rw [hbuild] at h hdisk
    cases result with
    | ok done =>
      cases h
      exact hdisk nofun nofun
    | error halt =>
      cases halt with
      | project e => exact hdisk nofun nofun
      | _ => cases h

/-- A build that fails, if not because the directory tree stands in the way of its output, has
changed nothing: not if a file of the story has problems, if something is wrong with the project, or
if something that belongs to it cannot be read. -/
theorem failed_build_keeps_disk (path : Path) (o : BuildOptions) (w : Workspace) :
    let built := (build path o).run.run w
    let rebuilt := (rebuild path o).run.run w
    (built.1 = .ok false → built.2.disk = w.disk) ∧
    (∀ h, built.1 = .error h → (∀ e, h ≠ .disk e) → built.2.disk = w.disk) ∧
    (Unreadable path w → built.1 ≠ .ok true ∧ built.2.disk = w.disk) ∧
    (rebuilt.1 = .ok false → rebuilt.2.disk = w.disk) := by
  refine ⟨fun hfalse => ?_, fun h herror hne => ?_, fun h => ?_, rebuild_disk_of_false⟩
  · exact build_disk_of_ne (by simp [hfalse]) (by simp [hfalse])
  · exact build_disk_of_ne (by simp [herror]) (by simpa [herror] using hne)
  · exact build_of_no_plan h.plan_ne

/-- A directory with a page that was built before, and a project file that is no text. -/
def unreadableProject : Workspace :=
  { disk := ⟨[(["story"], .directory), (["story", "fractive.json"], .file ⟨#[0x7b, 0xff]⟩),
      (["story", "build"], .directory), (["story", "build", "index.html"], .file ⟨#[0x3c]⟩)]⟩ }

theorem failed_build_keeps_disk_unreadable :
    let path := Path.ofLocation ["story"]
    let built := (build path {}).run.run unreadableProject
    Unreadable path unreadableProject ∧ built.1 ≠ .ok true ∧
      built.2.disk = unreadableProject.disk := by
  have hload :
      (Project.load (.ofLocation ["story"])).value unreadableProject = .error .encoding := by
    decide +kernel
  exact ⟨.project hload, (failed_build_keeps_disk _ {} unreadableProject).2.2.1 (.project hload)⟩

end Hyperstory
