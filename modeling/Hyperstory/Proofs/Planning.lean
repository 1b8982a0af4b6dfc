import Hyperstory.Proofs.Built
import Hyperstory.Proofs.DirectoryChanges
import Hyperstory.Proofs.Runs

/-! Planning a build: what is read, and that nothing is changed. -/
namespace Hyperstory

open Run

theorem Run.readsOnly_resolve (p : Path) : (Run.resolve p).ReadsOnly := by
  unfold Run.resolve
  split
  · exact readsOnly_look _
  · exact readsOnly_throw _

theorem Run.value_resolve_eq_ok_iff {p : Path} {w : Workspace} {l : Location} :
    (Run.resolve p).value w = .ok l ↔ p.trouble? = none ∧ l = p.resolve w.cwd := by
  unfold Run.resolve
  cases p.trouble? with
  | none =>
    constructor
    · intro h
      exact ⟨rfl, (Except.ok.inj h).symm⟩
    · rintro ⟨-, rfl⟩
      rfl
  | some e =>
    constructor
    · intro h
      cases h
    · rintro ⟨h, -⟩
      cases h

namespace Project

variable (p : Project)

theorem readsOnly_find (path : Path) : (find path).ReadsOnly := by
  unfold find
  refine (readsOnly_ofDisk _).bind fun _ => .ite ?_ ?_
  · refine (readsOnly_ofDisk _).bind fun file => ?_
    cases file with
    | none => exact readsOnly_throw _
    | some file => exact readsOnly_pure file
  · exact (readsOnly_ofDisk _).bind fun _ => .ite (readsOnly_pure _) (readsOnly_throw _)

theorem readsOnly_load (path : Path) : (load path).ReadsOnly := by
  unfold load
  refine (readsOnly_find path).bind fun file => (readsOnly_ofDisk _).bind fun bytes => ?_
  refine (readsOnly_lift _).bind fun _ => (readsOnly_report _).bind fun _ => ?_
  exact (readsOnly_resolve _).bind fun _ => readsOnly_pure _

theorem readsOnly_gather (patterns : List String) : (p.gather patterns).ReadsOnly := by
  unfold gather
  refine (readsOnly_resolve _).bind fun _ => (readsOnly_look _).bind fun found => ?_
  cases found with
  | ok files => exact readsOnly_pure files
  | error h => exact readsOnly_throw h

end Project

namespace Build

variable (p : Project) (o : BuildOptions)

theorem readsOnly_renderFrom (c : Compiler) (files : List String) :
    (renderFrom p c files).ReadsOnly := by
  induction files generalizing c with
  | nil => exact readsOnly_pure _
  | cons file rest ih =>
    rw [renderFrom]
    refine (readsOnly_report _).bind fun _ => (readsOnly_readText _).bind fun source => ?_
    refine (readsOnly_forM (fun _ => readsOnly_report _) _).bind fun _ => ?_
    cases (c.render file source).outcome with
    | error f => exact readsOnly_throw _
    | ok page =>
      cases page with
      | none => exact (ih _).bind fun _ => readsOnly_pure _
      | some page => exact (ih _).bind fun _ => readsOnly_pure _

theorem readsOnly_bundle (files : List String) : (bundle p files).ReadsOnly := by
  induction files with
  | nil => exact readsOnly_pure _
  | cons file rest ih =>
    rw [bundle]
    refine (readsOnly_report _).bind fun _ => (readsOnly_readText _).bind fun _ => ?_
    exact ih.bind fun _ => readsOnly_pure _

theorem readsOnly_readTemplate : (readTemplate p).ReadsOnly := by
  simp only [readTemplate, ite_bind]
  refine (readsOnly_resolve _).bind fun l => (readsOnly_ofDisk _).bind fun found => ?_
  refine (ReadsOnly.ite (readsOnly_throw _) (readsOnly_pure _)).bind fun _ => ?_
  refine (readsOnly_ofDisk _).bind fun isFile => ?_
  refine (ReadsOnly.ite (readsOnly_throw _) (readsOnly_pure _)).bind fun _ => ?_
  exact readsOnly_readText _

/-- All that is read for a plan once the project is loaded. -/
def planFor (debug : Bool) : Run (Option Plan) := do
  let output ← p.resolveOutput
  if output == p.base || p.base.isBelow output then throw (.project (.outputHoldsProject output))
  let stories ← p.gather p.settings.markdown
  let scripts ← p.gather p.settings.javascript
  let assets ← p.gather p.settings.assets
  let (html, problems) ← render p { debug := debug } stories
  if problems > 0 then
    Run.log .error ("Build failed: " ++ toString problems ++ " file" ++
      (if problems == 1 then "" else "s") ++ " had errors")
    pure none
  else
    let script ← bundle p scripts
    let template ← readTemplate p
    let start := p.settings.start
    pure (some ⟨p, output, Page.fill template html script start,
      Page.names template script start stories scripts, assets⟩)

theorem readsOnly_planFor (debug : Bool) : (planFor p debug).ReadsOnly := by
  simp only [planFor, ite_bind]
  refine (readsOnly_resolve _).bind fun output => ?_
  refine (ReadsOnly.ite (readsOnly_throw _) (readsOnly_pure _)).bind fun _ => ?_
  refine (p.readsOnly_gather _).bind fun stories => (p.readsOnly_gather _).bind fun scripts => ?_
  refine (p.readsOnly_gather _).bind fun assets => (readsOnly_renderFrom _ _ _).bind fun pages => ?_
  refine .ite ((readsOnly_report _).bind fun _ => readsOnly_pure _) ?_
  refine (readsOnly_bundle _ _).bind fun _ => (readsOnly_readTemplate _).bind fun _ => ?_
  exact readsOnly_pure _

/-- That nothing will be written. -/
def dryRunWarning : Happening :=
  .logged ⟨.warning, "(This is a dry run. No output files will be written.)"⟩

theorem plan_eq (path : Path) : plan path o = Project.load path >>= fun p =>
    (if o.dryRun then report dryRunWarning else pure ()) >>= fun _ => planFor p o.debug := by
  simp only [plan, planFor, ite_bind]
  rfl

/-- A plan is made without changes to the directory tree. -/
theorem readsOnly_plan (path : Path) : (plan path o).ReadsOnly := by
  rw [plan_eq]
  refine (Project.readsOnly_load path).bind fun p => ?_
  exact (ReadsOnly.ite (readsOnly_report _) (readsOnly_pure _)).bind fun _ => readsOnly_planFor p _

variable {p o} {w : Workspace}

theorem value_plan {path : Path} (h : (Project.load path).value w = .ok p) :
    (plan path o).value w = (planFor p o.debug).value w := by
  rw [← (readsOnly_plan o path).run_eq w, plan_eq]
  refine (Project.readsOnly_load path).bind_eq h fun _ => ?_
  refine (ReadsOnly.ite (readsOnly_report _) (readsOnly_pure _)).bind_eq
    (a := ()) (by split <;> rfl) fun _ => ?_
  exact (readsOnly_planFor p o.debug).run_eq _

/-- A file before others: what it comes to and what those come to. -/
def prepend (file : String) :
    Except Fault (Option String) → Except Halt (String × Nat) → Except Halt (String × Nat)
  | .error f, _ => .error (.story f)
  | .ok none, others => others >>= fun found => .ok (found.1, found.2 + 1)
  | .ok (some page), others => others >>= fun found =>
    .ok ("<!-- " ++ file ++ " -->\n" ++ page ++ "\n" ++ found.1, found.2)

theorem exists_of_prepend {file : String} {outcome : Except Fault (Option String)}
    {others : Except Halt (String × Nat)} {found : String × Nat}
    (h : prepend file outcome others = .ok found) : ∃ found', others = .ok found' := by
  rcases outcome with f | _ | page
  · cases h
  · obtain ⟨found', hothers, -⟩ := exists_of_bind_ok h
    exact ⟨found', hothers⟩
  · obtain ⟨found', hothers, -⟩ := exists_of_bind_ok h
    exact ⟨found', hothers⟩

/-- What is left to compile once the first file was read. -/
theorem value_renderFrom_cons (p : Project) (c : Compiler) (file : String) (rest : List String)
    (w : Workspace) :
    (renderFrom p c (file :: rest)).value w = text w (p.path file) >>= fun source =>
      prepend file (c.render file source).outcome
        ((renderFrom p (c.render file source).compiler rest).value w) := by
  rw [← (readsOnly_renderFrom p c (file :: rest)).run_eq w, renderFrom]
  obtain ⟨reported, hfirst⟩ := run_logged_text "render" file (p.path file) _ w
  refine hfirst.trans (congrArg (text w (p.path file) >>= ·) (funext fun source => ?_))
  have hreports : ∀ record, (report (.logged record)).ReadsOnly := fun _ => readsOnly_report _
  obtain ⟨_, hreport⟩ := (readsOnly_forM hreports _).run_bind_of_ok
    (w := { w with happenings := reported })
    (value_forM hreports (fun _ => rfl) (c.render file source).log)
  dsimp only
  rw [hreport]
  cases (c.render file source).outcome with
  | error f => rfl
  | ok page =>
    cases page with
    | none => exact (readsOnly_renderFrom _ _ _).value_map _ _
    | some page => exact (readsOnly_renderFrom _ _ _).value_map _ _

/-- The files that are compiled or put behind each other can be read. -/
theorem text_of_renderFrom {c : Compiler} {files : List String} {found : String × Nat}
    (h : (renderFrom p c files).value w = .ok found) {file : String} (hfile : file ∈ files) :
    ∃ source, text w (p.path file) = .ok source := by
  induction files generalizing c found with
  | nil => cases hfile
  | cons first rest ih =>
    rw [value_renderFrom_cons] at h
    obtain ⟨source, hsource, h⟩ := exists_of_bind_ok h
    rcases List.mem_cons.mp hfile with rfl | hfile
    · exact ⟨source, hsource⟩
    · obtain ⟨found', hrest⟩ := exists_of_prepend h
      exact ih hrest hfile

theorem value_bundle_cons (p : Project) (file : String) (rest : List String) (w : Workspace) :
    (bundle p (file :: rest)).value w = text w (p.path file) >>= fun script =>
      (bundle p rest).value w >>= fun more =>
        .ok ("// " ++ file ++ "\n" ++ script ++ "\n" ++ more) := by
  rw [← (readsOnly_bundle p (file :: rest)).run_eq w, bundle]
  obtain ⟨reported, hfirst⟩ := run_logged_text "import" file (p.path file) _ w
  refine hfirst.trans (congrArg (text w (p.path file) >>= ·) (funext fun script => ?_))
  exact (readsOnly_bundle p rest).value_map _ _

theorem text_of_bundle {files : List String} {script : String}
    (h : (bundle p files).value w = .ok script) {file : String} (hfile : file ∈ files) :
    ∃ source, text w (p.path file) = .ok source := by
  induction files generalizing script with
  | nil => cases hfile
  | cons first rest ih =>
    rw [value_bundle_cons] at h
    obtain ⟨source, hsource, h⟩ := exists_of_bind_ok h
    obtain ⟨more, hmore, -⟩ := exists_of_bind_ok h
    rcases List.mem_cons.mp hfile with rfl | hfile
    · exact ⟨source, hsource⟩
    · exact ih hmore hfile

theorem value_readTemplate_eq_ok_iff {template : String} :
    (readTemplate p).value w = .ok template ↔
      ∃ l, p.resolveTemplate.value w = .ok l ∧ text w (.ofLocation l) = .ok template := by
  rw [← (readsOnly_readTemplate p).run_eq w]
  simp only [readTemplate, ite_bind]
  constructor
  · intro h
    obtain ⟨l, _, hl, h⟩ := (readsOnly_resolve _).exists_of_bind_ok h
    obtain ⟨found, _, -, h⟩ := (readsOnly_ofDisk _).exists_of_bind_ok h
    obtain ⟨-, _, -, h⟩ :=
      (ReadsOnly.ite (readsOnly_throw _) (readsOnly_pure _)).exists_of_bind_ok h
    obtain ⟨isFile, _, -, h⟩ := (readsOnly_ofDisk _).exists_of_bind_ok h
    obtain ⟨-, _, -, h⟩ :=
      (ReadsOnly.ite (readsOnly_throw _) (readsOnly_pure _)).exists_of_bind_ok h
    rw [readText_run] at h
    exact ⟨l, hl, h⟩
  · rintro ⟨l, hl, htemplate⟩
    -- What reads as a text is there and is a file.
    obtain ⟨place, bytes, hfind⟩ : ∃ place bytes,
        w.disk.find w.cwd (.ofLocation l) = .ok (place, .file bytes) := by
      unfold text at htemplate
      cases hread : w.disk.read w.cwd (.ofLocation l) with
      | error e =>
        rw [hread] at htemplate
        cases htemplate
      | ok bytes =>
        obtain ⟨place, hfind⟩ := Disk.read_eq_ok_iff.mp hread
        exact ⟨place, bytes, hfind⟩
    have hasked : ∀ wanted : Item → Bool,
        w.disk.ask w.cwd (.ofLocation l) wanted = .ok (wanted (.file bytes)) := by
      intro wanted
      rw [Disk.ask, hfind]
    refine (readsOnly_resolve _).bind_eq hl fun _ => ?_
    refine (readsOnly_ofDisk _).bind_eq (value_ofDisk_eq_ok_iff.mpr (hasked _)) fun _ => ?_
    refine (ReadsOnly.ite (readsOnly_throw _) (readsOnly_pure _)).bind_eq (a := ()) rfl fun _ => ?_
    refine (readsOnly_ofDisk _).bind_eq (value_ofDisk_eq_ok_iff.mpr (hasked _)) fun _ => ?_
    refine (ReadsOnly.ite (readsOnly_throw _) (readsOnly_pure _)).bind_eq (a := ()) rfl fun _ => ?_
    rw [readText_run]
    exact htemplate

theorem value_fillTemplate {template : String} (h : (readTemplate p).value w = .ok template)
    (html script : String) : (fillTemplate p html script).value w =
      .ok (Page.fill template html script p.settings.start) := by
  refine ((readsOnly_readTemplate p).value_map _ _).trans ?_
  rw [value_with_happenings, h]
  rfl

/-- What a plan is made from. -/
structure Planned (path : Path) (o : BuildOptions) (w : Workspace) (planned : Plan)
    (stories scripts : List String) (html script : String) : Prop where
  load : (Project.load path).value w = .ok planned.project
  output : planned.project.resolveOutput.value w = .ok planned.output
  /-- The output directory does not hold the project. -/
  apart : ¬ planned.output <+: planned.project.base
  markdown : (planned.project.gather planned.project.settings.markdown).value w = .ok stories
  javascript : (planned.project.gather planned.project.settings.javascript).value w = .ok scripts
  assets : (planned.project.gather planned.project.settings.assets).value w = .ok planned.assets
  render : (render planned.project o stories).value w = .ok (html, 0)
  bundle : (bundle planned.project scripts).value w = .ok script
  fill : ∃ template, (readTemplate planned.project).value w = .ok template ∧
    planned.page = Page.fill template html script planned.project.settings.start ∧
    planned.names = Page.names template script planned.project.settings.start stories scripts

theorem holds_project_iff {output base : Location} :
    (output == base || base.isBelow output) = true ↔ output <+: base := by
  rw [Bool.or_eq_true, beq_iff_eq, eq_comm, Location.eq_or_isBelow_iff]

theorem value_plan_eq_some_iff {path : Path} {planned : Plan} :
    (plan path o).value w = .ok (some planned) ↔
      ∃ stories scripts html script, Planned path o w planned stories scripts html script := by
  constructor
  · intro h
    rw [← (readsOnly_plan o path).run_eq w, plan_eq] at h
    obtain ⟨p, _, hload, h⟩ := (Project.readsOnly_load path).exists_of_bind_ok h
    obtain ⟨-, _, -, h⟩ :=
      (ReadsOnly.ite (readsOnly_report _) (readsOnly_pure _)).exists_of_bind_ok h
    simp only [planFor, ite_bind] at h
    obtain ⟨output, _, houtput, h⟩ := (readsOnly_resolve _).exists_of_bind_ok h
    obtain ⟨_, _, hguard, h⟩ :=
      (ReadsOnly.ite (readsOnly_throw _) (readsOnly_pure _)).exists_of_bind_ok h
    have hapart : ¬ output <+: p.base := by
      intro hholds
      rw [if_pos (holds_project_iff.mpr hholds)] at hguard
      cases hguard
    obtain ⟨stories, _, hstories, h⟩ := (p.readsOnly_gather _).exists_of_bind_ok h
    obtain ⟨scripts, _, hscripts, h⟩ := (p.readsOnly_gather _).exists_of_bind_ok h
    obtain ⟨assets, _, hassets, h⟩ := (p.readsOnly_gather _).exists_of_bind_ok h
    obtain ⟨found, _, hhtml, h⟩ := (readsOnly_renderFrom _ _ _).exists_of_bind_ok h
    dsimp only at h
    split at h
    · cases h
    · rename_i hproblems
      obtain ⟨script, _, hscript, h⟩ := (readsOnly_bundle _ _).exists_of_bind_ok h
      obtain ⟨template, _, htemplate, h⟩ := (readsOnly_readTemplate _).exists_of_bind_ok h
      obtain rfl := Option.some.inj (Except.ok.inj h)
      have hnone : found = (found.1, 0) := Prod.ext rfl (by omega)
      exact ⟨stories, scripts, found.1, script, hload, houtput, hapart, hstories, hscripts, hassets,
        hnone ▸ hhtml, hscript, template, htemplate, rfl, rfl⟩
  · rintro ⟨stories, scripts, html, script, h⟩
    rw [value_plan h.load, ← (readsOnly_planFor _ _).run_eq]
    simp only [planFor, ite_bind]
    refine (readsOnly_resolve _).bind_eq h.output fun _ => ?_
    refine (ReadsOnly.ite (readsOnly_throw _) (readsOnly_pure _)).bind_eq
      (a := ()) (by rw [if_neg (mt holds_project_iff.mp h.apart)]; rfl) fun _ => ?_
    refine (planned.project.readsOnly_gather _).bind_eq h.markdown fun _ => ?_
    refine (planned.project.readsOnly_gather _).bind_eq h.javascript fun _ => ?_
    refine (planned.project.readsOnly_gather _).bind_eq h.assets fun _ => ?_
    refine (readsOnly_renderFrom _ _ _).bind_eq h.render fun _ => ?_
    refine (readsOnly_bundle _ _).bind_eq h.bundle fun _ => ?_
    obtain ⟨template, htemplate, hpage, hnames⟩ := h.fill
    refine (readsOnly_readTemplate _).bind_eq htemplate fun _ => ?_
    rw [← hpage, ← hnames]
    rfl

end Build

end Hyperstory
