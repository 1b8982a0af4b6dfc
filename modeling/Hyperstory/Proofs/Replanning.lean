import Hyperstory.Proofs.Gathering

/-!
Planning a build again. Where nothing but the output directory is different, the same plan is made if
neither the project file nor the template nor a source lies there.
-/
namespace Hyperstory

open Run Location Hyperstory.Path

namespace Project.Undisturbed

variable {p : Project} {d d' : Disk} {cwd l : Location} {path q : Path} {i : Item}

/-- What was found on a way that does not lead through the output directory is still there. -/
theorem get?_way (h : p.Undisturbed d d')
    (hway : ∀ pre, pre <+: q.names → ¬ p.output <+: pre.foldl step (q.start cwd))
    (hfind : d.find cwd q = .ok (l, i)) {pre : List String} (hpre : pre <+: q.names) :
    d'.get? (pre.foldl step (q.start cwd)) = d.get? (pre.foldl step (q.start cwd)) := by
  obtain ⟨hlocate, hget⟩ := Disk.find_eq_ok_iff.mp hfind
  obtain ⟨-, -, hleads, hl⟩ := Disk.locate_eq_ok_iff.mp hlocate
  refine (h.keepsAt _ (hway pre hpre)).get?_eq ?_
  rcases eq_or_ne pre q.names with rfl | hne
  · rw [show q.names.foldl step (q.start cwd) = l from hl.symm, hget]
    rfl
  · obtain ⟨rest, hrest⟩ := hpre
    cases rest with
    | nil => exact absurd (by simpa using hrest) hne
    | cons name rest =>
      rw [(hleads pre name ⟨rest, by simpa using hrest⟩).1]
      rfl

theorem find_eq (h : p.Undisturbed d d')
    (hway : ∀ pre, pre <+: q.names → ¬ p.output <+: pre.foldl step (q.start cwd))
    (hfind : d.find cwd q = .ok (l, i)) : d'.find cwd q = .ok (l, i) := by
  rw [← hfind]
  exact Disk.find_congr fun pre hpre => h.get?_way hway hfind hpre

theorem isFile_eq_true (h : p.Undisturbed d d')
    (hway : ∀ pre, pre <+: q.names → ¬ p.output <+: pre.foldl step (q.start cwd))
    (hfile : d.isFile cwd q = .ok true) : d'.isFile cwd q = .ok true := by
  obtain ⟨l, i, hfind, hi⟩ := Disk.ask_eq_true_iff.mp hfile
  exact Disk.ask_eq_true_iff.mpr ⟨l, i, h.find_eq hway hfind, hi⟩

/-- In a directory outside the output directory no file appears. -/
theorem isFile_eq_false (h : p.Undisturbed d d') {name : String} (hname : name ≠ "..")
    (hway : ∀ pre, pre <+: path.names → ¬ p.output <+: pre.foldl step (path.start cwd))
    (hdir : d.isDirectory cwd path = .ok true)
    (hnot : d.isFile cwd (path.join ⟨.here, [name]⟩) = .ok false) :
    d'.isFile cwd (path.join ⟨.here, [name]⟩) = .ok false := by
  obtain ⟨l, i, hfind, -⟩ := Disk.ask_eq_true_iff.mp hdir
  have hlocate : d'.locate cwd (path.join ⟨.here, [name]⟩) =
      d.locate cwd (path.join ⟨.here, [name]⟩) := by
    refine Disk.locate_congr fun pre last hpre => h.get?_way hway hfind ?_
    rcases List.prefix_concat_iff.mp (show pre ++ [last] <+: path.names ++ [name] from hpre) with
      heq | hpre'
    · exact (List.append_inj' heq rfl).1 ▸ List.prefix_refl _
    · exact (List.prefix_append _ _).trans hpre'
  cases hfind' : d'.find cwd (path.join ⟨.here, [name]⟩) with
  | ok found =>
    obtain ⟨m, j⟩ := found
    cases j with
    | directory => rw [Disk.isFile, Disk.ask, hfind']; rfl
    | file bytes =>
      obtain ⟨hm, hget⟩ := Disk.find_eq_ok_iff.mp hfind'
      have hplace : m = path.names.foldl step (path.start cwd) ++ [name] := by
        obtain ⟨-, -, -, heq⟩ := Disk.locate_eq_ok_iff.mp hm
        have hresolve : (path.join ⟨.here, [name]⟩).resolve cwd =
            (path.names ++ [name]).foldl step (path.start cwd) := rfl
        rw [heq, hresolve, List.foldl_append, List.foldl_cons, List.foldl_nil, step_of_ne hname]
      -- A new file could only be the output directory itself.
      by_cases hout : p.output <+: m
      · rcases List.prefix_concat_iff.mp (hplace ▸ hout) with heq | hpre
        · rw [hplace, ← heq, h.output] at hget
          cases hget
        · exact absurd hpre (hway _ (List.prefix_refl _))
      · have hbefore := (h.keepsAt m hout).file_iff.mp hget
        have hfound := Disk.find_eq_ok_iff.mpr ⟨hlocate ▸ hm, hbefore⟩
        rw [Disk.isFile, Disk.ask, hfound] at hnot
        cases hnot
  | error e =>
    cases e with
    | tooLong =>
      have hlong := Disk.find_eq_tooLong_iff.mpr (hlocate ▸ Disk.find_eq_tooLong_iff.mp hfind')
      rw [Disk.isFile, Disk.ask, hlong] at hnot
      cases hnot
    | _ => rw [Disk.isFile, Disk.ask, hfind']

end Project.Undisturbed

theorem findM?_eq_some_of {α ε : Type} {f g : α → Except ε Bool} {xs : List α} {x : α}
    (h : xs.findM? f = .ok (some x)) (htrue : f x = .ok true → g x = .ok true)
    (hfalse : ∀ y ∈ xs, f y = .ok false → g y = .ok false) : xs.findM? g = .ok (some x) := by
  induction xs with
  | nil => cases h
  | cons y xs ih =>
    rw [List.findM?] at h ⊢
    obtain ⟨found, hfound, h⟩ := exists_of_bind_ok h
    cases found with
    | true =>
      obtain rfl : y = x := Option.some.inj (Except.ok.inj h)
      rw [htrue hfound]
      rfl
    | false =>
      rw [hfalse y List.mem_cons_self hfound]
      exact ih h fun z hz => hfalse z (List.mem_cons_of_mem _ hz)

theorem mem_of_findM?_eq_some {α ε : Type} {f : α → Except ε Bool} {xs : List α} {x : α}
    (h : xs.findM? f = .ok (some x)) : x ∈ xs := by
  induction xs with
  | nil => cases h
  | cons y xs ih =>
    rw [List.findM?] at h
    obtain ⟨found, -, h⟩ := exists_of_bind_ok h
    cases found with
    | true =>
      obtain rfl : y = x := Option.some.inj (Except.ok.inj h)
      exact List.mem_cons_self
    | false => exact List.mem_cons_of_mem _ (ih h)

namespace Project

variable {p : Project} {w w' : Workspace} {path file : Path}

theorem value_find_eq_ok_iff : (Project.find path).value w = .ok file ↔
    (w.disk.isDirectory w.cwd path = .ok true ∧
      (fileNames.map fun name => path.join ⟨.here, [name]⟩).findM? (w.disk.isFile w.cwd) =
        .ok (some file)) ∨
    (w.disk.isDirectory w.cwd path = .ok false ∧ w.disk.isFile w.cwd path = .ok true ∧
      file = path) := by
  rw [← (readsOnly_find path).run_eq w]
  unfold Project.find
  constructor
  · intro h
    obtain ⟨isDir, _, hdir, h⟩ := (readsOnly_ofDisk _).exists_of_bind_ok h
    have hdir' := value_ofDisk_eq_ok_iff.mp hdir
    cases isDir with
    | true =>
      rw [if_pos rfl] at h
      obtain ⟨found, _, hfound, h⟩ := (readsOnly_ofDisk _).exists_of_bind_ok h
      cases found with
      | none => cases h
      | some found =>
        obtain rfl : found = file := Except.ok.inj h
        exact .inl ⟨hdir', value_ofDisk_eq_ok_iff.mp hfound⟩
    | false =>
      rw [if_neg Bool.false_ne_true] at h
      obtain ⟨isFile, _, hfile, h⟩ := (readsOnly_ofDisk _).exists_of_bind_ok h
      cases isFile with
      | false => cases h
      | true =>
        obtain rfl : path = file := Except.ok.inj h
        exact .inr ⟨hdir', value_ofDisk_eq_ok_iff.mp hfile, rfl⟩
  · rintro (⟨hdir, hfound⟩ | ⟨hdir, hfile, rfl⟩)
    · refine (readsOnly_ofDisk _).bind_eq (value_ofDisk_eq_ok_iff.mpr hdir) fun _ => ?_
      rw [if_pos rfl]
      exact (readsOnly_ofDisk _).bind_eq (value_ofDisk_eq_ok_iff.mpr hfound) fun _ => rfl
    · refine (readsOnly_ofDisk _).bind_eq (value_ofDisk_eq_ok_iff.mpr hdir) fun _ => ?_
      rw [if_neg Bool.false_ne_true]
      exact (readsOnly_ofDisk _).bind_eq (value_ofDisk_eq_ok_iff.mpr hfile) fun _ => rfl

theorem up_notMem_template (p : Project) : ".." ∉ p.template := by
  intro hmem
  rw [template, resolve_of_rooted path_rooted] at hmem
  rcases mem_of_mem_foldl_step hmem with hnil | ⟨-, hne⟩
  · cases hnil
  · exact hne rfl

variable (h : p.Undisturbed w.disk w'.disk) (hcwd : w'.cwd = w.cwd)
include h hcwd

/-- The same project file is found if the way to it does not lead through the output directory. -/
theorem Undisturbed.value_find (hfind : (Project.find path).value w = .ok file)
    (hway : ∀ pre, pre <+: file.names → ¬ p.output <+: pre.foldl step (file.start w.cwd)) :
    (Project.find path).value w' = .ok file := by
  rw [value_find_eq_ok_iff] at hfind ⊢
  rw [hcwd]
  rcases hfind with ⟨hdir, hfound⟩ | ⟨hdir, hfile, rfl⟩
  · left
    obtain ⟨name, -, rfl⟩ := List.mem_map.mp (mem_of_findM?_eq_some hfound)
    have hpath : ∀ pre, pre <+: path.names → ¬ p.output <+: pre.foldl step (path.start w.cwd) :=
      fun pre hpre => hway pre (hpre.trans (List.prefix_append _ _))
    refine ⟨?_, findM?_eq_some_of hfound (h.isFile_eq_true hway) fun q hq hfalse => ?_⟩
    · obtain ⟨l, i, hfind, hi⟩ := Disk.ask_eq_true_iff.mp hdir
      exact Disk.ask_eq_true_iff.mpr ⟨l, i, h.find_eq hpath hfind, hi⟩
    · obtain ⟨other, hother, rfl⟩ := List.mem_map.mp hq
      have hup : other ≠ ".." := by
        rintro rfl
        revert hother
        decide
      exact h.isFile_eq_false hup hpath hdir hfalse
  · right
    obtain ⟨l, i, hfind, hi⟩ := Disk.ask_eq_true_iff.mp hfile
    have hfind' := h.find_eq hway hfind
    refine ⟨?_, Disk.ask_eq_true_iff.mpr ⟨l, i, hfind', hi⟩, rfl⟩
    rw [Disk.isDirectory, Disk.ask, hfind] at hdir
    rw [Disk.isDirectory, Disk.ask, hfind']
    exact hdir

theorem Undisturbed.value_load (hload : (load path).value w = .ok p)
    (hway : ∀ file, (Project.find path).value w = .ok file →
      ∀ pre, pre <+: file.names → ¬ p.output <+: pre.foldl step (file.start w.cwd)) :
    (load path).value w' = .ok p := by
  rw [value_load_eq_ok_iff] at hload ⊢
  obtain ⟨file, bytes, hfind, hread, hsettings, htrouble, hbase⟩ := hload
  obtain ⟨l, hfound⟩ := Disk.read_eq_ok_iff.mp hread
  refine ⟨file, bytes, h.value_find hcwd hfind (hway file hfind), ?_, hsettings, htrouble, ?_⟩
  · rw [hcwd]
    exact Disk.read_eq_ok_iff.mpr ⟨l, h.find_eq (hway file hfind) hfound⟩
  · rw [hcwd, hbase]

theorem Undisturbed.text_eq {f : String} {names : List String} (hf : p.Found w.disk f names)
    (hout : ¬ p.output <+: p.place f) : text w' (p.path f) = text w (p.path f) := by
  rw [Run.text, Run.text, hcwd, h.read_eq hf hout]

theorem Undisturbed.text_template_eq (hout : ¬ p.output <+: p.template) {template : String}
    (htext : text w (ofLocation p.template) = .ok template) :
    text w' (ofLocation p.template) = .ok template := by
  have hway : ∀ pre, pre <+: (ofLocation p.template).names →
      ¬ p.output <+: pre.foldl step ((ofLocation p.template).start w.cwd) := by
    intro pre hpre
    have hup : ".." ∉ pre := fun hmem => p.up_notMem_template (hpre.subset hmem)
    rw [start_ofLocation, foldl_step hup]
    exact fun hpre' => hout (hpre'.trans hpre)
  unfold Run.text at htext ⊢
  rw [hcwd]
  cases hread : w.disk.read w.cwd (ofLocation p.template) with
  | error e =>
    rw [hread] at htext
    cases htext
  | ok bytes =>
    obtain ⟨l, hfind⟩ := Disk.read_eq_ok_iff.mp hread
    rw [Disk.read_eq_ok_iff.mpr ⟨l, h.find_eq hway hfind⟩]
    rw [hread] at htext
    exact htext

/-- The output directory of a project holds nothing that the project is built from. No pattern has two
dots behind a name, so none leads into the output directory and out of it again. -/
structure Separate (p : Project) (path : Path) (w : Workspace) : Prop where
  file : ∀ file, (Project.find path).value w = .ok file →
    ∀ pre, pre <+: file.names → ¬ p.output <+: pre.foldl step (file.start w.cwd)
  template : ¬ p.output <+: p.template
  sources : ∀ patterns ∈ [p.settings.markdown, p.settings.javascript],
    ∀ files, (p.gather patterns).value w = .ok files → ∀ f ∈ files, p.place f ≠ p.output
  assets : ∀ files, (p.gather p.settings.assets).value w = .ok files →
    ∀ a ∈ files, ".." ∉ namesIn a
  patterns : ∀ patterns ∈ [p.settings.markdown, p.settings.javascript, p.settings.assets,
    p.settings.ignore], ∀ s ∈ patterns, Falls (namesIn s)

end Project

namespace Build

variable {p : Project} {o : BuildOptions} {w w' : Workspace} {files : List String}

/-- What compiling gives depends on what the files read as. -/
theorem value_renderFrom_congr (h : ∀ f ∈ files, text w' (p.path f) = text w (p.path f))
    (c : Compiler) : (renderFrom p c files).value w' = (renderFrom p c files).value w := by
  induction files generalizing c with
  | nil => rfl
  | cons file rest ih =>
    obtain ⟨hfile, hrest⟩ := List.forall_mem_cons.mp h
    simp only [value_renderFrom_cons, hfile, ih hrest]

theorem value_bundle_congr (h : ∀ f ∈ files, text w' (p.path f) = text w (p.path f)) :
    (bundle p files).value w' = (bundle p files).value w := by
  induction files with
  | nil => rfl
  | cons file rest ih =>
    obtain ⟨hfile, hrest⟩ := List.forall_mem_cons.mp h
    simp only [value_bundle_cons, hfile, ih hrest]

theorem value_plan_of_gather_error {path : Path} {output : Location} {e : Halt}
    (hload : (Project.load path).value w = .ok p) (houtput : p.resolveOutput.value w = .ok output)
    (hapart : ¬ output <+: p.base)
    (h : (p.gather p.settings.markdown).value w = .error e ∨
      ∃ stories, (p.gather p.settings.markdown).value w = .ok stories ∧
        ((p.gather p.settings.javascript).value w = .error e ∨
          ∃ scripts, (p.gather p.settings.javascript).value w = .ok scripts ∧
            (p.gather p.settings.assets).value w = .error e)) :
    (plan path o).value w = .error e := by
  rw [value_plan hload, ← (readsOnly_planFor _ _).run_eq]
  simp only [planFor, ite_bind]
  refine (readsOnly_resolve _).bind_eq houtput fun _ => ?_
  refine (ReadsOnly.ite (readsOnly_throw _) (readsOnly_pure _)).bind_eq
    (a := ()) (by rw [if_neg (mt holds_project_iff.mp hapart)]; rfl) fun _ => ?_
  rcases h with hmarkdown | ⟨stories, hmarkdown, h⟩
  · exact (p.readsOnly_gather _).run_bind_of_error hmarkdown
  refine (p.readsOnly_gather _).bind_eq hmarkdown fun _ => ?_
  rcases h with hjavascript | ⟨scripts, hjavascript, hassets⟩
  · exact (p.readsOnly_gather _).run_bind_of_error hjavascript
  refine (p.readsOnly_gather _).bind_eq hjavascript fun _ => ?_
  exact (p.readsOnly_gather _).run_bind_of_error hassets

/-- The same plan is made again, or a pattern leads to a path that is too long. -/
theorem Planned.again {path : Path} {planned : Plan} {stories scripts : List String}
    {html script : String} (hplanned : Planned path o w planned stories scripts html script)
    (h : planned.project.Undisturbed w.disk w'.disk) (hcwd : w'.cwd = w.cwd)
    (hseparate : planned.project.Separate path w)
    (hassets : ∀ a ∈ planned.assets, planned.project.place a ≠ planned.project.output) :
    Planned path o w' planned stories scripts html script ∨
      (plan path o).value w' = .error (.disk .tooLong) ∧
        ∃ patterns ∈ [planned.project.settings.markdown, planned.project.settings.javascript,
          planned.project.settings.assets],
          planned.project.gatherFrom w'.disk patterns = .error (.disk .tooLong) := by
  have houtput : planned.project.resolveOutput.value w' = .ok planned.output :=
    Project.value_resolve_path_eq_ok_iff.mpr (Project.value_resolve_path_eq_ok_iff.mp hplanned.output)
  have hload := h.value_load hcwd hplanned.load hseparate.file
  -- Patterns give the same files again, or lead to a path that is too long.
  have gathers : ∀ {patterns files : List String},
      (planned.project.gather patterns).value w = .ok files →
      (∀ s ∈ patterns, Falls (namesIn s)) →
      (∀ f ∈ files, planned.project.place f ≠ planned.project.output) →
      (planned.project.gather patterns).value w' = .ok files ∨
        (planned.project.gather patterns).value w' = .error (.disk .tooLong) := by
    intro patterns files hgather hfalls hne
    rw [hplanned.value_gather] at hgather ⊢
    exact h.gatherFrom_again hfalls (hseparate.patterns _ (by simp)) hgather hne
  have reads : ∀ {patterns files : List String},
      (planned.project.gather patterns).value w = .ok files →
      (∀ s ∈ patterns, Falls (namesIn s)) →
      (∀ f ∈ files, planned.project.place f ≠ planned.project.output) →
      ∀ f ∈ files, text w' (planned.project.path f) = text w (planned.project.path f) := by
    intro patterns files hgather hfalls hne f hf
    rw [hplanned.value_gather] at hgather
    obtain ⟨names, hfound⟩ := Project.found_of_mem_gatherFrom h.placed h.formed hfalls hgather hf
    have hnot := Project.isOutput_eq_false hgather hf
    exact h.text_eq hcwd hfound (Project.not_prefix_place (hne f hf) hnot)
  have hstories := hseparate.sources _ (by simp) _ hplanned.markdown
  have hscripts := hseparate.sources _ (by simp) _ hplanned.javascript
  rcases gathers hplanned.markdown (hseparate.patterns _ (by simp)) hstories with
    hmarkdown | hlong
  swap
  · exact .inr ⟨value_plan_of_gather_error hload houtput hplanned.apart (.inl hlong),
      _, by simp, (hplanned.value_gather w' _).symm.trans hlong⟩
  rcases gathers hplanned.javascript (hseparate.patterns _ (by simp)) hscripts with
    hjavascript | hlong
  swap
  · exact .inr ⟨value_plan_of_gather_error hload houtput hplanned.apart
      (.inr ⟨stories, hmarkdown, .inl hlong⟩), _, by simp,
      (hplanned.value_gather w' _).symm.trans hlong⟩
  rcases gathers hplanned.assets (hseparate.patterns _ (by simp)) hassets with hagain | hlong
  swap
  · exact .inr ⟨value_plan_of_gather_error hload houtput hplanned.apart
      (.inr ⟨stories, hmarkdown, .inr ⟨scripts, hjavascript, hlong⟩⟩), _, by simp,
      (hplanned.value_gather w' _).symm.trans hlong⟩
  left
  refine ⟨hload, houtput, hplanned.apart, hmarkdown, hjavascript, hagain, ?_, ?_, ?_⟩
  · have htexts := reads hplanned.markdown (hseparate.patterns _ (by simp)) hstories
    exact (value_renderFrom_congr htexts _).trans hplanned.render
  · have htexts := reads hplanned.javascript (hseparate.patterns _ (by simp)) hscripts
    exact (value_bundle_congr htexts).trans hplanned.bundle
  · obtain ⟨template, htemplate, hfilled⟩ := hplanned.fill
    obtain ⟨l, hl, htext⟩ := value_readTemplate_eq_ok_iff.mp htemplate
    obtain ⟨htrouble, rfl⟩ := Project.value_resolve_path_eq_ok_iff.mp hl
    refine ⟨template, value_readTemplate_eq_ok_iff.mpr ⟨planned.project.template,
      Project.value_resolve_path_eq_ok_iff.mpr ⟨htrouble, rfl⟩, ?_⟩, hfilled⟩
    exact h.text_template_eq hcwd hseparate.template htext

end Build

end Hyperstory
