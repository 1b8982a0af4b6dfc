import Hyperstory.Proofs.Installing

/-!
What a build changes. Outside the output directory only the copies of files can appear that lie
above the project, and the output directory holds the page, the copies and nothing else.
-/
namespace Hyperstory

namespace Build

open Run Location Hyperstory.Path

variable {o : BuildOptions} {path : Path} {w : Workspace}

/-! ### Dry runs -/

theorem readsOnly_cleanUpTo (hdry : o.dryRun = true) (n : Nat) (p : Path) :
    (cleanUpTo o n p).ReadsOnly := by
  induction n generalizing p with
  | zero => exact readsOnly_pure ()
  | succ n ih =>
    simp only [cleanUpTo, ite_bind, hdry, Bool.not_true, Bool.false_eq_true, if_false]
    have hlog : ∀ action : String, ((if o.verbose = true then logAction action p.text else pure ()) >>=
        fun _ => (pure () : Run Unit)).ReadsOnly := fun _ =>
      (ReadsOnly.ite (readsOnly_report _) (readsOnly_pure _)).bind fun _ => readsOnly_pure ()
    refine (readsOnly_ofDisk _).bind fun _ => .ite ?_ (hlog _)
    refine (readsOnly_look _).bind fun names => ?_
    exact (readsOnly_forM (fun name => ih _) names).bind fun _ => hlog _

theorem readsOnly_copy (hdry : o.dryRun = true) (p : Project) (target : Path)
    (files : List String) : (copy p o target files).ReadsOnly := by
  induction files with
  | nil => exact readsOnly_pure ()
  | cons file rest ih =>
    simp only [copy, hdry, Bool.not_true, Bool.false_eq_true, if_false]
    exact (readsOnly_report _).bind fun _ => ih

/-- A dry run leaves all as it is. -/
theorem readsOnly_install (hdry : o.dryRun = true) (planned : Plan) :
    (install o planned).ReadsOnly := by
  simp only [install, ite_bind, hdry, Bool.not_true, Bool.false_eq_true, if_false]
  refine (readsOnly_ofDisk _).bind fun _ => ?_
  refine (ReadsOnly.ite ?_ (readsOnly_pure _)).bind fun _ => ?_
  · exact (readsOnly_look _).bind fun _ => readsOnly_cleanUpTo hdry _ _
  refine (readsOnly_copy hdry _ _ _).bind fun _ => ?_
  exact (readsOnly_report _).bind fun _ => readsOnly_pure _

/-! ### Builds that succeed -/

theorem exists_of_build (h : ((build path o).run.run w).1 = .ok true) :
    ∃ planned reported, (plan path o).value w = .ok (some planned) ∧
      (install o planned).Gives { w with happenings := reported } ()
        ((build path o).run.run w).2 := by
  obtain ⟨reported, hplan⟩ := (readsOnly_plan o path).exists_run w
  rw [build, run_bind, hplan] at h ⊢
  cases hvalue : (plan path o).value w with
  | error e =>
    rw [hvalue] at h
    cases h
  | ok found =>
    cases found with
    | none =>
      rw [hvalue] at h
      cases h
    | some planned =>
      rw [hvalue] at h
      refine ⟨planned, reported, rfl, ?_⟩
      dsimp only at h ⊢
      rw [run_bind] at h ⊢
      unfold Gives
      cases hinstall : (install o planned).run.run { w with happenings := reported } with
      | mk result w' =>
        rw [hinstall] at h
        cases result with
        | error e => cases h
        | ok _ => rfl

theorem gives_build {planned : Plan} (h : (plan path o).value w = .ok (some planned)) :
    ∃ reported, ∀ w', (install o planned).Gives { w with happenings := reported } () w' →
      (build path o).Gives w true w' := by
  obtain ⟨reported, hplan⟩ := (readsOnly_plan o path).exists_gives h
  refine ⟨reported, fun w' hinstall => gives_bind.mpr ⟨some planned, _, hplan, ?_⟩⟩
  exact gives_bind.mpr ⟨(), w', hinstall, gives_pure.mpr ⟨rfl, rfl⟩⟩

/-- What a build that succeeds has done, if it is no dry run. -/
theorem exists_installed (hdry : o.dryRun = false) (hw : w.disk.Formed)
    (h : ((build path o).run.run w).1 = .ok true) :
    ∃ planned stories scripts html script d₁ d₂,
      Planned path o w planned stories scripts html script ∧ planned.Proper ∧
      Installed planned w.disk d₁ d₂ ((build path o).run.run w).2.disk := by
  obtain ⟨planned, reported, hplan, hinstall⟩ := exists_of_build h
  obtain ⟨stories, scripts, html, script, hplanned⟩ := value_plan_eq_some_iff.mp hplan
  have hp := hplanned.proper hw
  obtain ⟨d₁, d₂, hinstalled⟩ := installed_of_install
    (w := { w with happenings := reported }) hp hdry hw hinstall
  exact ⟨planned, stories, scripts, html, script, d₁, d₂, hplanned, hp, hinstalled⟩

theorem Prepared.get?_append {l rel : Location} {d d' : Disk} (h : Prepared l d d') :
    d'.get? (l ++ rel) = if rel = [] then some .directory else none := by
  rw [h.get?]
  cases rel with
  | nil => simp
  | cons name rel =>
    rw [if_neg, if_pos (List.prefix_append _ _), if_neg (by simp)]
    intro hpre
    have hle := hpre.length_le
    rw [List.length_append, List.length_cons] at hle
    omega

namespace Installed

variable {planned : Plan} {d d₁ d₂ d' : Disk} {rel : List String} {bytes : ByteArray}

theorem keepsAt (h : Installed planned d d₁ d₂ d') {l : Location} (hl : ¬ planned.output <+: l)
    (hcopies : ∀ a ∈ planned.assets, planned.project.copyOf a ≠ l) : d.KeepsAt d' l := by
  refine ((h.prepared.keepsAt l hl).trans (h.copies.keepsAt hcopies)).trans (.inl ?_)
  rw [h.get? l, if_neg]
  rintro rfl
  exact hl (List.prefix_append _ _)

variable (hp : planned.Proper) (hup : ∀ a ∈ planned.assets, ".." ∉ namesIn a)
include hp hup

theorem keepsAt_outside (h : Installed planned d d₁ d₂ d') {l : Location}
    (hl : ¬ planned.output <+: l) : d.KeepsAt d' l := by
  refine h.keepsAt hl fun a ha hcopy => hl ?_
  obtain ⟨bytes, before, after, hcopied⟩ := h.copies.exists_copied ha
  rw [← hcopy, copyOf_eq_append hp.placed hcopied.here (hup a ha), hp.output_eq]
  exact List.prefix_append _ _

/-- The assets lie elsewhere, and were there from the beginning. -/
theorem exists_source (h : Installed planned d d₁ d₂ d') : ∀ a ∈ planned.assets,
      ¬ planned.project.output <+: planned.project.base ++ namesIn a ∧
      d₁.get? (planned.project.base ++ namesIn a) = d.get? (planned.project.base ++ namesIn a) ∧
      ∃ bytes, d.get? (planned.project.base ++ namesIn a) = some (.file bytes) := by
  intro a ha
  have hdir : d₁.get? planned.project.output = some .directory := by
    rw [h.prepared.get?, hp.output_eq, if_pos (List.prefix_refl _)]
  obtain ⟨hnot, bytes, hbytes⟩ :=
    h.copies.exists_source hp.placed hup hp.assets_apart hdir a ha
  have hbefore := (h.prepared.keepsAt _ (hp.output_eq ▸ hnot)).file_iff.mp hbytes
  exact ⟨hnot, hbytes.trans hbefore.symm, bytes, hbefore⟩

theorem file_iff (h : Installed planned d d₁ d₂ d') :
    d'.get? (planned.project.output ++ rel) = some (.file bytes) ↔
      if rel = ["index.html"] then bytes = planned.page.toUTF8
      else (∃ a ∈ planned.assets, namesIn a = rel) ∧
        d.get? (planned.project.base ++ rel) = some (.file bytes) := by
  have hsource := h.exists_source hp hup
  simp only [h.get?, hp.output_eq, List.append_cancel_left_eq]
  split
  · simp [eq_comm]
  -- What is no page was copied, or was there when the output directory had just been made.
  rw [h.copies.file_iff hp.placed hup fun a ha => (hsource a ha).1]
  split
  · rename_i hcopied
    obtain ⟨a, ha, rfl⟩ := hcopied
    rw [(hsource a ha).2.1]
    simp [show ∃ b ∈ planned.assets, namesIn b = namesIn a from ⟨a, ha, rfl⟩]
  · rename_i hcopied
    rw [← hp.output_eq, h.prepared.get?_append]
    simp only [hcopied, false_and, iff_false]
    split <;> simp

theorem directory_iff (h : Installed planned d d₁ d₂ d') :
    d'.get? (planned.project.output ++ rel) = some .directory ↔
      rel = [] ∨ ∃ a ∈ planned.assets, rel ≠ namesIn a ∧ rel <+: namesIn a := by
  have hcopies : d₂.get? (planned.project.output ++ rel) = some .directory ↔
      rel = [] ∨ ∃ a ∈ planned.assets, rel ≠ namesIn a ∧ rel <+: namesIn a := by
    rw [h.copies.directory_iff hp.placed hup, or_comm, ← hp.output_eq, h.prepared.get?_append]
    simp
  have hnew := h.new
  rw [hp.output_eq] at hnew
  rw [← hcopies, h.get?, hp.output_eq]
  split
  · rename_i hindex
    rw [hindex]
    simp [hnew]
  · rfl

end Installed

end Build

open Run Build

/-- A build that succeeds changes no file outside the output directory, but for those that its assets
are copied onto. These lie in the output directory if no asset is above the project. -/
theorem build_keeps_files_outside {path : Path} {o : BuildOptions} {w : Workspace}
    (hw : w.disk.Formed) (h : ((build path o).run.run w).1 = .ok true) :
    let after := ((build path o).run.run w).2.disk
    ∃ p assets, (Project.load path).value w = .ok p ∧
      (p.gather p.settings.assets).value w = .ok assets ∧
      (∀ l, ¬ p.output <+: l → (∀ a ∈ assets, p.copyOf a ≠ l) → w.disk.KeepsAt after l) ∧
      ((∀ a ∈ assets, ".." ∉ Path.namesIn a) → ∀ l, ¬ p.output <+: l → w.disk.KeepsAt after l) ∧
      (o.dryRun = true → after = w.disk) ∧
      (o.dryRun = false → ∀ a ∈ assets, ¬ p.output <+: p.copyOf a →
        ∃ bytes, after.get? (p.copyOf a) = some (.file bytes)) := by
  intro after
  cases hdry : o.dryRun with
  | true =>
    obtain ⟨planned, reported, hplan, hinstall⟩ := exists_of_build h
    obtain ⟨stories, scripts, html, script, hplanned⟩ := value_plan_eq_some_iff.mp hplan
    have hsame : after = w.disk := ((readsOnly_install hdry planned).of_gives hinstall).2.1
    refine ⟨planned.project, planned.assets, hplanned.load, hplanned.assets, ?_, ?_, fun _ => hsame,
      nofun⟩
    · intro l _ _
      rw [hsame]
      exact .inl rfl
    · intro _ l _
      rw [hsame]
      exact .inl rfl
  | false =>
    obtain ⟨planned, stories, scripts, html, script, d₁, d₂, hplanned, hp, hinstalled⟩ :=
      exists_installed hdry hw h
    refine ⟨planned.project, planned.assets, hplanned.load, hplanned.assets, ?_, ?_, nofun, ?_⟩
    · intro l hl hcopies
      exact hinstalled.keepsAt (hp.output_eq ▸ hl) hcopies
    · intro hup l hl
      exact hinstalled.keepsAt_outside hp hup (hp.output_eq ▸ hl)
    · intro _ a ha hout
      obtain ⟨bytes, hbytes⟩ := hinstalled.copies.exists_file ⟨a, ha, rfl⟩
      refine ⟨bytes, ?_⟩
      rw [hinstalled.get?, if_neg, hbytes]
      intro hindex
      rw [hindex, hp.output_eq] at hout
      exact hout (List.prefix_append _ _)

/-- A project with an asset from above, and a file of its own where the copy of that belongs. -/
def sharedAsset : Workspace :=
  { disk := ⟨[(["s"], .directory), (["s", "fractive.yaml"], .file "assets: ../a".toUTF8),
      (["s", "template.html"], .file ⟨#[]⟩), (["s", "a"], .file ⟨#[0x3d]⟩), (["a"], .file ⟨#[0x3c]⟩)]⟩ }

theorem build_keeps_files_outside_sharedAsset :
    let after := ((build (.ofLocation ["s"]) {}).run.run sharedAsset).2.disk
    sharedAsset.disk.Formed ∧ ((build (.ofLocation ["s"]) {}).run.run sharedAsset).1 = .ok true ∧
      ∃ p assets, (Project.load (.ofLocation ["s"])).value sharedAsset = .ok p ∧
        (p.gather p.settings.assets).value sharedAsset = .ok assets ∧
        ∀ l, ¬ p.output <+: l → (∀ a ∈ assets, p.copyOf a ≠ l) →
          sharedAsset.disk.KeepsAt after l := by
  have hformed : sharedAsset.disk.Formed := by decide
  have hbuilt : ((build (.ofLocation ["s"]) {}).run.run sharedAsset).1 = .ok true := by
    decide +kernel
  obtain ⟨p, assets, hload, hassets, hkeeps, -⟩ := build_keeps_files_outside hformed hbuilt
  exact ⟨hformed, hbuilt, p, assets, hload, hassets, hkeeps⟩

/-- The copy replaces a file that is not in the output directory. -/
theorem build_replaces_file_outside :
    let built := (build (.ofLocation ["s"]) {}).run.run sharedAsset
    sharedAsset.disk.Formed ∧ built.1 = .ok true ∧
      ((Project.load (.ofLocation ["s"])).value sharedAsset).map Project.output =
        .ok ["s", "build"] ∧
      sharedAsset.disk.get? ["s", "a"] = some (.file ⟨#[0x3d]⟩) ∧
      built.2.disk.get? ["s", "a"] = some (.file ⟨#[0x3c]⟩) := by
  refine ⟨by decide, ?_⟩
  decide +kernel

/-- After a build the output directory holds the page, the assets as they were before, the
directories that lead to them, and nothing else. -/
theorem build_fills_output {path : Path} {o : BuildOptions} {w : Workspace} {p : Project}
    {assets : List String} (hw : w.disk.Formed) (hdry : o.dryRun = false)
    (h : ((build path o).run.run w).1 = .ok true) (hload : (Project.load path).value w = .ok p)
    (hassets : (p.gather p.settings.assets).value w = .ok assets)
    (hup : ∀ a ∈ assets, ".." ∉ Path.namesIn a) :
    let after := ((build path o).run.run w).2.disk
    ∃ stories scripts html script page,
      (p.gather p.settings.markdown).value w = .ok stories ∧
      (p.gather p.settings.javascript).value w = .ok scripts ∧
      (render p o stories).value w = .ok (html, 0) ∧ (bundle p scripts).value w = .ok script ∧
      (fillTemplate p html script).value w = .ok page ∧
      (∀ a ∈ assets, ∃ bytes, w.disk.get? (p.base ++ Path.namesIn a) = some (.file bytes)) ∧
      (∀ rel bytes, after.get? (p.output ++ rel) = some (.file bytes) ↔
        if rel = ["index.html"] then bytes = page.toUTF8
        else (∃ a ∈ assets, Path.namesIn a = rel) ∧
          w.disk.get? (p.base ++ rel) = some (.file bytes)) ∧
      ∀ rel, after.get? (p.output ++ rel) = some .directory ↔
        rel = [] ∨ ∃ a ∈ assets, rel ≠ Path.namesIn a ∧ rel <+: Path.namesIn a := by
  intro after
  obtain ⟨planned, stories, scripts, html, script, d₁, d₂, hplanned, hp, hinstalled⟩ :=
    exists_installed hdry hw h
  obtain rfl := Except.ok.inj (hload.symm.trans hplanned.load)
  obtain rfl := Except.ok.inj (hassets.symm.trans hplanned.assets)
  obtain ⟨template, htemplate, hpage, -⟩ := hplanned.fill
  refine ⟨stories, scripts, html, script, planned.page, hplanned.markdown, hplanned.javascript,
    hplanned.render, hplanned.bundle, hpage ▸ value_fillTemplate htemplate html script,
    fun a ha => ?_, fun rel bytes => ?_, fun rel => ?_⟩
  · exact (hinstalled.exists_source hp hup a ha).2.2
  · exact hinstalled.file_iff hp hup
  · exact hinstalled.directory_iff hp hup

/-- A project that was built when it had other assets. -/
def staleOutput : Workspace :=
  { disk := ⟨[(["s"], .directory), (["s", "fractive.yaml"], .file "assets: d/*".toUTF8),
      (["s", "template.html"], .file ⟨#[]⟩), (["s", "d"], .directory),
      (["s", "d", "x"], .file ⟨#[0x3c]⟩), (["s", "build"], .directory),
      (["s", "build", "y"], .file ⟨#[0x3d]⟩)]⟩ }

def staleProject : Project := ⟨["s"], { assets := ["d/*"] }⟩

theorem build_fills_output_staleOutput :
    let built := (build (.ofLocation ["s"]) {}).run.run staleOutput
    staleOutput.disk.Formed ∧ built.1 = .ok true ∧
      (Project.load (.ofLocation ["s"])).value staleOutput = .ok staleProject ∧
      (staleProject.gather staleProject.settings.assets).value staleOutput = .ok ["d/x"] ∧
      ∀ rel bytes, built.2.disk.get? (staleProject.output ++ rel) = some (.file bytes) →
        rel = ["index.html"] ∨ rel = ["d", "x"] ∧ bytes = ⟨#[0x3c]⟩ := by
  have hformed : staleOutput.disk.Formed := by decide
  have hbuilt : ((build (.ofLocation ["s"]) {}).run.run staleOutput).1 = .ok true := by
    decide +kernel
  have hload : (Project.load (.ofLocation ["s"])).value staleOutput = .ok staleProject := by
    decide +kernel
  have hassets : (staleProject.gather staleProject.settings.assets).value staleOutput =
      .ok ["d/x"] := by decide +kernel
  have hnames : Path.namesIn "d/x" = ["d", "x"] := by decide +kernel
  obtain ⟨_, _, _, _, _, -, -, -, -, -, -, hfiles, -⟩ :=
    build_fills_output hformed rfl hbuilt hload hassets (by simp [hnames])
  refine ⟨hformed, hbuilt, hload, hassets, fun rel bytes hget => ?_⟩
  have hfile := (hfiles rel bytes).mp hget
  split at hfile
  · rename_i hindex
    exact .inl hindex
  · obtain ⟨⟨a, ha, rfl⟩, hsource⟩ := hfile
    obtain rfl := List.mem_singleton.mp ha
    have hthere : staleOutput.disk.get? (staleProject.base ++ ["d", "x"]) =
        some (.file ⟨#[0x3c]⟩) := rfl
    rw [hnames] at hsource ⊢
    exact .inr ⟨rfl, Item.file.inj (Option.some.inj (hsource.symm.trans hthere))⟩

end Hyperstory
