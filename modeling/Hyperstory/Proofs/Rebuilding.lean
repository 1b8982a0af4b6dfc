import Hyperstory.Proofs.Output
import Hyperstory.Proofs.Replanning

/-!
Building a project again. If the output directory is apart from all that a project is built from, the
second build makes what the first one left.
-/
namespace Hyperstory

open Run Location Hyperstory.Path

/-! ### Making the output directory again -/

/-- One directory is made where the one that it lies in is there. -/
theorem Disk.Formed.ensureDirectories_eq {d : Disk} {cwd l : Location} (hd : d.Formed)
    (hup : ".." ∉ l) (hne : l ≠ []) (hfits : (ofLocation l).Fits)
    (hdir : d.get? l.dropLast = some .directory) (hnone : d.get? l = none) :
    d.ensureDirectories cwd .slash l.reverse = (d.put l .directory, none) := by
  have hmake : d.ensureDirectory cwd (ofLocation l) = .ok (d.put l .directory) := by
    have hlocate : d.locate cwd (ofLocation l) = .ok l :=
      (hd.locate_ofLocation hup).mpr ⟨hfits, hdir, rfl⟩
    simp [Disk.ensureDirectory, Disk.makeDirectory, hlocate, hnone, bind, Except.bind]
  cases hl : l.reverse with
  | nil => exact absurd (List.reverse_eq_nil_iff.mp hl) hne
  | cons name above =>
    have hpath : (⟨.slash, (name :: above).reverse⟩ : Path) = ofLocation l := by
      rw [← hl, List.reverse_reverse]
      rfl
    rw [Disk.ensureDirectories, hpath]
    simp only [hmake]

namespace Build

variable {o : BuildOptions} {w w' : Workspace} {l : Location}

theorem exists_prepare (hdry : o.dryRun = false) (hw : w.disk.Formed) (hne : l ≠ [])
    (hthere : (w.disk.get? l).isSome)
    (hfits : ∀ m, l <+: m → (w.disk.get? m).isSome → (ofLocation m).Fits) :
    ∃ w', (prepare o l).Gives w () w' := by
  have hup := hw.up_notMem hthere
  have hlfits := hfits l (List.prefix_refl l) hthere
  obtain ⟨i, hi⟩ := Option.isSome_iff_exists.mp hthere
  have hhas : w.disk.has w.cwd (ofLocation l) = .ok true :=
    Disk.ask_eq_true_iff.mpr ⟨l, i, (hw.find_ofLocation hup).mpr ⟨hlfits, rfl, hi⟩, rfl⟩
  obtain ⟨v, hclean⟩ := exists_clean hw hne hthere hfits
  obtain ⟨hv, hloses⟩ := clean_loses hdry hne hw hthere hclean
  obtain ⟨d, hmake⟩ : ∃ d, v.disk.ensureDirectories v.cwd .slash l.reverse = (d, none) := by
    have habove : ¬ l <+: l.dropLast := by
      intro hpre
      have hle := hpre.length_le
      have hpos := List.length_pos_iff.mpr hne
      rw [List.length_dropLast] at hle
      omega
    refine ⟨_, hv.ensureDirectories_eq hup hne hlfits ?_ ?_⟩
    · rw [hloses, if_neg habove]
      exact hw.directory_of_dropLast hthere
    · rw [hloses, if_pos (List.prefix_refl l)]
  refine ⟨{ v with disk := d }, ?_⟩
  simp only [prepare, ite_bind, hdry, Bool.not_false, if_true]
  refine gives_bind.mpr ⟨true, w, gives_ofDisk.mpr ⟨hhas, rfl⟩, ?_⟩
  exact gives_bind.mpr ⟨(), v, hclean, gives_makeDirectories.mpr ⟨d, hmake, rfl⟩⟩

/-! ### Where a build works -/

theorem stays_cleanUpTo (n : Nat) (p : Path) : (cleanUpTo o n p).Stays := by
  induction n generalizing p with
  | zero => exact (readsOnly_pure ()).stays
  | succ n ih =>
    simp only [cleanUpTo, ite_bind]
    have hlog : ∀ action : String,
        (if o.verbose = true then logAction action p.text else pure ()).Stays := fun _ =>
      .ite (readsOnly_report _).stays (readsOnly_pure _).stays
    refine (readsOnly_ofDisk _).stays.bind fun _ => .ite ?_ ?_
    · refine (readsOnly_look _).stays.bind fun names => ?_
      refine (stays_forM (fun name => ih _) names).bind fun _ => (hlog _).bind fun _ => ?_
      exact .ite (stays_change _) (readsOnly_pure _).stays
    · exact (hlog _).bind fun _ => .ite (stays_change _) (readsOnly_pure _).stays

theorem stays_prepare : (prepare o l).Stays := by
  simp only [prepare, ite_bind]
  refine (readsOnly_ofDisk _).stays.bind fun _ => ?_
  refine (Stays.ite ?_ (readsOnly_pure _).stays).bind fun _ =>
    .ite (stays_makeDirectories _) (readsOnly_pure _).stays
  exact (readsOnly_look _).stays.bind fun _ => stays_cleanUpTo _ _

theorem stays_copy (p : Project) (target : Path) (files : List String) :
    (copy p o target files).Stays := by
  induction files with
  | nil => exact (readsOnly_pure ()).stays
  | cons file rest ih =>
    rw [copy]
    refine (readsOnly_report _).stays.bind fun _ => .ite ?_ ih
    exact (stays_makeDirectories _).bind fun _ => (stays_change _).bind fun _ => ih

theorem stays_deliver (planned : Plan) : (deliver o planned).Stays := by
  refine (stays_copy _ _ _).bind fun _ => (readsOnly_report _).stays.bind fun _ => ?_
  refine .ite (.ite ?_ (stays_change _)) (readsOnly_pure _).stays
  exact (stays_change _).bind fun _ => (readsOnly_throw _).stays

/-- A build leaves the working directory where it is. -/
theorem stays_build (path : Path) : (build path o).Stays := by
  refine (readsOnly_plan o path).stays.bind fun found => ?_
  cases found with
  | none => exact (readsOnly_pure _).stays
  | some planned =>
    dsimp only
    rw [install_eq]
    refine (stays_prepare.bind fun _ => stays_deliver planned).bind fun _ => ?_
    exact (readsOnly_pure _).stays

/-! ### Filling the output directory again -/

theorem respects_copy (p : Project) (target : Path) (files : List String) :
    (copy p o target files).Respects := by
  induction files with
  | nil => exact respects_pure ()
  | cons file rest ih =>
    rw [copy]
    refine (respects_report _).bind fun _ => .ite ?_ ih
    refine (respects_makeDirectories _).bind fun _ => ?_
    exact (Run.respects_copy _ _).bind fun _ => ih

theorem respects_deliver (planned : Plan) : (deliver o planned).Respects := by
  refine (respects_copy _ _ _).bind fun _ => (respects_report _).bind fun _ => ?_
  refine .ite (.ite ?_ (respects_write _ _)) (respects_pure _)
  exact (respects_write _ _).bind fun _ => respects_throw _

namespace Copies

variable {p : Project} {files : List String} {d d' : Disk}

/-- Copies without steps up leave all as it is that is neither in the output directory nor leads to
it. -/
theorem get?_elsewhere (hp : p.Placed) (hup : ∀ a ∈ files, ".." ∉ namesIn a)
    (h : Copies p files d d') {m : Location} (hout : ¬ p.output <+: m) (hway : ¬ m <+: p.output) :
    d'.get? m = d.get? m := by
  induction h with
  | nil hd => rfl
  | @cons first files bytes d d₁ d' hfirst hrest ih =>
    rw [List.forall_mem_cons] at hup
    rw [ih hup.2]
    have hne : m ≠ p.copyOf first := by
      rw [copyOf_eq_append hp hfirst.here hup.1]
      rintro rfl
      exact hout (List.prefix_append _ _)
    rcases hfirst.keepsAt hne with hsame | ⟨hnone, hmade⟩
    · exact hsame
    · rcases (hfirst.directory_iff hp hup.1).mp hmade with ⟨-, hpre⟩ | hdir
      · rcases List.prefix_or_prefix_of_prefix hpre (List.prefix_append _ _) with hpre' | hpre'
        · exact absurd hpre' hway
        · exact absurd hpre' hout
      · rw [hnone] at hdir
        cases hdir

end Copies

namespace Installed

variable {planned : Plan} {d d₁ d₂ d' : Disk} (hp : planned.Proper)
  (hup : ∀ a ∈ planned.assets, ".." ∉ namesIn a) (h : Installed planned d d₁ d₂ d')
include hp hup h

theorem get?_elsewhere {m : Location} (hout : ¬ planned.output <+: m)
    (hway : ¬ m <+: planned.output) : d'.get? m = d.get? m := by
  have hindex : m ≠ planned.output ++ ["index.html"] := by
    rintro rfl
    exact hout (List.prefix_append _ _)
  rw [h.get?, if_neg hindex,
    h.copies.get?_elsewhere hp.placed hup (hp.output_eq ▸ hout) (hp.output_eq ▸ hway),
    h.prepared.get?, if_neg hway, if_neg hout]

/-- Paths that can be followed lead to all that the output directory holds. -/
theorem fits_below {m : Location} (hm : planned.output <+: m) (hthere : (d'.get? m).isSome) :
    (ofLocation m).Fits := by
  obtain ⟨rel, rfl⟩ := hm
  have hcopy : ∀ a ∈ planned.assets, (ofLocation (planned.output ++ namesIn a)).Fits := by
    intro a ha
    obtain ⟨bytes, before, after, hcopied⟩ := h.copies.exists_copied ha
    exact hp.output_eq ▸ hcopied.fits
  obtain ⟨i, hi⟩ := Option.isSome_iff_exists.mp hthere
  cases i with
  | file bytes =>
    rw [hp.output_eq, h.file_iff hp hup] at hi
    split at hi
    · rename_i hindex
      exact hindex ▸ h.fits
    · obtain ⟨⟨a, ha, rfl⟩, -⟩ := hi
      exact hcopy a ha
  | directory =>
    rw [hp.output_eq, h.directory_iff hp hup] at hi
    rcases hi with rfl | ⟨a, ha, -, hpre⟩
    · rw [List.append_nil]
      exact h.prepared.fits
    · exact (hcopy a ha).shorten ((List.prefix_append_right_inj _).mpr hpre)

theorem undisturbed (hd : d.Formed) (hbase : (d.get? planned.project.base).isSome)
    (hapart : ¬ planned.output <+: planned.project.base) :
    planned.project.Undisturbed d d' := by
  refine ⟨hd, h.formed, hbase, hp.output_eq ▸ hapart, ?_, fun m hm => ?_⟩
  · have hdir : d'.get? (planned.project.output ++ []) = some .directory :=
      (h.directory_iff hp hup).mpr (.inl rfl)
    rwa [List.append_nil] at hdir
  · exact h.keepsAt_outside hp hup (hp.output_eq ▸ hm)

theorem place_ne : ∀ a ∈ planned.assets, planned.project.place a ≠ planned.project.output := by
  intro a ha hplace
  obtain ⟨bytes, before, after, hcopied⟩ := h.copies.exists_copied ha
  have hsource := (h.exists_source hp hup a ha).1
  rw [Project.place, path_resolve_eq_append hp.placed hcopied.here (hup a ha)] at hplace
  exact hsource (hplace ▸ List.prefix_refl _)

end Installed

/-- What is installed a second time is what was installed before. -/
theorem Installed.again {planned : Plan} {w w₁ : Workspace} {d₁ d₂ : Disk}
    (hp : planned.Proper) (hup : ∀ a ∈ planned.assets, ".." ∉ namesIn a)
    (hdry : o.dryRun = false) (hw : w.disk.Formed)
    (hinstall : (install o planned).Gives w () w₁)
    (hinstalled : Installed planned w.disk d₁ d₂ w₁.disk) (reported : List Happening) :
    ∃ w₂, (install o planned).Gives { w₁ with happenings := reported } () w₂ ∧
      w₁.disk.Agree w₂.disk := by
  rw [install_eq] at hinstall ⊢
  obtain ⟨_, v₁, hprepare₁, hdeliver₁⟩ := gives_bind.mp hinstall
  have hthere : (w₁.disk.get? planned.output).isSome := by
    have hdir : w₁.disk.get? (planned.project.output ++ []) = some .directory :=
      (hinstalled.directory_iff hp hup).mpr (.inl rfl)
    rw [hp.output_eq, ← List.append_nil planned.project.output, hdir]
    rfl
  obtain ⟨v₂, hprepare₂⟩ := exists_prepare (w := { w₁ with happenings := reported }) hdry
    hinstalled.formed hp.output_ne hthere fun m hm hsome => hinstalled.fits_below hp hup hm hsome
  have hprepared₁ := prepared_of_prepare hdry hp.isName_output hp.output_ne hw hprepare₁
  have hprepared₂ : Prepared planned.output w₁.disk v₂.disk := prepared_of_prepare
    (w := { w₁ with happenings := reported }) hdry hp.isName_output hp.output_ne hinstalled.formed
    hprepare₂
  -- Both times the output directory is empty when the copying begins, and nothing else has changed.
  have hsame : SameTree v₁ v₂ := by
    constructor
    · have hcwd : w₁.cwd = v₁.cwd := by
        have hstays := stays_deliver (o := o) planned v₁
        rwa [hdeliver₁] at hstays
      have hstays := stays_prepare (o := o) (l := planned.output) { w₁ with happenings := reported }
      rw [hprepare₂] at hstays
      exact hstays.trans hcwd
    · intro m
      rw [hprepared₁.get?, hprepared₂.get?]
      split
      · rfl
      split
      · rfl
      · rename_i hway hout
        exact hinstalled.get?_elsewhere hp hup hout hway
  obtain ⟨w₂, hdeliver₂, hafter⟩ := (respects_deliver planned).exists_gives hdeliver₁ hsame
  exact ⟨w₂, gives_bind.mpr ⟨(), v₂, hprepare₂, hdeliver₂⟩, hafter.disk⟩

end Build

open Build

/-- If the output directory of a project is apart from what the project is built from, a second build
leaves the directory tree as the first one left it. It succeeds, unless a pattern leads to a path that
has become too long. -/
theorem build_twice {path : Path} {o : BuildOptions} {w : Workspace} {p : Project}
    (hw : w.disk.Formed) (hdry : o.dryRun = false)
    (h : ((build path o).run.run w).1 = .ok true) (hload : (Project.load path).value w = .ok p)
    (hseparate : p.Separate path w) :
    let first := (build path o).run.run w
    let second := (build path o).run.run first.2
    (∀ l, second.2.disk.get? l = first.2.disk.get? l) ∧
      (second.1 = .ok true ∨
        second.1 = .error (.disk .tooLong) ∧
          ∃ patterns ∈ [p.settings.markdown, p.settings.javascript, p.settings.assets],
            p.gatherFrom first.2.disk patterns = .error (.disk .tooLong)) := by
  intro first second
  obtain ⟨planned, reported, hplan, hinstall⟩ := exists_of_build h
  obtain ⟨stories, scripts, html, script, hplanned⟩ := value_plan_eq_some_iff.mp hplan
  obtain rfl := Except.ok.inj (hload.symm.trans hplanned.load)
  have hp := hplanned.proper hw
  have hup := hseparate.assets _ hplanned.assets
  obtain ⟨d₁, d₂, hinstalled⟩ := installed_of_install
    (w := { w with happenings := reported }) hp hdry hw hinstall
  have hundisturbed := hinstalled.undisturbed hp hup hw (Project.isSome_base hload) hplanned.apart
  have hcwd : first.2.cwd = w.cwd := stays_build path w
  rcases hplanned.again hundisturbed hcwd hseparate (hinstalled.place_ne hp hup) with
    hagain | ⟨hlong, hpatterns⟩
  · obtain ⟨reported', hbuild⟩ := gives_build
      (value_plan_eq_some_iff.mpr ⟨stories, scripts, html, script, hagain⟩)
    obtain ⟨w₂, hinstall₂, hagree⟩ := Installed.again (w := { w with happenings := reported })
      hp hup hdry hw hinstall hinstalled reported'
    have hsecond : second = (.ok true, w₂) := hbuild w₂ hinstall₂
    rw [hsecond]
    exact ⟨hagree, .inl rfl⟩
  · have hno : ∀ planned, (plan path o).value first.2 ≠ .ok (some planned) := by
      intro planned
      rw [hlong]
      nofun
    refine ⟨fun l => by rw [(build_of_no_plan hno).2], .inr ⟨?_, hpatterns⟩⟩
    exact (readsOnly_plan o path).run_bind_of_error hlong

theorem separate_staleOutput : staleProject.Separate (.ofLocation ["s"]) staleOutput := by
  have hfind : (Project.find (.ofLocation ["s"])).value staleOutput =
      .ok (.ofLocation ["s", "fractive.yaml"]) := by decide +kernel
  have hgather : ∀ patterns ∈ [staleProject.settings.markdown, staleProject.settings.javascript],
      (staleProject.gather patterns).value staleOutput = .ok [] := by decide +kernel
  have hassets : (staleProject.gather staleProject.settings.assets).value staleOutput =
      .ok ["d/x"] := by decide +kernel
  have houtput : staleProject.output = ["s", "build"] := by decide +kernel
  constructor
  · intro file hfile pre hpre
    obtain rfl := Except.ok.inj (hfind.symm.trans hfile)
    have hplaces : ∀ pre ∈ ["s", "fractive.yaml"].inits,
        ¬ ["s", "build"] <+: pre.foldl Location.step [] := by decide
    rw [houtput]
    exact hplaces pre ((List.mem_inits _ _).mpr hpre)
  · decide +kernel
  · intro patterns hpatterns files hfiles f hf
    obtain rfl := Except.ok.inj ((hgather patterns hpatterns).symm.trans hfiles)
    cases hf
  · intro files hfiles
    obtain rfl := Except.ok.inj (hassets.symm.trans hfiles)
    decide +kernel
  · have hup : ∀ patterns ∈ [staleProject.settings.markdown, staleProject.settings.javascript,
        staleProject.settings.assets, staleProject.settings.ignore],
        ∀ s ∈ patterns, ".." ∉ Path.namesIn s := by decide +kernel
    intro patterns hpatterns s hs
    exact ⟨[], Path.namesIn s, rfl, by simp, hup patterns hpatterns s hs⟩

theorem build_twice_staleOutput :
    let first := (build (.ofLocation ["s"]) {}).run.run staleOutput
    let second := (build (.ofLocation ["s"]) {}).run.run first.2
    staleOutput.disk.Formed ∧ first.1 = .ok true ∧
      (Project.load (.ofLocation ["s"])).value staleOutput = .ok staleProject ∧
      staleProject.Separate (.ofLocation ["s"]) staleOutput ∧
      ∀ l, second.2.disk.get? l = first.2.disk.get? l := by
  have hformed : staleOutput.disk.Formed := by decide
  have hbuilt : ((build (.ofLocation ["s"]) {}).run.run staleOutput).1 = .ok true := by
    decide +kernel
  have hload : (Project.load (.ofLocation ["s"])).value staleOutput = .ok staleProject := by
    decide +kernel
  exact ⟨hformed, hbuilt, hload, separate_staleOutput,
    (build_twice hformed rfl hbuilt hload separate_staleOutput).1⟩

/-- A project whose template lies in its output directory. -/
def templateInOutput : Workspace :=
  { disk := ⟨[(["s"], .directory), (["s", "fractive.yaml"], .file "template: build/t".toUTF8),
      (["s", "build"], .directory), (["s", "build", "t"], .file ⟨#[]⟩)]⟩ }

/-- The first build removes the template that the second one needs. -/
theorem build_removes_template :
    let first := (build (.ofLocation ["s"]) {}).run.run templateInOutput
    let second := (build (.ofLocation ["s"]) {}).run.run first.2
    templateInOutput.disk.Formed ∧ first.1 = .ok true ∧
      second.1 = .error (.project (.templateNotFound ["s", "build", "t"])) := by
  refine ⟨by decide, ?_⟩
  decide +kernel

end Hyperstory
