import Hyperstory.Proofs.Cleaning
import Hyperstory.Proofs.FailedBuilds
import Hyperstory.Proofs.Loading

/-!
Installing what a plan says. The output directory is removed and made anew, files are copied into it
one after the other, and the page is written last.
-/
namespace Hyperstory

def Project.copyOf (p : Project) (file : String) : Location :=
  ((Path.ofLocation p.output).join (.ofString file)).resolve []

namespace Build

open Run Location Hyperstory.Path

variable {p : Project} {o : BuildOptions} {file : String} {files : List String} {bytes : ByteArray}
  {w w' : Workspace} {d d₁ d' : Disk} {cwd : Location}

/-! ### One file -/

/-- A file of a project was copied to where it belongs; directories were made on the way. -/
structure Copied (p : Project) (file : String) (bytes : ByteArray) (d d' : Disk) : Prop where
  here : (Path.ofString file).root = .here
  source : d.get? ((p.path file).resolve []) = some (.file bytes)
  fits : (Path.ofLocation (p.output ++ namesIn file)).Fits
  formed : d'.Formed
  new : d.get? (p.copyOf file) ≠ some .directory
  copied : d'.get? (p.copyOf file) = some (.file bytes)
  changed : ∀ m, m ≠ p.copyOf file → d'.get? m = d.get? m ∨
    d.get? m = none ∧ d'.get? m = some .directory ∧
      ∃ pre, pre <+: (p.output ++ namesIn file).dropLast ∧ m = pre.foldl step []

theorem copyOf_eq (h : (Path.ofString file).root = .here) :
    p.copyOf file = (p.output ++ namesIn file).foldl step [] := by
  have hjoin : (ofLocation p.output).join (.ofString file) = ⟨.slash, p.output ++ namesIn file⟩ :=
    join_of_here h
  rw [Project.copyOf, hjoin, resolve_of_rooted (by simp)]

theorem copied_of_copy (hp : p.Placed) (hd : d.Formed)
    (hmake : d.ensureDirectories cwd ((ofLocation p.output).join (.ofString file)).root
      ((ofLocation p.output).join (.ofString file)).parent.names.reverse = (d₁, none))
    (hcopy : d₁.copy cwd (p.path file) ((ofLocation p.output).join (.ofString file)) = .ok d') :
    ∃ bytes, Copied p file bytes d d' := by
  obtain ⟨bytes, hne, hread, hwrite⟩ := Disk.exists_of_copy hcopy
  -- From the root a file would be copied onto itself.
  have hhere : (Path.ofString file).root = .here := by
    by_contra hroot
    exact hne ((join_of_rooted hroot).trans (join_of_rooted hroot).symm)
  have hjoin : (ofLocation p.output).join (.ofString file) = ⟨.slash, p.output ++ namesIn file⟩ :=
    join_of_here hhere
  rw [hjoin] at hmake hwrite
  have hmake' : d.ensureDirectories cwd .slash (p.output ++ namesIn file).dropLast.reverse =
      (d₁, none) := hmake
  have hparts : ∀ n ∈ p.output ++ namesIn file, IsPart n := by
    intro n hn
    rcases List.mem_append.mp hn with hn | hn
    · exact (hp.isName_output n hn).toIsPart
    · exact isPart_of_mem_namesIn hn
  have hmade := hd.ensureDirectories (by simp) (fun n hn => hparts n (List.mem_of_mem_dropLast hn))
    hmake'
  obtain ⟨hformed, hcopied, hframe⟩ := hmade.formed.write (by simp) hparts hwrite
  obtain ⟨l, hlocate, hnew, -⟩ := Disk.exists_of_write hwrite
  obtain rfl := Disk.eq_resolve_of_locate (by simp) hlocate
  obtain ⟨source, hfind⟩ := Disk.read_eq_ok_iff.mp hread
  obtain ⟨hsource, hget⟩ := Disk.find_eq_ok_iff.mp hfind
  rw [Disk.eq_resolve_of_locate Project.path_rooted hsource] at hget
  refine ⟨bytes, hhere, ?_, Disk.fits_of_locate hlocate, hformed, ?_, ?_, fun m hm => ?_⟩
  · rw [resolve_of_rooted Project.path_rooted]
    exact (hmade.keepsAt _).file_iff.mp hget
  · rw [copyOf_eq hhere]
    intro hdir
    have hkept := (hmade.keepsAt ((p.output ++ namesIn file).foldl step [])).get?_eq (by rw [hdir]; rfl)
    exact hnew (hkept.trans hdir)
  · rw [copyOf_eq hhere, hcopied]
  · rw [copyOf_eq hhere] at hm
    rw [hframe m hm]
    rcases hmade.changed m with heq | ⟨hnone, hdir, pre, hpre, heq, -⟩
    · exact .inl heq
    · exact .inr ⟨hnone, hdir, pre, hpre, heq⟩

theorem Copied.keepsAt (h : Copied p file bytes d d') {m : Location} (hm : m ≠ p.copyOf file) :
    d.KeepsAt d' m := by
  rcases h.changed m hm with heq | ⟨hnone, hdir, -⟩
  · exact .inl heq
  · exact .inr ⟨hnone, hdir⟩

/-! ### One file after the other -/

/-- Files of a project were copied. -/
inductive Copies (p : Project) : List String → Disk → Disk → Prop
  | nil {d : Disk} (hd : d.Formed) : Copies p [] d d
  | cons {file : String} {files : List String} {bytes : ByteArray} {d d₁ d' : Disk}
      (hfirst : Copied p file bytes d d₁) (hrest : Copies p files d₁ d') : Copies p (file :: files) d d'

theorem copies_of_copy (hp : p.Placed) (hdry : o.dryRun = false) (hw : w.disk.Formed)
    (h : (copy p o (ofLocation p.output) files).Gives w () w') :
    Copies p files w.disk w'.disk := by
  induction files generalizing w with
  | nil =>
    obtain ⟨-, rfl⟩ := gives_pure.mp h
    exact .nil hw
  | cons file files ih =>
    simp only [copy, hdry, Bool.not_false, if_true] at h
    obtain ⟨_, w₁, hlog, h⟩ := gives_bind.mp h
    obtain rfl := gives_report.mp hlog
    obtain ⟨_, w₂, hmake, h⟩ := gives_bind.mp h
    obtain ⟨d₁, hmade, rfl⟩ := gives_makeDirectories.mp hmake
    obtain ⟨_, w₃, hcopy, h⟩ := gives_bind.mp h
    obtain ⟨d₂, hcopied, rfl⟩ := gives_change.mp hcopy
    obtain ⟨bytes, hfirst⟩ := copied_of_copy hp hw hmade hcopied
    exact .cons hfirst (ih hfirst.formed h)

namespace Copies

theorem formed (h : Copies p files d d') : d'.Formed := by
  induction h with
  | nil hd => exact hd
  | cons hfirst hrest ih => exact ih

theorem exists_copied (h : Copies p files d d') (hfile : file ∈ files) :
    ∃ bytes before after, Copied p file bytes before after := by
  induction h with
  | nil hd => cases hfile
  | cons hfirst hrest ih =>
    rcases List.mem_cons.mp hfile with rfl | hfile
    · exact ⟨_, _, _, hfirst⟩
    · exact ih hfile

theorem keepsAt (h : Copies p files d d') {m : Location} (hm : ∀ a ∈ files, p.copyOf a ≠ m) :
    d.KeepsAt d' m := by
  induction h with
  | nil hd => exact .inl rfl
  | cons hfirst hrest ih =>
    have hkeep := hfirst.keepsAt (Ne.symm (hm _ List.mem_cons_self))
    exact hkeep.trans (ih fun a ha => hm a (List.mem_cons_of_mem _ ha))

/-- A copy may be replaced by another, and stays a file. -/
theorem exists_file (h : Copies p files d d') {m : Location} (hm : ∃ a ∈ files, p.copyOf a = m) :
    ∃ bytes, d'.get? m = some (.file bytes) := by
  induction h with
  | nil hd =>
    obtain ⟨a, ha, -⟩ := hm
    cases ha
  | @cons first files bytes d d₁ d' hfirst hrest ih =>
    by_cases hlater : ∃ a ∈ files, p.copyOf a = m
    · exact ih hlater
    · obtain ⟨a, ha, rfl⟩ := hm
      push Not at hlater
      obtain rfl : a = first := by
        rcases List.mem_cons.mp ha with heq | ha
        · exact heq
        · exact absurd rfl (hlater a ha)
      exact ⟨bytes, (hrest.keepsAt hlater).file_iff.mpr hfirst.copied⟩

end Copies

/-! ### The output directory -/

/-- Makes an empty directory, whatever was there. -/
def prepare (o : BuildOptions) (l : Location) : Run Unit := do
  if ← Run.ofDisk fun d cwd => d.has cwd (.ofLocation l) then clean o (.ofLocation l)
  if !o.dryRun then Run.makeDirectories (.ofLocation l)

/-- Fills the output directory. -/
def deliver (o : BuildOptions) (planned : Plan) : Run Unit := do
  let index := planned.output ++ ["index.html"]
  copy planned.project o (.ofLocation planned.output) planned.assets
  Run.logAction "output" ("/".intercalate (index.relativeTo planned.project.base))
  if !o.dryRun then
    if planned.names.any Page.hasHalf then
      Run.change fun d cwd => d.write cwd (.ofLocation index) .empty
      throw (.disk .unencodable)
    else Run.change fun d cwd => d.write cwd (.ofLocation index) planned.page.toUTF8

theorem install_eq (planned : Plan) :
    install o planned = prepare o planned.output >>= fun _ => deliver o planned := by
  simp only [install, prepare, deliver, ite_bind, bind_assoc]

/-- An empty directory was made where something else may have been. -/
structure Prepared (l : Location) (d d' : Disk) : Prop where
  formed : d'.Formed
  fits : (Path.ofLocation l).Fits
  get? : ∀ m, d'.get? m =
    if m <+: l then some .directory else if l <+: m then none else d.get? m
  keepsAt : ∀ m, ¬ l <+: m → d.KeepsAt d' m

theorem prepared_of_prepare {l : Location} (hdry : o.dryRun = false) (hl : ∀ n ∈ l, IsName n)
    (hne : l ≠ []) (hw : w.disk.Formed) (h : (prepare o l).Gives w () w') :
    Prepared l w.disk w'.disk := by
  simp only [prepare, ite_bind, hdry, Bool.not_false, if_true] at h
  obtain ⟨there, w₁, hhas, hrun⟩ := gives_bind.mp h
  obtain ⟨hthere, rfl⟩ := gives_ofDisk.mp hhas
  obtain ⟨_, v, hclean, hmake⟩ := gives_bind.mp hrun
  obtain ⟨d, hensure, rfl⟩ := gives_makeDirectories.mp hmake
  have hup : ".." ∉ l := fun hmem => (hl ".." hmem).ne_up rfl
  have hmakes : v.disk.Formed → Disk.Makes .slash l v.disk d := fun hv =>
    hv.ensureDirectories (by simp) (fun n hn => (hl n hn).toIsPart) hensure
  have hlost : v.disk.Formed ∧ w₁.disk.Loses l v.disk := by
    cases there with
    | true =>
      obtain ⟨m, i, hfind, -⟩ := Disk.ask_eq_true_iff.mp hthere
      have hget := ((hw.find_ofLocation hup).mp hfind).2.2
      exact clean_loses hdry hne hw (by rw [hget]; rfl) hclean
    | false =>
      obtain ⟨-, rfl⟩ := gives_pure.mp hclean
      refine ⟨hw, fun m => ?_⟩
      split
      · rename_i hm
        by_contra hsome
        obtain ⟨i, hi⟩ := Option.isSome_iff_exists.mp
          (hw.isSome_above (Option.isSome_iff_ne_none.mpr hsome) hm)
        have hfind : v.disk.find v.cwd (ofLocation l) = .ok (l, i) :=
          (hw.find_ofLocation hup).mpr ⟨(hmakes hw).fits, rfl, hi⟩
        simp [Disk.has, Disk.ask, hfind] at hthere
      · rfl
  have hmade := hmakes hlost.1
  refine ⟨hmade.formed, hmade.fits, fun m => ?_, fun m hm => ?_⟩
  · rw [hmade.get? hup, hlost.2 m]
  · have hkept := hmade.keepsAt m
    rwa [Disk.KeepsAt, hlost.2 m, if_neg hm] at hkept

/-- What an installation does: an empty output directory, then the copies, then the page. -/
structure Installed (planned : Plan) (d d₁ d₂ d' : Disk) : Prop where
  prepared : Prepared planned.output d d₁
  copies : Copies planned.project planned.assets d₁ d₂
  formed : d'.Formed
  fits : (Path.ofLocation (planned.output ++ ["index.html"])).Fits
  new : d₂.get? (planned.output ++ ["index.html"]) ≠ some .directory
  get? : ∀ m, d'.get? m =
    if m = planned.output ++ ["index.html"] then some (.file planned.page.toUTF8) else d₂.get? m

theorem Plan.Proper.isName_output {planned : Plan} (hp : planned.Proper) :
    ∀ n ∈ planned.output, IsName n := hp.output_eq ▸ hp.placed.isName_output

theorem installed_of_install {planned : Plan} (hp : planned.Proper) (hdry : o.dryRun = false)
    (hw : w.disk.Formed) (h : (install o planned).Gives w () w') :
    ∃ d₁ d₂, Installed planned w.disk d₁ d₂ w'.disk := by
  rw [install_eq] at h
  obtain ⟨_, v, hprepare, hdeliver⟩ := gives_bind.mp h
  have hprepared := prepared_of_prepare hdry hp.isName_output hp.output_ne hw hprepare
  simp only [deliver, hdry, Bool.not_false, if_true] at hdeliver
  obtain ⟨_, v₁, hcopy, hrun⟩ := gives_bind.mp hdeliver
  obtain ⟨_, v₂, hlog, hwrite⟩ := gives_bind.mp hrun
  obtain rfl := gives_report.mp hlog
  have hcopies : Copies planned.project planned.assets v.disk v₁.disk := by
    rw [hp.output_eq] at hcopy
    exact copies_of_copy hp.placed hdry hprepared.formed hcopy
  split at hwrite
  · obtain ⟨_, _, -, hthrow⟩ := gives_bind.mp hwrite
    exact absurd hthrow not_gives_throw
  obtain ⟨d, hd, rfl⟩ := gives_change.mp hwrite
  have hindex : ∀ n ∈ planned.output ++ ["index.html"], IsName n := by
    intro n hn
    rcases List.mem_append.mp hn with hn | hn
    · exact hp.isName_output n hn
    · rw [List.mem_singleton.mp hn]
      exact ⟨⟨by decide, by decide, by decide⟩, by decide⟩
  have hup : ".." ∉ planned.output ++ ["index.html"] := fun hmem => (hindex ".." hmem).ne_up rfl
  obtain ⟨hformed, hpage, hframe⟩ :=
    hcopies.formed.write (by simp [ofLocation]) (fun n hn => (hindex n hn).toIsPart) hd
  obtain ⟨l, hlocate, hnew, -⟩ := Disk.exists_of_write hd
  rw [Disk.eq_resolve_of_locate (by simp [ofLocation]) hlocate] at hnew
  have hplace : (ofLocation (planned.output ++ ["index.html"])).names.foldl step [] =
      planned.output ++ ["index.html"] := foldl_step hup
  rw [hplace] at hpage hframe hnew
  refine ⟨v.disk, v₁.disk, hprepared, hcopies, hformed, Disk.fits_of_locate hlocate, hnew,
    fun m => ?_⟩
  split
  · rename_i hm
    rw [hm, hpage]
  · rename_i hm
    exact hframe m hm

/-! ### What the output directory holds -/

theorem copyOf_eq_append (hp : p.Placed) (hhere : (Path.ofString file).root = .here)
    (hup : ".." ∉ namesIn file) : p.copyOf file = p.output ++ namesIn file := by
  rw [copyOf_eq hhere, foldl_step (by simp [hp.up_notMem_output, hup]), List.nil_append]

theorem path_resolve_eq_append (hp : p.Placed) (hhere : (Path.ofString file).root = .here)
    (hup : ".." ∉ namesIn file) : (p.path file).resolve [] = p.base ++ namesIn file := by
  have hjoin : p.path file = ofLocation (p.base ++ namesIn file) := join_of_here hhere
  have hnames : ".." ∉ p.base ++ namesIn file := by
    simp [hp.up_notMem_base, hup]
  rw [hjoin, resolve_of_rooted (by simp [ofLocation])]
  exact foldl_step hnames

/-- Without steps up, a copy needs the directories that lead to it, and no others. -/
theorem Copied.directory_iff (hp : p.Placed) (hup : ".." ∉ namesIn file)
    (h : Copied p file bytes d d') {m : Location} :
    d'.get? m = some .directory ↔
      (m ≠ p.output ++ namesIn file ∧ m <+: p.output ++ namesIn file) ∨
        d.get? m = some .directory := by
  have hplace := copyOf_eq_append hp h.here hup
  have hnew := h.new
  have hcopied := h.copied
  rw [hplace] at hnew hcopied
  by_cases hm : m = p.output ++ namesIn file
  · rw [hm, hcopied]
    simp [hnew]
  constructor
  · intro hdir
    rcases h.changed m (hplace ▸ hm) with heq | ⟨-, -, pre, hpre, rfl⟩
    · exact .inr (heq ▸ hdir)
    · left
      have hpre' : pre <+: p.output ++ namesIn file := hpre.trans <| List.dropLast_prefix _
      have hnames : ".." ∉ p.output ++ namesIn file := by
        simp [hp.up_notMem_output, hup]
      rw [foldl_step fun hmem => hnames (hpre'.subset hmem)] at hm ⊢
      exact ⟨hm, hpre'⟩
  · rintro (⟨-, hpre⟩ | hdir)
    · exact h.formed.directory_above (by rw [hcopied]; rfl) hpre hm
    · rw [(h.keepsAt (hplace ▸ hm)).get?_eq (by simp [hdir]), hdir]

namespace Copies

variable {rel : List String}

/-- The files that were copied lie elsewhere, and were there from the beginning. -/
theorem exists_source (hp : p.Placed) (hup : ∀ a ∈ files, ".." ∉ namesIn a)
    (hapart : ∀ a ∈ files, p.isOutput a = false) (hdir : d.get? p.output = some .directory)
    (h : Copies p files d d') :
    ∀ a ∈ files, ¬ p.output <+: p.base ++ namesIn a ∧
      ∃ bytes, d.get? (p.base ++ namesIn a) = some (.file bytes) := by
  induction h with
  | nil hd => simp
  | @cons first files bytes d d₁ d' hfirst hrest ih =>
    rw [List.forall_mem_cons] at hup hapart
    intro a ha
    rcases List.mem_cons.mp ha with rfl | ha
    · have hsource := hfirst.source
      have hnot := hapart.1
      rw [Project.isOutput] at hnot
      rw [path_resolve_eq_append hp hfirst.here hup.1] at hsource hnot
      refine ⟨fun hpre => ?_, bytes, hsource⟩
      have hne : p.base ++ namesIn a ≠ p.output := by
        intro heq
        rw [heq, hdir] at hsource
        cases hsource
      rw [isBelow_iff.mpr ⟨hpre, hne⟩] at hnot
      cases hnot
    · have hdir₁ := (hfirst.directory_iff hp hup.1).mpr (.inr hdir)
      obtain ⟨hnot, bytes', hsource⟩ := ih hup.2 hapart.2 hdir₁ a ha
      refine ⟨hnot, bytes', (hfirst.keepsAt ?_).file_iff.mp hsource⟩
      rw [copyOf_eq_append hp hfirst.here hup.1]
      intro heq
      exact hnot (heq ▸ List.prefix_append _ _)

theorem directory_iff (hp : p.Placed) (hup : ∀ a ∈ files, ".." ∉ namesIn a)
    (h : Copies p files d d') :
    d'.get? (p.output ++ rel) = some .directory ↔
      (∃ a ∈ files, rel ≠ namesIn a ∧ rel <+: namesIn a) ∨
        d.get? (p.output ++ rel) = some .directory := by
  induction h with
  | nil hd => simp
  | cons hfirst hrest ih =>
    rw [List.forall_mem_cons] at hup
    rw [ih hup.2, hfirst.directory_iff hp hup.1]
    simp [List.prefix_append_right_inj, or_assoc, or_left_comm]

/-- Each file that was copied is there as it was in the beginning; all others are as they were. -/
theorem file_iff (hp : p.Placed) (hup : ∀ a ∈ files, ".." ∉ namesIn a)
    (hsource : ∀ a ∈ files, ¬ p.output <+: p.base ++ namesIn a) (h : Copies p files d d') :
    d'.get? (p.output ++ rel) = some (.file bytes) ↔
      if ∃ a ∈ files, namesIn a = rel then d.get? (p.base ++ rel) = some (.file bytes)
      else d.get? (p.output ++ rel) = some (.file bytes) := by
  induction h with
  | nil hd => simp
  | @cons first files bytes' d d₁ d' hfirst hrest ih =>
    rw [List.forall_mem_cons] at hup hsource
    have hplace := copyOf_eq_append hp hfirst.here hup.1
    rw [ih hup.2 hsource.2]
    by_cases hlater : ∃ a ∈ files, namesIn a = rel
    · obtain ⟨a, ha, rfl⟩ := hlater
      have hne : p.base ++ namesIn a ≠ p.copyOf first := by
        rw [hplace]
        intro heq
        exact hsource.2 a ha (heq ▸ List.prefix_append _ _)
      rw [if_pos ⟨a, ha, rfl⟩, if_pos ⟨a, List.mem_cons_of_mem _ ha, rfl⟩,
        (hfirst.keepsAt hne).file_iff]
    rw [if_neg hlater]
    by_cases hrel : namesIn first = rel
    · have hfirstsource := hfirst.source
      have hcopied := hfirst.copied
      rw [path_resolve_eq_append hp hfirst.here hup.1] at hfirstsource
      rw [hplace] at hcopied
      subst hrel
      rw [if_pos ⟨first, List.mem_cons_self, rfl⟩, hfirstsource, hcopied]
    · have hne : p.output ++ rel ≠ p.copyOf first := by
        rw [hplace]
        simpa using Ne.symm hrel
      rw [if_neg (by simpa [hrel] using hlater), (hfirst.keepsAt hne).file_iff]

end Copies

end Build

end Hyperstory
