import Hyperstory.Proofs.Alike
import Hyperstory.Proofs.StoryFiles

/-!
Files that are compiled one after the other. A file fails after others exactly when it fails alone
or declares a name of theirs, so the order of the files does not matter.
-/
namespace Hyperstory

open Hyperstory.Tree Expansion

namespace Compiler

variable {c c' : Compiler} {path : String} {tokens : List Token}

/-- A file that one compiler compiles is compiled by another, unless a name is taken there. -/
theorem compileTokens_isOk {html : String} (h : (c.compileTokens path tokens).outcome = .ok html)
    (hnew : ∀ x ∈ declaredIn tokens, x ∉ c'.sections) :
    (c'.compileTokens path tokens).outcome.isOk = true := by
  obtain ⟨t, tally₁, t₁, out, hjoins, hall₁, hexpand₁, hend⟩ := compileTokens_eq_ok h
  rw [hjoins.declaredIn] at hnew
  have hagrees : c.tally.Agrees c'.tally := ⟨rfl, rfl⟩
  obtain ⟨tally₂, out', hexpand₂, halike⟩ := expandAll_alike hjoins.formed hagrees hexpand₁ hnew
  obtain ⟨final₁, hfinal₁, -, hok₁⟩ := hjoins.all_eq path c.tally
  obtain ⟨final₂, hall₂, -, hok₂⟩ := hjoins.all_eq path c'.tally
  rw [hexpand₁] at hfinal₁ hok₁
  rw [hexpand₂] at hall₂ hok₂
  obtain ⟨t₁', kids₁, rfl, hd₁, -⟩ := hok₁ out rfl
  obtain ⟨t₂, kids₂, rfl, hd₂, htree₂⟩ := hok₂ out' rfl
  obtain rfl : t₁ = t₁' := Except.ok.inj (Prod.mk.inj (hall₁.symm.trans hfinal₁)).2
  rw [(compileTokens_of_ok hjoins hall₂).1]
  have hrow₂ : (t₂.tree 0).row = out' := by rw [htree₂, row_node]
  by_cases hempty : out' = []
  · rw [finish_of_nil hd₂ (hrow₂.trans hempty)]
    rfl
  rcases hend with ⟨hnil, -⟩ | ⟨hcount, hpage, hrow₁, -⟩
  · exact absurd (halike.eq_nil_iff.mp hnil) hempty
  have hcount₂ : (c'.startFile.withTally tally₂).sectionCount ≠ 0 := by
    have hsame := hagrees.declares (expandAll_declares hexpand₁) (expandAll_declares hexpand₂)
    show tally₂.count ≠ 0
    rw [hsame.count]
    exact hcount
  rw [(finish_of_ne_nil hd₂ (hrow₂ ▸ hempty) hcount₂).1]
  -- the two trees are rendered alike
  obtain ⟨⟨_, hlinked₁⟩, -⟩ := closed_tree hd₁
  obtain ⟨⟨_, hlinked₂⟩, hclosed₂⟩ := closed_tree hd₂
  obtain ⟨parts, hparts, hrender⟩ := (page_isOk_iff hlinked₁).mp (by rw [hpage]; rfl)
  have hrows : Alike ((closed t₁).tree 0).row ((closed t₂).tree 0).row := by
    rw [hrow₁, hclosed₂, row_node, hrow₂]
    exact halike.unescaped.append (.node (by decide) .nil .nil)
  obtain ⟨parts', hparts', hsame⟩ := hrows.streamsOf hparts
  refine (page_isOk_iff hlinked₂).mpr ⟨parts', hparts', ?_⟩
  rw [Slot.render, ← Slot.renderAfter_isOk (hsame.groupRuns .nil) none none]
  exact hrender

/-- The names that a compiler reports for a file that it has compiled. -/
theorem fileSections_of_page {html : String}
    (h : (c.compileTokens path tokens).outcome = .ok html) :
    (c.compileTokens path tokens).compiler.fileSections = (declaredIn tokens).reverse := by
  obtain ⟨t, tally, t', out, hjoins, -, hexpand, hend⟩ := compileTokens_eq_ok h
  have hnames : tally.declared = (declaredIn tokens).reverse := by
    rw [hjoins.declaredIn]
    exact (expandAll_declares hexpand).declared.trans (List.append_nil _)
  rcases hend with ⟨-, -, hcompiler⟩ | ⟨-, -, -, hcompiler⟩
  · rw [hcompiler]
    exact hnames
  · rw [hcompiler]
    exact hnames

end Compiler

theorem Ending.isPage_ofOutcome (outcome : Except Failure String) :
    (Ending.ofOutcome outcome).isPage = outcome.isOk := by
  cases outcome with
  | ok html => rfl
  | error e => cases e <;> rfl

namespace Call

variable {c c₀ : Compiler} {call : Call}

/-- A call that gives a page after others gives one wherever its names are free. -/
theorem isPage_of_isPage (h : (call.run c).1.isPage = true)
    (hnew : ∀ x ∈ call.declared, x ∉ c₀.sections) : (call.run c₀).1.isPage = true := by
  have hrun : call.run c = ((call.run c).1, (call.run c).2) := rfl
  obtain ⟨tokens, html, htokens, -, houtcome, -⟩ := run_eq_page hrun h
  rw [declared, htokens] at hnew
  rw [run_eq, htokens]
  dsimp only
  rw [Ending.isPage_ofOutcome]
  exact Compiler.compileTokens_isOk houtcome hnew

/-- A call gives a page after others if it gives one alone and its names are free. -/
theorem isPage_iff (hnd : c.sections.Nodup) (h₀ : c₀.sections = []) :
    (call.run c).1.isPage = true ↔
      (call.run c₀).1.isPage = true ∧ ∀ x ∈ call.declared, x ∉ c.sections := by
  constructor
  · intro h
    obtain ⟨hsections, hnodup⟩ := (call.run_sections c).1 h hnd
    rw [hsections] at hnodup
    refine ⟨isPage_of_isPage h (by simp [h₀]), fun x hx => ?_⟩
    exact hnodup.disjoint (List.mem_reverse.mpr hx)
  · rintro ⟨halone, hfree⟩
    exact isPage_of_isPage halone hfree

theorem fileSections_run (h : (call.run c).1.isPage = true) :
    (call.run c).2.fileSections = call.declared.reverse := by
  have hrun : call.run c = ((call.run c).1, (call.run c).2) := rfl
  obtain ⟨tokens, html, htokens, -, houtcome, hafter⟩ := run_eq_page hrun h
  rw [hafter, Compiler.fileSections_of_page houtcome, declared, htokens]

end Call

namespace Compiler

/-- All calls give pages if each gives one alone, no two declare the same name, and none declares
a name that was taken before. -/
theorem session_isPage_iff {c c₀ : Compiler} (hnd : c.sections.Nodup) (h₀ : c₀.sections = [])
    (calls : List Call) :
    (∀ turn ∈ c.session calls, turn.ending.isPage = true) ↔
      (∀ call ∈ calls, (call.run c₀).1.isPage = true) ∧
      calls.Pairwise (fun a b => a.declared.Disjoint b.declared) ∧
      ∀ call ∈ calls, ∀ x ∈ call.declared, x ∉ c.sections := by
  induction calls generalizing c with
  | nil => simp [session]
  | cons call rest ih =>
    rw [session, List.forall_mem_cons, List.forall_mem_cons, List.pairwise_cons,
      List.forall_mem_cons]
    dsimp only
    constructor
    · rintro ⟨hfirst, hrest⟩
      obtain ⟨hsections, hnodup⟩ := (call.run_sections c).1 hfirst hnd
      obtain ⟨halone, hfree⟩ := (Call.isPage_iff hnd h₀).mp hfirst
      obtain ⟨hothers, hapart, hnew⟩ := (ih hnodup).mp hrest
      rw [hsections] at hnew
      refine ⟨⟨halone, hothers⟩, ⟨fun other hother x hx hx' => ?_, hapart⟩, hfree,
        fun other hother x hx hx' => ?_⟩
      · exact hnew other hother x hx' (by simp [hx])
      · exact hnew other hother x hx (by simp [hx'])
    · rintro ⟨⟨halone, hothers⟩, ⟨hapart, hrest⟩, hfree, hnew⟩
      have hfirst : (call.run c).1.isPage = true := (Call.isPage_iff hnd h₀).mpr ⟨halone, hfree⟩
      obtain ⟨hsections, hnodup⟩ := (call.run_sections c).1 hfirst hnd
      refine ⟨hfirst, (ih hnodup).mpr ⟨hothers, hrest, fun other hother x hx hx' => ?_⟩⟩
      rw [hsections, List.mem_append, List.mem_reverse] at hx'
      rcases hx' with hx' | hx'
      · exact hapart other hother hx' hx
      · exact hnew other hother x hx hx'

end Compiler

theorem Ending.isPage_iff (ending : Ending) :
    ending.isPage = true ↔ (∀ f, ending ≠ .fault f) ∧ ending ≠ .problem := by
  cases ending <;> simp [isPage]

namespace Build

/-- Compiling the files of a story ends without problems. -/
def Succeeds (x : Run (String × Nat)) (w : Workspace) : Prop :=
  ∃ html w', x.run.run w = (.ok (html, 0), w')

theorem succeeds_iff_value {x : Run (String × Nat)} (hx : x.ReadsOnly) (w : Workspace) :
    Succeeds x w ↔ ∃ html, x.value w = .ok (html, 0) := by
  obtain ⟨reported, hrun⟩ := hx.exists_run w
  unfold Succeeds
  rw [hrun]
  constructor
  · rintro ⟨html, w', h⟩
    exact ⟨html, (Prod.mk.inj h).1⟩
  · rintro ⟨html, h⟩
    exact ⟨html, _, by rw [h]⟩

/-- A story is compiled without problems if its files can be read and every one, after those
before it, gives a page. -/
theorem succeeds_iff (p : Project) (c : Compiler) (files : List String) (w : Workspace) :
    Succeeds (renderFrom p c files) w ↔
      (∀ file ∈ files, (Run.text w (p.path file)).isOk = true) ∧
      ∀ turn ∈ c.session (files.map (story p w)), turn.ending.isPage = true := by
  have hreads (file : String) : (Run.text w (p.path file)).isOk = true ↔
      ∃ source, Run.text w (p.path file) = .ok source := by
    cases Run.text w (p.path file) <;> simp [Except.isOk, Except.toBool]
  simp only [succeeds_iff_value (readsOnly_renderFrom p c files), value_renderFrom_eq_ok, hreads,
    Ending.isPage_iff]
  constructor
  · rintro ⟨html, hread, hfaultless, -, hzero⟩
    have hproblem := List.countP_eq_zero.mp hzero.symm
    exact ⟨hread, fun turn hturn => ⟨hfaultless turn hturn, by simpa using hproblem turn hturn⟩⟩
  · rintro ⟨hread, hpages⟩
    refine ⟨_, hread, fun turn hturn => (hpages turn hturn).1, rfl, ?_⟩
    exact (List.countP_eq_zero.mpr fun turn hturn => by simpa using (hpages turn hturn).2).symm

end Build

namespace Compiler

variable {c : Compiler}

/-- A new compiler gives a page for each of the files if it does for each alone and they declare
different names. -/
theorem session_pages_of_fresh (h : c.sections = []) (files : List Call) :
    (∀ turn ∈ c.session files, turn.ending.isPage = true) ↔
      (∀ file ∈ files, (file.run c).1.isPage = true) ∧
      files.Pairwise fun a b => (a.run c).2.fileSections.Disjoint (b.run c).2.fileSections := by
  rw [session_isPage_iff (by rw [h]; exact List.nodup_nil) h]
  refine and_congr_right fun halone => ?_
  have hnames : files.Pairwise (fun a b => a.declared.Disjoint b.declared) ↔
      files.Pairwise fun a b => (a.run c).2.fileSections.Disjoint (b.run c).2.fileSections := by
    refine List.Pairwise.iff_of_mem fun {a b} ha hb => ?_
    rw [Call.fileSections_run (halone a ha), Call.fileSections_run (halone b hb)]
    simp [List.Disjoint]
  rw [hnames, h]
  simp

theorem session_pages_perm (h : c.sections = []) {files files' : List Call}
    (hperm : files.Perm files') :
    (∀ turn ∈ c.session files, turn.ending.isPage = true) ↔
      ∀ turn ∈ c.session files', turn.ending.isPage = true := by
  rw [session_pages_of_fresh h, session_pages_of_fresh h]
  refine and_congr ?_ (hperm.pairwise_iff fun hab => ?_)
  · exact ⟨fun hall file hfile => hall file (hperm.mem_iff.mpr hfile),
      fun hall file hfile => hall file (hperm.mem_iff.mp hfile)⟩
  · intro x hx hx'
    exact hab hx' hx

/-- A new compiler compiles files one after the other if and only if it compiles each of them alone
and no two declare the same name. So it does not depend on the order of the files whether they are
compiled, and whether a story is built from them without problems. -/
theorem file_order_irrelevant (debug : Bool) (files : List Call) :
    let fresh : Compiler := { debug }
    ((∀ turn ∈ fresh.session files, turn.ending.isPage = true) ↔
      (∀ file ∈ files, (file.run fresh).1.isPage = true) ∧
      files.Pairwise fun a b =>
        (a.run fresh).2.fileSections.Disjoint (b.run fresh).2.fileSections) ∧
    (∀ files', files.Perm files' →
      ((∀ turn ∈ fresh.session files, turn.ending.isPage = true) ↔
        ∀ turn ∈ fresh.session files', turn.ending.isPage = true)) ∧
    ∀ (p : Project) (o : BuildOptions) (w : Workspace) (names names' : List String),
      names.Perm names' →
      (Build.Succeeds (Build.render p o names) w ↔ Build.Succeeds (Build.render p o names') w) := by
  intro fresh
  refine ⟨session_pages_of_fresh rfl files, fun files' => session_pages_perm rfl,
    fun p o w names names' hperm => ?_⟩
  unfold Build.render
  rw [Build.succeeds_iff, Build.succeeds_iff]
  refine and_congr ?_ (session_pages_perm rfl (hperm.map (Build.story p w)))
  exact ⟨fun hall name hname => hall name (hperm.mem_iff.mpr hname),
    fun hall name hname => hall name (hperm.mem_iff.mp hname)⟩

end Compiler

end Hyperstory
