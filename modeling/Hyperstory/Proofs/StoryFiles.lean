import Hyperstory.Proofs.Planning
import Hyperstory.Proofs.Session

/-! The files of a story, compiled one after the other. -/
namespace Hyperstory

/-- What a turn adds to the story, if it gives a page. -/
def Turn.block? (turn : Turn) : Option String :=
  match turn.ending with
  | .page html => some ("<!-- " ++ turn.call.path ++ " -->\n" ++ html ++ "\n")
  | _ => none

namespace Build

open Run

/-- The call for a file of a story. -/
def story (p : Project) (w : Workspace) (file : String) : Call :=
  .render file ((Run.text w (p.path file)).toOption.getD "")

theorem story_of_text {p : Project} {w : Workspace} {file source : String}
    (h : text w (p.path file) = .ok source) : story p w file = .render file source := by
  rw [story, h]
  rfl

theorem session_story_cons {p : Project} {w : Workspace} {file source : String} (c : Compiler)
    (rest : List String) (h : text w (p.path file) = .ok source) :
    c.session ((file :: rest).map (story p w)) =
      ⟨c, .render file source, .ofRendering (c.render file source).outcome,
        (c.render file source).compiler⟩ ::
          (c.render file source).compiler.session (rest.map (story p w)) := by
  rw [List.map_cons, story_of_text h]
  rfl

/-- If all files can be read and none is faulty, compiling them counts those that have problems and
puts the pages of the others behind each other. -/
theorem value_renderFrom_of_faultless {p : Project} {c : Compiler} {files : List String}
    {w : Workspace} (hread : ∀ file ∈ files, ∃ source, text w (p.path file) = .ok source)
    (hfaultless : ∀ turn ∈ c.session (files.map (story p w)), ∀ f, turn.ending ≠ .fault f) :
    (renderFrom p c files).value w =
      .ok (String.join ((c.session (files.map (story p w))).filterMap Turn.block?),
        (c.session (files.map (story p w))).countP (·.ending = .problem)) := by
  induction files generalizing c with
  | nil => rfl
  | cons file rest ih =>
    obtain ⟨⟨source, hsource⟩, hread⟩ := List.forall_mem_cons.mp hread
    rw [session_story_cons c rest hsource] at hfaultless ⊢
    obtain ⟨hfirst, hrest⟩ := List.forall_mem_cons.mp hfaultless
    have hothers := ih hread hrest
    rw [value_renderFrom_cons, hsource]
    show prepend file (c.render file source).outcome _ = _
    rw [hothers]
    cases houtcome : (c.render file source).outcome with
    | error f => exact absurd (by rw [houtcome]; rfl) (hfirst f)
    | ok page =>
      cases page with
      | none =>
        rw [List.filterMap_cons_none rfl, List.countP_cons_of_pos (by simp [Ending.ofRendering])]
        rfl
      | some page =>
        rw [List.filterMap_cons_some (f := Turn.block?) rfl, String.join_cons,
          List.countP_cons_of_neg (by simp [Ending.ofRendering])]
        rfl

/-- Where compiling files comes to an end, none of them is faulty. -/
theorem faultless_of_renderFrom {p : Project} {c : Compiler} {files : List String} {w : Workspace}
    {found : String × Nat} (h : (renderFrom p c files).value w = .ok found) :
    ∀ turn ∈ c.session (files.map (story p w)), ∀ f, turn.ending ≠ .fault f := by
  induction files generalizing c found with
  | nil => simp [Compiler.session]
  | cons file rest ih =>
    obtain ⟨source, hsource⟩ := text_of_renderFrom h List.mem_cons_self
    rw [value_renderFrom_cons, hsource] at h
    change prepend file (c.render file source).outcome _ = _ at h
    obtain ⟨_, hrest⟩ := exists_of_prepend h
    rw [session_story_cons c rest hsource, List.forall_mem_cons]
    refine ⟨fun f => ?_, ih hrest⟩
    cases houtcome : (c.render file source).outcome with
    | error f' =>
      rw [houtcome] at h
      cases h
    | ok page => cases page <;> simp [Ending.ofRendering]

/-- Compiling the files of a story comes to an end when all of them can be read and none is faulty.
-/
theorem value_renderFrom_eq_ok (p : Project) (c : Compiler) (files : List String) (w : Workspace)
    (found : String × Nat) :
    (renderFrom p c files).value w = .ok found ↔
      (∀ file ∈ files, ∃ source, text w (p.path file) = .ok source) ∧
      (∀ turn ∈ c.session (files.map (story p w)), ∀ f, turn.ending ≠ .fault f) ∧
      found.1 = String.join ((c.session (files.map (story p w))).filterMap Turn.block?) ∧
      found.2 = (c.session (files.map (story p w))).countP (·.ending = .problem) := by
  constructor
  · intro h
    have hread : ∀ file ∈ files, ∃ source, text w (p.path file) = .ok source :=
      fun file => text_of_renderFrom h
    have hfaultless := faultless_of_renderFrom h
    rw [value_renderFrom_of_faultless hread hfaultless] at h
    obtain rfl := Except.ok.inj h
    exact ⟨hread, hfaultless, rfl, rfl⟩
  · rintro ⟨hread, hfaultless, hhtml, hproblems⟩
    rw [value_renderFrom_of_faultless hread hfaultless, ← hhtml, ← hproblems]

end Build

end Hyperstory
