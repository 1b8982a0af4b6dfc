import Hyperstory.Proofs.Gathering
import Hyperstory.Proofs.Patterns

/-!
Which files are gathered. They are the files that some pattern yields and no ignored pattern does,
without those below the output directory, each once and in the order of their codes. So neither the
order of the patterns nor that of the directories matters.
-/
namespace Hyperstory

namespace Text.Half

variable {s t : String}

end Text.Half

/-- The order in which the places of a tree are listed does not matter. -/
theorem Disk.Formed.agree {d d' : Disk} (hd : d.Formed) (hd' : d'.Formed)
    (h : ∀ e, e ∈ d'.entries ↔ e ∈ d.entries) : d.Agree d' := by
  intro l
  by_cases hl : l = []
  · rw [hl, get?_nil, get?_nil]
  · refine Option.ext fun i => ?_
    have hiff : d'.get? l = some i ↔ d.get? l = some i := by
      simpa [hd.mem_entries_iff, hd'.mem_entries_iff, hl] using h (l, i)
    exact hiff

namespace Glob

variable {d d' : Disk} {base : Location} {g : Glob} {s : GlobStep} {last : Bool}
  {p p' q names : List String}

theorem Steps.agree (h : d.Agree d') (hstep : Steps d base last s p p') :
    Steps d' base last s p p' := by
  unfold Steps at hstep ⊢
  simpa only [h.find, h.locate, h _] using hstep

theorem Needs.agree (h : d.Agree d') (hneeds : Needs d base s p q) : Needs d' base s p q := by
  cases s with
  | deep => exact hneeds.imp_right (Steps.agree h)
  | _ => exact hneeds

theorem Asks.agree (h : d.Agree d') (hasks : Asks d base g p q) : Asks d' base g p q := by
  induction hasks with
  | all => exact .all
  | need hneeds => exact .need (hneeds.agree h)
  | step hstep _ ih => exact .step (hstep.agree h) ih

/-! ### All that is below a directory -/

end Glob

namespace Project

open Run Location Hyperstory.Path

variable {p : Project} {d d' : Disk} {patterns files found : List String} {s f dir : String}
  {w : Workspace}

/-! ### What patterns yield -/

/-- A pattern yields a file: it covers the names of the file, which lead there from the directory of
the project. -/
def Yields (p : Project) (d : Disk) (s f : String) : Prop :=
  d.get? p.base = some .directory ∧ ∃ g, Glob.parse (whole s) = .ok g ∧ g.Covers (namesIn f) ∧
    "/".intercalate (namesIn f) = f ∧ ∃ l bytes, d.find [] (p.path f) = .ok (l, .file bytes)

/-- A pattern is accepted: it can be read, and no path that it asks for or reads is too long. -/
def Accepts (p : Project) (d : Disk) (s : String) : Prop :=
  ∃ g, Glob.parse (whole s) = .ok g ∧ (d.get? p.base = some .directory →
    ∀ q, g.Asks d p.base [] q → ¬ Glob.TooLong d p.base q)

theorem Yields.agree (h : d.Agree d') (hyields : p.Yields d s f) : p.Yields d' s f := by
  obtain ⟨hbase, g, hparse, hcovers, heq, l, bytes, hfind⟩ := hyields
  exact ⟨(h _).trans hbase, g, hparse, hcovers, heq, l, bytes, h.find.trans hfind⟩

theorem Accepts.agree (h : d.Agree d') (haccepts : p.Accepts d s) : p.Accepts d' s := by
  obtain ⟨g, hparse, hshort⟩ := haccepts
  refine ⟨g, hparse, fun hbase q hasks hlong => ?_⟩
  have hback : d'.Agree d := fun l => (h l).symm
  exact hshort ((hback _).trans hbase) q (hasks.agree hback) (hback.locate.trans hlong)

/-- A path of a directory that is written without wildcards, from the directory of a project. -/
structure IsPlain (dir : String) : Prop where
  ne_empty : dir ≠ ""
  relative : dir.toList.head? ≠ some '/'
  literal : ∀ c ∈ dir.toList, c ≠ '*' ∧ c ≠ '?' ∧ c ≠ '['

theorem mem_of_mem_namesIn {n : String} (hn : n ∈ namesIn s) {c : Char} (hc : c ∈ n.toList) :
    c ∈ s.toList := by
  have hsplit : ∀ {xs part : List Char}, part ∈ xs.splitOn '/' → c ∈ part → c ∈ xs := by
    intro xs
    induction xs with
    | nil => simp
    | cons x xs ih =>
      intro part hpart hc
      rw [List.splitOn_cons_eq_if_modifyHead] at hpart
      split at hpart
      · rcases List.mem_cons.mp hpart with rfl | hpart
        · cases hc
        · exact List.mem_cons_of_mem x (ih hpart hc)
      · cases hrest : xs.splitOn '/' with
        | nil => exact absurd hrest (List.splitOn_ne_nil _ _)
        | cons first rest =>
          rw [hrest] at ih
          rw [hrest, List.modifyHead_cons] at hpart
          rcases List.mem_cons.mp hpart with rfl | hpart
          · rcases List.mem_cons.mp hc with rfl | hc
            · exact List.mem_cons_self
            · exact List.mem_cons_of_mem x (ih List.mem_cons_self hc)
          · exact List.mem_cons_of_mem x (ih (List.mem_cons_of_mem first hpart) hc)
  obtain ⟨hmem, -⟩ := List.mem_filter.mp hn
  obtain ⟨part, hpart, rfl⟩ := List.mem_map.mp hmem
  exact hsplit hpart (by simpa using hc)

theorem star_mem_of_hasTwoStars {cs : List Char} (h : Glob.hasTwoStars cs = true) : '*' ∈ cs := by
  fun_induction Glob.hasTwoStars cs with
  | case1 => simp
  | case2 c cs _ ih => exact List.mem_cons_of_mem c (ih h)
  | case3 => cases h

theorem IsPlain.stepOf (h : IsPlain dir) {n : String} (hn : n ∈ namesIn dir) :
    Glob.stepOf n = .ok (.name n) := by
  have hliteral : ∀ c ∈ n.toList, c ≠ '*' ∧ c ≠ '?' ∧ c ≠ '[' := fun c hc =>
    h.literal c (mem_of_mem_namesIn hn hc)
  have hstar : '*' ∉ n.toList := fun hmem => (hliteral '*' hmem).1 rfl
  have hdeep : n ≠ "**" := by
    rintro rfl
    exact hstar (by decide)
  have hstars : ¬ Glob.hasTwoStars n.toList = true := fun htwo =>
    hstar (star_mem_of_hasTwoStars htwo)
  have hany : ¬ (n.toList.any fun c => c == '*' || c == '?' || c == '[') = true := by
    intro hany
    obtain ⟨c, hc, hwild⟩ := List.any_eq_true.mp hany
    have hplain := hliteral c hc
    simp [hplain] at hwild
  rw [Glob.stepOf, if_neg (by simpa using hdeep), if_neg hstars, if_neg hany]

theorem IsPlain.parse (h : IsPlain dir) : Glob.parse (whole (dir ++ "/**")) =
    .ok ((namesIn dir).map .name ++ [.deep, .wild [.many]]) := by
  have hwhole : whole (dir ++ "/**") = dir ++ "/" ++ "**" ++ "/" ++ "*" := by
    have hlast : (dir ++ "/**").toList.reverse.take 2 == ['*', '*'] := by simp
    rw [whole, if_pos hlast]
    simp only [String.append_assoc]
    rfl
  have hnames : namesIn (dir ++ "/" ++ "**" ++ "/" ++ "*") = namesIn dir ++ ["**", "*"] := by
    rw [namesIn_append, namesIn_append, List.append_assoc]
    rfl
  have hnamed : ∀ names : List String, (∀ n ∈ names, Glob.stepOf n = .ok (.name n)) →
      (names ++ ["**", "*"]).mapM Glob.stepOf = .ok (names.map .name ++ [.deep, .wild [.many]]) := by
    intro names
    induction names with
    | nil => exact fun _ => rfl
    | cons n names ih =>
      intro hsteps
      obtain ⟨hn, hrest⟩ := List.forall_mem_cons.mp hsteps
      rw [List.cons_append, List.mapM_cons, hn, ih hrest]
      rfl
  have hsteps := hnamed (namesIn dir) fun n => h.stepOf
  have hhead : (dir ++ "/" ++ "**" ++ "/" ++ "*").toList.head? ≠ some '/' := by
    have hne : dir.toList ≠ [] := by simpa using h.ne_empty
    simp only [String.toList_append, List.append_assoc]
    rw [List.head?_append_of_ne_nil _ hne]
    exact h.relative
  have hlast : ¬ ((dir ++ "/" ++ "**" ++ "/" ++ "*").toList.getLast? == some '/') = true := by
    simp
  rw [hwhole, Glob.parse, if_neg (by simp), if_neg (by simpa using hhead), hnames]
  dsimp only
  split
  · next hnil => simp at hnil
  · rw [hsteps]
    exact congrArg Except.ok (if_neg hlast)

theorem Yields.relative (h : p.Yields d s f) : (ofString f).root = .here := by
  obtain ⟨-, g, -, -, heq, -⟩ := h
  rw [← heq, ofString_intercalate fun n => isPart_of_mem_namesIn]

end Project

end Hyperstory
