import Hyperstory.Proofs.Compiling
import Mathlib.Logic.Relation

/-!
The walk over a tree, moment by moment. What holds at every moment is shown along the way that the
walk takes, one stretch after another.
-/
namespace Hyperstory.Expansion

open Hyperstory.Tree Forest

/-- A turn counts a link, a section or nothing. -/
theorem visit_tally (path : String) (tally : Tally) (t : Forest) (c : Cursor) (v : Visit) :
    (visit path tally t c v).1 = tally ∨ (∃ a, (visit path tally t c v).1 = tally.link a) ∨
      ∃ name, (visit path tally t c v).1 = tally.declare name := by
  obtain ⟨i, entering⟩ := v
  by_cases hlink : (t.label i).kind = "link"
  · cases entering with
    | true =>
      rw [visit_quiet (fun _ => rfl) (by rw [hlink]; decide) fun hs =>
        absurd hs (by rw [hlink]; decide)]
      exact Or.inl rfl
    | false =>
      rw [visit_link hlink, link_eq]
      cases anchorOf? path (t.label i) with
      | error e => exact Or.inl rfl
      | ok a? =>
        cases a? with
        | none => exact Or.inl rfl
        | some a =>
          dsimp only
          cases replaceLink t i (a.id? .standard tally) a.action a.target <;>
            exact Or.inr (Or.inl ⟨a, rfl⟩)
  by_cases himage : (t.label i).kind = "image"
  · rw [visit_image himage]
    cases image path t i <;> exact Or.inl rfl
  by_cases hs : isScanned (t.label i).kind = true
  · cases hfind : Opening.find? ⟨0, 0, 0⟩ (t.label i).characters with
    | none =>
      rw [visit_quiet (fun h => absurd h hlink) himage fun _ => hfind]
      exact Or.inl rfl
    | some o =>
      cases hscan : Directive.scan (t.label i).characters o.index with
      | error e =>
        rw [visit_malformed hs hfind hscan]
        exact Or.inl rfl
      | ok d =>
        rw [visit_directive hs hfind hscan]
        split_ifs
        · cases sectionProblem? t tally i d with
          | some cause => exact Or.inl rfl
          | none => exact Or.inr (Or.inr ⟨d.identifier, rfl⟩)
        · exact Or.inl rfl
  · rw [visit_quiet (fun h => absurd h hlink) himage fun h => absurd h hs]
    exact Or.inl rfl

/-- A moment of the walk: what is counted, the tree as it is, and where the walk goes on. -/
structure Moment where
  tally : Tally
  tree : Forest
  cursor : Cursor

namespace Moment

/-- What the next turn of the walk gives, unless the walk is over. -/
def turn? (path : String) (m : Moment) : Option (Tally × Except Failure (Forest × Cursor)) :=
  (m.cursor.next? m.tree).map fun (v, c) => visit path m.tally m.tree c v

/-- The next turn goes well and leads to another moment. -/
def Turns (path : String) (m m' : Moment) : Prop :=
  m.turn? path = some (m'.tally, .ok (m'.tree, m'.cursor))

/-- The walk comes from one moment to another. -/
abbrev Comes (path : String) : Moment → Moment → Prop := Relation.ReflTransGen (Turns path)

/-- The moment after so many turns, if they all go well. -/
def advance (path : String) : Nat → Moment → Option Moment
  | 0, m => some m
  | turns + 1, m =>
    match m.turn? path with
    | some (tally, .ok (t, c)) => advance path turns ⟨tally, t, c⟩
    | _ => none

/-- The walk stands at a leaf in which a directive begins. -/
structure Finds (m : Moment) (i : NodeId) (o : Opening) : Prop where
  current : m.cursor.current = some i
  scanned : isScanned (m.tree.label i).kind = true
  finds : Opening.find? ⟨0, 0, 0⟩ (m.tree.label i).characters = some o

instance (m : Moment) (i : NodeId) (o : Opening) : Decidable (m.Finds i o) :=
  decidable_of_iff
    (m.cursor.current = some i ∧ isScanned (m.tree.label i).kind = true ∧
      Opening.find? ⟨0, 0, 0⟩ (m.tree.label i).characters = some o)
    ⟨fun ⟨hcurrent, hscanned, hfinds⟩ => ⟨hcurrent, hscanned, hfinds⟩,
      fun h => ⟨h.current, h.scanned, h.finds⟩⟩

/-- The walk stands at a leaf, and the first directive of that leaf begins a section. -/
structure Meets (m : Moment) (i : NodeId) (o : Opening) (d : Directive) : Prop
    extends m.Finds i o where
  scans : Directive.scan (m.tree.label i).characters o.index = .ok d
  begins : d.kind = .sectionBegin

instance (m : Moment) (i : NodeId) (o : Opening) (d : Directive) : Decidable (m.Meets i o d) :=
  decidable_of_iff
    (m.Finds i o ∧ Directive.scan (m.tree.label i).characters o.index = .ok d ∧
      d.kind = .sectionBegin)
    ⟨fun ⟨hfinds, hscans, hbegins⟩ => ⟨hfinds, hscans, hbegins⟩,
      fun h => ⟨h.toFinds, h.scans, h.begins⟩⟩

/-- The next turn counts the section that a directive begins, and the walk goes on. -/
def Begins (path : String) (m : Moment) (d : Directive) : Prop :=
  ∃ t c, m.turn? path = some (m.tally.declare d.identifier, .ok (t, c))

variable {path : String} {m m' m'' : Moment} {tally tally' : Tally} {t t' : Forest} {c' : Cursor}
  {root i : NodeId} {entering : Bool} {good : Moment → Prop}

theorem comes_of_advance {turns : Nat} (h : advance path turns m = some m') : Comes path m m' := by
  induction turns generalizing m with
  | zero => exact Option.some.inj h ▸ .refl
  | succ turns ih =>
    rw [advance] at h
    split at h
    · next tally t c hturn => exact .head (show Turns path m ⟨tally, t, c⟩ from hturn) (ih h)
    · cases h

theorem exists_visit {result : Tally × Except Failure (Forest × Cursor)}
    (h : m.turn? path = some result) :
    ∃ v c, m.cursor.next? m.tree = some (v, c) ∧ visit path m.tally m.tree c v = result := by
  obtain ⟨⟨v, c⟩, hnext, hv⟩ := Option.map_eq_some_iff.mp h
  exact ⟨v, c, hnext, hv⟩

theorem turns_of_visit
    (hv : visit path tally t (.after t root ⟨i, entering⟩) ⟨i, entering⟩ = (tally', .ok (t', c'))) :
    Turns path ⟨tally, t, ⟨root, some i, entering⟩⟩ ⟨tally', t', c'⟩ := congrArg some hv

theorem Turns.unique (h : Turns path m m') (h' : Turns path m m'') : m' = m'' := by
  have heq := h.symm.trans h'
  simp only [Option.some.injEq, Prod.mk.injEq, Except.ok.injEq] at heq
  cases m'
  cases m''
  simp_all

/-- Every moment that the walk comes to from here is good. -/
def Stays (path : String) (good : Moment → Prop) (m : Moment) : Prop :=
  ∀ x, Comes path m x → good x

/-- Every moment that the walk comes to from here is good or comes after `m'`. -/
def Sweeps (path : String) (good : Moment → Prop) (m m' : Moment) : Prop :=
  ∀ x, Comes path m x → good x ∨ Comes path m' x

theorem Sweeps.refl (m : Moment) : Sweeps path good m m := fun _ h => Or.inr h

theorem Sweeps.trans (h : Sweeps path good m m') (h' : Sweeps path good m' m'') :
    Sweeps path good m m'' := fun x hx => (h x hx).elim Or.inl (h' x)

theorem Sweeps.stays (h : Sweeps path good m m') (h' : Stays path good m') : Stays path good m :=
  fun x hx => (h x hx).elim id (h' x)

theorem Sweeps.step (hgood : good m) (h : Turns path m m') : Sweeps path good m m' := by
  intro x hx
  rcases Relation.ReflTransGen.cases_head hx with rfl | ⟨m₁, hturns, hrest⟩
  · exact Or.inl hgood
  · exact Or.inr (h.unique hturns ▸ hrest)

/-- The last moment of a walk: it is over, or the next turn fails. -/
theorem Stays.of_last (hgood : good m) (h : ∀ m', ¬ Turns path m m') : Stays path good m := by
  intro x hx
  rcases Relation.ReflTransGen.cases_head hx with rfl | ⟨m₁, hturns, -⟩
  · exact hgood
  · exact absurd hturns (h m₁)

theorem Stays.of_error {e : Failure} (hgood : good m)
    (h : m.turn? path = some (tally, .error e)) : Stays path good m := by
  refine .of_last hgood fun m' hturns => ?_
  have hturn := h.symm.trans hturns
  simp at hturn

/-- A walk that comes to a failure runs into it from the start. -/
theorem Comes.runs_of_error {e : Failure} (h : Comes path m m')
    (herror : m'.turn? path = some (tally', .error e)) :
    ∃ turns, Runs path m.tally m.tree m.cursor turns (tally', .error e) := by
  induction h using Relation.ReflTransGen.head_induction_on with
  | refl =>
    obtain ⟨v, c, hnext, hv⟩ := exists_visit herror
    exact ⟨0 + 1, .fail hnext hv⟩
  | head hturns _ ih =>
    obtain ⟨turns, hruns⟩ := ih
    obtain ⟨v, c, hnext, hv⟩ := exists_visit hturns
    exact ⟨turns + 1, .turn hnext hv hruns⟩

/-- The names of other files stay, and as many sections are counted as have names. -/
theorem Comes.counts (h : Comes path m m') (hm : m.tally.count = m.tally.declared.length) :
    m'.tally.taken = m.tally.taken ∧ m'.tally.count = m'.tally.declared.length := by
  induction h with
  | refl => exact ⟨rfl, hm⟩
  | @tail m₁ m₂ _ hturns ih =>
    obtain ⟨v, c, -, hv⟩ := exists_visit hturns
    have htally := visit_tally path m₁.tally m₁.tree c v
    rw [hv] at htally
    dsimp only at htally
    rcases htally with heq | ⟨a, heq⟩ | ⟨name, heq⟩
    · rw [heq]
      exact ih
    · rw [heq, Tally.link]
      split_ifs <;> exact ih
    · rw [heq]
      exact ⟨ih.1, by simp [Tally.declare, ih.2]⟩

/-- The turn in which the walk meets the directive of a section. -/
theorem Meets.turn?_eq (path : String) {o : Opening} {d : Directive} (h : m.Meets i o d) :
    m.turn? path =
      match sectionProblem? m.tree m.tally i d with
      | some cause =>
        some (m.tally, .error (problemAt path (m.tree.label i) o.lines o.columns cause))
      | none => some (m.tally.declare d.identifier, .ok ((beginSection m.tree m.tally i d).2.1,
          (Cursor.after m.tree m.cursor.root ⟨i, m.cursor.entering⟩).resumeAt
            (beginSection m.tree m.tally i d).2.2 true)) := by
  have hturn : m.turn? path = some (visit path m.tally m.tree
      (Cursor.after m.tree m.cursor.root ⟨i, m.cursor.entering⟩) ⟨i, m.cursor.entering⟩) := by
    rw [turn?, Cursor.next?, h.current]
    rfl
  rw [hturn, visit_directive h.scanned h.finds h.scans, if_pos h.begins]
  cases sectionProblem? m.tree m.tally i d <;> rfl

/-- A section that cannot begin is the end of the walk. -/
theorem Meets.stays {o : Opening} {d : Directive} {cause : Cause} (h : m.Meets i o d)
    (hgood : good m) (hproblem : sectionProblem? m.tree m.tally i d = some cause) :
    Stays path good m := by
  have hturn := h.turn?_eq path
  rw [hproblem] at hturn
  exact .of_error hgood hturn

theorem Meets.begins_iff {o : Opening} {d : Directive} (h : m.Meets i o d) :
    m.Begins path d ↔ sectionProblem? m.tree m.tally i d = none := by
  unfold Begins
  rw [h.turn?_eq]
  cases sectionProblem? m.tree m.tally i d <;> simp

end Moment

/-- Where a walk fails, so does compiling the file. -/
theorem compileTokens_of_comes {c : Compiler} {path : String} {tokens : List Token} {t : Forest}
    {m : Moment} {tally : Tally} {e : Failure}
    (hjoins : Compiler.Joins tokens t) (hcomes : Moment.Comes path ⟨c.tally, t, .start 0⟩ m)
    (herror : m.turn? path = some (tally, .error e)) :
    (c.compileTokens path tokens).outcome = .error e := by
  obtain ⟨kids, hd⟩ := hjoins.document
  obtain ⟨final, hruns, -⟩ := document_runs path c.tally hd
  obtain ⟨turns, hfails⟩ := hcomes.runs_of_error herror
  have hsame := (walk_of_runs (hruns.mono (Nat.le_max_left _ turns))).symm.trans
    (walk_of_runs (hfails.mono (Nat.le_max_right _ _)))
  have hall : all path c.tally t 0 = _ := walk_of_runs hruns
  rw [hsame] at hall
  exact (Compiler.compileTokens_of_error hjoins hall).1

end Hyperstory.Expansion
