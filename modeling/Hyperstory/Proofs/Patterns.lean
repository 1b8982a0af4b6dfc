import Hyperstory.Proofs.Globs
import Mathlib.Data.List.Forall2
import Mathlib.Data.List.Infix

/-!
What patterns cover. The pattern of a name matches texts, a step stands for names, and a pattern
covers the names that its steps stand for one after the other. The files that a pattern leads to are
the files that it covers. Its search fails only where it asks for a path that is too long.
-/
namespace Hyperstory

namespace Wild

variable {w : Wild} {ws : List Wild} {c : Char} {cs : List Char} {bs : List Bool}

/-- The pattern of a name matches the whole of a text. -/
inductive Matches : List Wild → List Char → Prop
  | nil : Matches [] []
  /-- Any text has ended. -/
  | stop {ws : List Wild} {cs : List Char} (h : Matches ws cs) : Matches (.many :: ws) cs
  /-- Any text goes on. -/
  | skip {ws : List Wild} {cs : List Char} (c : Char) (h : Matches (.many :: ws) cs) :
      Matches (.many :: ws) (c :: cs)
  | one {w : Wild} {ws : List Wild} {c : Char} {cs : List Char} (hc : w.admits c = true)
      (h : Matches ws cs) : Matches (w :: ws) (c :: cs)

theorem matches_nil : Matches [] cs ↔ cs = [] := by
  constructor
  · intro h
    cases h
    rfl
  · rintro rfl
    exact .nil

theorem matches_many_nil : Matches (.many :: ws) [] ↔ Matches ws [] := by
  constructor
  · intro h
    cases h with
    | stop h => exact h
  · exact .stop

theorem matches_many_cons :
    Matches (.many :: ws) (c :: cs) ↔ Matches ws (c :: cs) ∨ Matches (.many :: ws) cs := by
  constructor
  · intro h
    cases h with
    | stop h => exact .inl h
    | skip _ h => exact .inr h
    | one hc _ => cases hc
  · rintro (h | h)
    · exact .stop h
    · exact .skip c h

theorem not_matches_cons_nil (hw : w ≠ .many) : ¬ Matches (w :: ws) [] := by
  intro h
  cases h with
  | stop _ => exact hw rfl

theorem matches_cons_cons (hw : w ≠ .many) :
    Matches (w :: ws) (c :: cs) ↔ w.admits c = true ∧ Matches ws cs := by
  constructor
  · intro h
    cases h with
    | stop _ => exact absurd rfl hw
    | skip _ _ => exact absurd rfl hw
    | one hc h => exact ⟨hc, h⟩
  · rintro ⟨hc, h⟩
    exact .one hc h

/-- Each answer is for the suffix at its place. -/
def Answers (P : List Char → Prop) (bs : List Bool) (cs : List Char) : Prop :=
  List.Forall₂ (fun b suffix => b = true ↔ P suffix) bs cs.tails

theorem answers_nil {P : List Char → Prop} {b : Bool} :
    Answers P [b] [] ↔ (b = true ↔ P []) := by
  simp [Answers]

theorem answers_cons {P : List Char → Prop} {b : Bool} :
    Answers P (b :: bs) (c :: cs) ↔ (b = true ↔ P (c :: cs)) ∧ Answers P bs cs := by
  simp [Answers]

theorem Answers.headD {P : List Char → Prop} (h : Answers P bs cs) :
    bs.headD false = true ↔ P cs := by
  cases cs with
  | nil =>
    obtain ⟨b, rest, hb, -, rfl⟩ := List.forall₂_cons_right_iff.mp h
    exact hb
  | cons c cs =>
    obtain ⟨b, rest, hb, -, rfl⟩ := List.forall₂_cons_right_iff.mp h
    exact hb

theorem anyFrom_answers (h : Answers (Matches ws) bs cs) :
    Answers (Matches (.many :: ws)) (anyFrom bs) cs := by
  induction cs generalizing bs with
  | nil =>
    obtain ⟨b, rest, hb, hrest, rfl⟩ := List.forall₂_cons_right_iff.mp h
    cases hrest
    rw [anyFrom, anyFrom, answers_nil, matches_many_nil]
    simpa using hb
  | cons c cs ih =>
    obtain ⟨b, rest, hb, hrest, rfl⟩ := List.forall₂_cons_right_iff.mp h
    have hafter := ih hrest
    rw [anyFrom, answers_cons, matches_many_cons, Bool.or_eq_true, hafter.headD, hb]
    exact ⟨Iff.rfl, hafter⟩

theorem zipWith_answers (hw : w ≠ .many) (h : Answers (Matches ws) bs cs) :
    Answers (Matches (w :: ws))
      (List.zipWith (fun c b => w.admits c && b) cs bs.tail ++ [false]) cs := by
  induction cs generalizing bs with
  | nil =>
    rw [List.zipWith_nil_left, List.nil_append, answers_nil]
    simpa using not_matches_cons_nil hw
  | cons c cs ih =>
    obtain ⟨b, rest, -, hrest, rfl⟩ := List.forall₂_cons_right_iff.mp h
    have hnext : Answers (Matches ws) rest cs := hrest
    have hhead := hnext.headD
    have hafter := ih hnext
    cases rest with
    | nil => cases cs <;> cases hnext
    | cons b' rest =>
      rw [List.tail_cons, List.zipWith_cons_cons, List.cons_append, answers_cons,
        matches_cons_cons hw, Bool.and_eq_true]
      rw [List.headD_cons] at hhead
      exact ⟨and_congr_right fun _ => hhead, hafter⟩

theorem matchSuffixes_answers (ws : List Wild) (cs : List Char) :
    Answers (Matches ws) (matchSuffixes ws cs) cs := by
  induction ws with
  | nil =>
    rw [matchSuffixes]
    induction cs with
    | nil => simp [answers_nil, matches_nil]
    | cons c cs ih =>
      rw [List.map_cons, List.cons_append, answers_cons]
      exact ⟨by simp [matches_nil], ih⟩
  | cons w ws ih =>
    cases w with
    | many => exact anyFrom_answers ih
    | one | char | range => exact zipWith_answers (by simp) ih

/-- The answers for all suffixes at once are right for the whole text. -/
theorem isMatch_iff : isMatch ws cs = true ↔ Matches ws cs := (matchSuffixes_answers ws cs).headD

end Wild

namespace Disk

open Location Hyperstory.Path

variable {d : Disk} {l rest m : Location} {i : Item}

/-- All that a path leads through are directories, which shorter paths lead to. -/
theorem find_above (h : d.find [] (ofLocation (l ++ rest)) = .ok (m, i)) (hrest : rest ≠ []) :
    d.find [] (ofLocation l) = .ok (l.foldl step [], .directory) := by
  obtain ⟨hlocate, -⟩ := find_eq_ok_iff.mp h
  have hfits : (ofLocation l).Fits := (fits_of_locate hlocate).shorten (List.prefix_append l rest)
  obtain ⟨-, -, hleads, -⟩ := locate_eq_ok_iff.mp hlocate
  have hdir : d.get? (l.foldl step []) = some .directory := by
    cases rest with
    | nil => exact absurd rfl hrest
    | cons name rest =>
      have hname : l ++ [name] <+: l ++ name :: rest := ⟨rest, by simp⟩
      exact (hleads l name hname).1
  refine find_eq_ok_iff.mpr ⟨locate_eq_ok_iff.mpr ⟨hfits.nameable, hfits.short, ?_, rfl⟩, hdir⟩
  exact fun pre name hpre => hleads pre name (hpre.trans (List.prefix_append l rest))

theorem eq_of_find (h : d.find [] (ofLocation l) = .ok (m, i)) :
    m = l.foldl step [] ∧ d.get? (l.foldl step []) = some i := by
  obtain ⟨hlocate, hget⟩ := find_eq_ok_iff.mp h
  have hm : m = l.foldl step [] := eq_resolve_of_locate (by simp [ofLocation]) hlocate
  exact ⟨hm, hm ▸ hget⟩

end Disk

section Results

variable {α β ε : Type} {xs : List α}

end Results

/-- The names that a step stands for. What is read from directories never goes up. -/
inductive GlobStep.Fills : GlobStep → List String → Prop
  | name (n : String) : Fills (.name n) [n]
  | wild {ws : List Wild} {n : String} (hn : n ≠ "..") (hmatch : Wild.Matches ws n.toList) :
      Fills (.wild ws) [n]
  | deep {names : List String} (hnames : ".." ∉ names) : Fills .deep names
  | here : Fills .here []

/-- A step that ends with a name can lead to a file; the others lead to directories. -/
def GlobStep.endsInName : GlobStep → Bool
  | .name _ | .wild _ => true
  | .deep | .here => false

namespace Glob

open Location Hyperstory.Path

variable {d d' : Disk} {base m : Location} {g rest : Glob} {s : GlobStep} {last : Bool}
  {p p' q first names : List String} {i : Item} {bytes : ByteArray}

/-- A pattern covers the names that its steps stand for, one after the other. -/
inductive Covers : Glob → List String → Prop
  | last {s : GlobStep} {names : List String} (hs : s.endsInName = true) (h : s.Fills names) :
      Covers [s] names
  | cons {s : GlobStep} {rest : Glob} {first names : List String} (h : s.Fills first)
      (hrest : Covers rest names) : Covers (s :: rest) (first ++ names)

theorem Covers.ne_nil (h : Covers g names) : names ≠ [] := by
  induction h with
  | last hs h =>
    cases h with
    | name n => simp
    | wild _ _ => simp
    | deep _ => cases hs
    | here => cases hs
  | cons _ _ ih => simp [ih]

/-- A step leads to a directory, unless it is the last one and ends with a name. -/
theorem Steps.directory (hd : d.Formed) (h : Steps d base last s p p')
    (hlast : last = false ∨ s.endsInName = false)
    (hp : d.get? ((base ++ p).foldl Location.step []) = some .directory) :
    d.get? ((base ++ p').foldl Location.step []) = some .directory := by
  -- The names that are read from a directory come right behind the way there.
  have hbelow : ∀ {l names : List String}, d.locate [] (ofLocation (base ++ p)) = .ok l →
      d.get? (l ++ names) = some .directory →
      d.get? ((base ++ (p ++ names)).foldl Location.step []) = some .directory := by
    intro l names hl hdir
    have hup : ".." ∉ names := fun hmem =>
      hd.up_notMem (by rw [hdir]; rfl) (List.mem_append_right l hmem)
    have heq : l = (base ++ p).foldl Location.step [] :=
      Disk.eq_resolve_of_locate (by simp [ofLocation]) hl
    rw [← List.append_assoc, List.foldl_append, foldl_step hup, ← heq]
    exact hdir
  cases s with
  | here =>
    obtain rfl : p' = p := h
    exact hp
  | name n =>
    obtain ⟨rfl, l, i, hfind, hi⟩ := h
    obtain rfl : i = .directory := by
      rcases hlast with rfl | hends
      · exact hi.resolve_left (by simp)
      · cases hends
    rw [List.append_assoc] at hfind
    exact (Disk.eq_of_find hfind).2
  | wild ws =>
    obtain ⟨l, n, hl, rfl, -, -, hdir⟩ := h
    refine hbelow hl ?_
    rcases hlast with rfl | hends
    · exact hdir.resolve_left (by simp)
    · cases hends
  | deep =>
    obtain ⟨l, names, hl, rfl, hdir⟩ := h
    rcases hdir with rfl | hdir
    · rwa [List.append_nil]
    · exact hbelow hl hdir

theorem steps_of_fills (h : s.Fills first)
    (hfind : d.find [] (ofLocation (base ++ p ++ first)) = .ok (m, i))
    (hi : i = .directory ∨ last = true ∧ s.endsInName = true) :
    Steps d base last s p (p ++ first) := by
  have hget := (Disk.eq_of_find hfind).2
  rw [List.foldl_append] at hget
  -- What is read from a directory comes after the way there.
  have hlocate : first ≠ [] → d.locate [] (ofLocation (base ++ p)) =
      .ok ((base ++ p).foldl Location.step []) := fun hfirst =>
    (Disk.find_eq_ok_iff.mp (Disk.find_above hfind hfirst)).1
  cases h with
  | here =>
    exact List.append_nil p
  | name n => exact .intro rfl ⟨m, i, hfind, hi.symm.imp_left And.left⟩
  | @wild ws n hn hmatch =>
    rw [foldl_step (by simpa using hn.symm)] at hget
    refine .intro _
      ⟨n, hlocate (by simp), rfl, Wild.isMatch_iff.mpr hmatch, by rw [hget]; rfl, ?_⟩
    rw [hget]
    rcases hi with rfl | ⟨hlast, -⟩
    · exact .inr rfl
    · exact .inl hlast
  | deep hnames =>
    obtain rfl : i = .directory := hi.resolve_right fun ⟨_, hends⟩ => by cases hends
    by_cases hnil : first = []
    · subst hnil
      rw [List.append_nil] at hfind
      exact .intro m ⟨[], (Disk.find_eq_ok_iff.mp hfind).1, rfl, .inl rfl⟩
    · rw [foldl_step hnames] at hget
      exact .intro _ ⟨first, hlocate hnil, rfl, .inr hget⟩

/-- Whatever is covered and can be found is where the pattern leads. -/
theorem Covers.selects (h : Covers g names)
    (hfind : d.find [] (ofLocation (base ++ p ++ names)) = .ok (m, i)) :
    Selects d base g p (p ++ names) := by
  induction h generalizing p with
  | last hs h => exact .cons (steps_of_fills h hfind (.inr ⟨rfl, hs⟩)) .nil
  | @cons s rest first names h hrest ih =>
    rw [← List.append_assoc] at hfind ⊢
    have hdir := Disk.find_above hfind hrest.ne_nil
    refine .cons (steps_of_fills h hdir (.inl rfl)) (ih ?_)
    rwa [← List.append_assoc]

/-- The paths that a step asks for: the one at the name that it spells out, and those of the
directories that it reads. -/
def Needs (d : Disk) (base : Location) : GlobStep → List String → List String → Prop
  | .here, _, _ => False
  | .name n, p, q => q = p ++ [n]
  | .wild _, p, q => q = p
  | .deep, p, q => q = p ∨ Steps d base false .deep p q

/-- The paths that are asked for when a pattern is followed: those that its steps ask for, and all
that it leads to. -/
inductive Asks (d : Disk) (base : Location) : Glob → List String → List String → Prop
  | all {p : List String} : Asks d base [] p p
  | need {s : GlobStep} {rest : Glob} {p q : List String} (h : Needs d base s p q) :
      Asks d base (s :: rest) p q
  | step {s : GlobStep} {rest : Glob} {p p' q : List String}
      (hstep : Steps d base rest.isEmpty s p p') (h : Asks d base rest p' q) :
      Asks d base (s :: rest) p q

/-- A path below a base directory is too long to be asked for. -/
def TooLong (d : Disk) (base : Location) (p : List String) : Prop :=
  d.locate [] (ofLocation (base ++ p)) = .error .tooLong

end Glob

end Hyperstory
