import Hyperstory.Markdown
import Hyperstory.Proofs.Leftovers
import Hyperstory.Proofs.Rescanning

/-!
Where a problem of a directive is reported. What is left of a leaf after a directive begins at a
place of its own, and the places add up: a problem is found where its directive stands in the leaf
of the document.
-/
namespace Hyperstory

open Expansion

namespace Position

/-- The position behind a character: a line break leads to the first column of the next line, every
other character one column to the right. -/
def step (p : Position) (c : Char) : Position :=
  if c = '\n' then ⟨p.line + 1, 1⟩ else ⟨p.line, p.column + 1⟩

def advance (p : Position) (cs : List Char) : Position := cs.foldl step p

end Position

namespace Offset

variable {x : Offset} {cs : List Char}

/-- Past a part of a text. -/
def passing (x : Offset) : Piece → Offset
  | .raw cs => x.past cs
  | .directive cs => x.beyond cs
  | .unclosed cs => x.past cs

theorem past_append (a b : List Char) : x.past (a ++ b) = (x.past a).past b := List.foldl_append

theorem past_cons (c : Char) : x.past (c :: cs) = (x.step c).past cs := rfl

/-- Text without line breaks counts as columns only. -/
theorem past_eq_beyond (h : '\n' ∉ cs) : x.past cs = x.beyond cs := by
  induction cs generalizing x with
  | nil => rfl
  | cons c cs ih =>
    rw [List.mem_cons, not_or] at h
    have hstep : x.step c = ⟨x.lines, x.columns + 1⟩ := if_neg (Ne.symm h.1)
    rw [past_cons, ih h.2, hstep, beyond, beyond, List.length_cons, Nat.add_right_comm, Nat.add_assoc]

theorem passing_eq_past {y : Piece} (h : y.isDirective = true → '\n' ∉ y.characters) :
    x.passing y = x.past y.characters := by
  cases y with
  | raw cs => rfl
  | directive cs => exact (past_eq_beyond (h rfl)).symm
  | unclosed cs => rfl

/-- Parts are passed as the text that they are, unless a directive has a line break. -/
theorem foldl_passing {pieces : List Piece}
    (h : ∀ y ∈ pieces, y.isDirective = true → '\n' ∉ y.characters) :
    pieces.foldl passing x = x.past (pieces.flatMap Piece.characters) := by
  induction pieces generalizing x with
  | nil => rfl
  | cons y rest ih =>
    obtain ⟨hy, hrest⟩ := List.forall_mem_cons.mp h
    rw [List.foldl_cons, passing_eq_past hy, ih hrest, List.flatMap_cons, past_append]

/-- Plain text at the end of what is read, if there is any. -/
theorem foldl_passing_last (held : List Char) : (Piece.last 0 held).foldl passing x = x.past held := by
  unfold Piece.last
  rw [if_pos rfl]
  split_ifs with hheld
  · rw [List.isEmpty_iff.mp hheld]
    rfl
  · rfl

theorem place_or (n : Node) : (x.place n).or n.position = x.place n := by
  unfold place
  cases n.position <;> rfl

theorem place_zero (n : Node) : ({} : Offset).place n = n.position := by
  unfold place Position.shift
  cases n.position with
  | none => rfl
  | some p => simp

/-- The offset of a place in a node that stands at an offset itself. -/
theorem place_of_position {n n' : Node} {y : Offset} (h : n'.position = x.place n) :
    y.place n' = (x.plus y).place n := by
  unfold place at h ⊢
  rw [h]
  cases n.position with
  | none => rfl
  | some p => exact congrArg some (shift_shift p)

theorem step_shift (p : Position) (c : Char) :
    (p.shift x.lines x.columns).step c = p.shift (x.step c).lines (x.step c).columns := by
  unfold step Position.step
  by_cases hc : c = '\n'
  · rw [if_pos hc, if_pos hc]
    unfold Position.shift
    rw [if_neg (Nat.succ_ne_zero x.lines)]
    split_ifs with hx
    · simp [hx]
    · simp [Int.add_assoc]
  · rw [if_neg hc, if_neg hc]
    unfold Position.shift
    split_ifs <;> simp [Int.add_assoc]

theorem advance_shift (p : Position) :
    (p.shift x.lines x.columns).advance cs = p.shift (x.past cs).lines (x.past cs).columns := by
  induction cs generalizing x with
  | nil => rfl
  | cons c cs ih =>
    rw [past_cons, ← ih, ← step_shift]
    rfl

/-- A place in a leaf is the position behind the text before it. -/
theorem place_past (n : Node) : (past {} cs).place n = n.position.map (·.advance cs) := by
  unfold place
  refine congrArg (n.position.map ·) (funext fun p => ?_)
  rw [← advance_shift]
  simp [Position.shift]

end Offset

namespace Piece

/-- An opening brace begins a part that is not plain text. -/
theorem exists_readFrom_one (cs : List Char) :
    ∃ x rest, readFrom 1 ['{'] cs = x :: rest ∧ ∀ raw, x ≠ .raw raw := by
  cases hspan : Directive.span 1 cs with
  | none =>
    exact ⟨_, _, readFrom_of_span_none rfl Nat.one_pos hspan, fun raw h => by cases h⟩
  | some n =>
    exact ⟨_, _, readFrom_of_span_some rfl Nat.one_pos hspan, fun raw h => by cases h⟩

end Piece

namespace Expansion

open Piece Forest Moment

/-- A directive stands between what is kept and what is left. -/
theorem take_start_append_text {cs : List Char} {o : Opening} {d : Directive}
    (hfind : Opening.find? ⟨0, 0, 0⟩ cs = some o) (hscan : Directive.scan cs o.index = .ok d) :
    cs.take d.start ++ d.text.toList = cs.take d.stop := by
  obtain ⟨hread, -, -⟩ := read_of_scan hfind hscan
  have hall := flatMap_read cs
  rw [hread, List.flatMap_append, flatMap_last, List.flatMap_cons, flatMap_read,
    ← List.append_assoc] at hall
  exact List.append_cancel_right (hall.trans (List.take_append_drop d.stop cs).symm)

/-- What is left of a leaf is read as the end of the leaf, and stands behind what was read before. -/
theorem Remains.exists_pieces {n n' : Node} {k : Nat} (h : Remains n k n') :
    n'.characters = n.characters.drop k ∧ ∃ before,
      Piece.read n.characters = before ++ Piece.read n'.characters ∧
      before.flatMap Piece.characters = n.characters.take k ∧
      n'.position = (before.foldl Offset.passing {}).place n := by
  induction h with
  | whole => exact ⟨rfl, [], rfl, rfl, (Offset.place_zero n).symm⟩
  | @rest k n' o d _ hfind hscan ih =>
    obtain ⟨hcharacters, before, hread, htext, hposition⟩ := ih
    obtain ⟨hread', hoffset, -⟩ := read_of_scan hfind hscan
    have hplace : (remainder n' d o).position =
        (Offset.beyond ⟨o.lines, o.columns⟩ d.text.toList).place n' := by
      rw [remainder_eq]
      exact Offset.place_or n'
    refine ⟨?_, before ++ (last 0 (n'.characters.take d.start) ++ [directive d.text.toList]), ?_, ?_,
      ?_⟩
    · rw [characters_remainder, hcharacters, List.drop_drop]
    · rw [hread, hread', characters_remainder]
      simp only [List.append_assoc, List.singleton_append]
    · rw [List.flatMap_append, htext, List.flatMap_append, flatMap_last, List.flatMap_singleton,
        Piece.characters, take_start_append_text hfind hscan, hcharacters, List.take_add]
    · rw [hplace, Offset.place_of_position hposition, Offset.plus_beyond, hoffset,
        Offset.plus_past, Offset.plus_zero, List.foldl_append, List.foldl_append,
        Offset.foldl_passing_last]
      rfl

namespace Moment.Finds

variable {path : String} {m : Moment} {i : NodeId} {o : Opening} {tally : Tally} {e : Failure}

theorem turn?_eq (path : String) (h : m.Finds i o) :
    m.turn? path = some (visit path m.tally m.tree
      (Cursor.after m.tree m.cursor.root ⟨i, m.cursor.entering⟩) ⟨i, m.cursor.entering⟩) := by
  rw [turn?, Cursor.next?, h.current]
  rfl

theorem turn?_of_scan_error (path : String) (h : m.Finds i o) {problem : Directive.Problem}
    (hscan : Directive.scan (m.tree.label i).characters o.index = .error problem) :
    m.turn? path =
      some (m.tally, .error (problemAt path (m.tree.label i) o.lines o.columns problem.cause)) := by
  rw [h.turn?_eq, visit_malformed h.scanned h.finds hscan]

/-- A turn at a directive fails only for that directive. -/
theorem error_eq (h : m.Finds i o) (herror : m.turn? path = some (tally, .error e)) :
    ∃ cause, e = problemAt path (m.tree.label i) o.lines o.columns cause := by
  cases hscan : Directive.scan (m.tree.label i).characters o.index with
  | error problem =>
    rw [h.turn?_of_scan_error path hscan] at herror
    exact ⟨_, (Except.error.inj (Prod.mk.inj (Option.some.inj herror)).2).symm⟩
  | ok d =>
    rw [h.turn?_eq, visit_directive h.scanned h.finds hscan] at herror
    split_ifs at herror with hbegins
    · cases hproblem : sectionProblem? m.tree m.tally i d with
      | some cause =>
        rw [hproblem] at herror
        exact ⟨cause, (Except.error.inj (Prod.mk.inj (Option.some.inj herror)).2).symm⟩
      | none =>
        rw [hproblem] at herror
        cases (Prod.mk.inj (Option.some.inj herror)).2
    · cases (Prod.mk.inj (Option.some.inj herror)).2

end Moment.Finds

/-- What is reported of the place of a problem. -/
theorem problemAt_eq (path : String) (n : Node) (lines columns : Nat) (cause : Cause) :
    problemAt path n lines columns cause =
      .problem ⟨cause, some path, ((⟨lines, columns⟩ : Offset).place n).map (·.line),
        ((⟨lines, columns⟩ : Offset).place n).map (·.column)⟩ := by
  unfold problemAt Offset.place
  cases n.position <;> rfl

/-- The directive at which the walk stands in what is left of a leaf, as a part of the whole leaf. -/
theorem Remains.exists_directive {n n' : Node} {k : Nat} {o : Opening} (h : Remains n k n')
    (hfind : Opening.find? ⟨0, 0, 0⟩ n'.characters = some o) :
    ∃ before x after, Piece.read n.characters = before ++ x :: after ∧ (∀ raw, x ≠ .raw raw) ∧
      before.flatMap Piece.characters = n.characters.take (k + o.index) ∧
      (⟨o.lines, o.columns⟩ : Offset).place n' = (before.foldl Offset.passing {}).place n := by
  obtain ⟨hcharacters, before, hread, htext, hposition⟩ := h.exists_pieces
  obtain ⟨kept, rest, hsplit, hindex, hoffset, hread'⟩ := exists_of_find? hfind
  obtain ⟨x, after, hx, hraw⟩ := exists_readFrom_one rest
  rw [Nat.zero_add] at hindex
  have hkept : n'.characters.take o.index = kept := by rw [hsplit, hindex, List.take_left]
  refine ⟨before ++ last 0 kept, x, after, ?_, hraw, ?_, ?_⟩
  · rw [hread, Piece.read, hread', hx, List.nil_append, List.append_assoc]
  · rw [List.flatMap_append, htext, flatMap_last, ← hkept, hcharacters, List.take_add]
  · rw [Offset.place_of_position hposition, hoffset, List.foldl_append, Offset.foldl_passing_last]
    exact congrArg (Offset.place · n) Offset.plus_past

/-- A problem of a directive is reported where the directive begins in the leaf of the document: at
the position that all characters before it lead to, the escaped ones and the directives that were
replaced before included. Line breaks in those directives do not count, so there must be none. -/
theorem problem_reported_at_directive {c : Compiler} {path : String} {tokens : List Token}
    {t : Forest} {m : Moment} {i : NodeId} {o : Opening} {tally : Tally} {e : Failure}
    (hjoins : Compiler.Joins tokens t) (hcomes : Comes path ⟨c.tally, t, .start 0⟩ m)
    (hfinds : m.Finds i o) (herror : m.turn? path = some (tally, .error e)) :
    (c.compileTokens path tokens).outcome = .error e ∧ (∃ j k, StandsFor t m.tree i j k) ∧
      ∀ j k, StandsFor t m.tree i j k →
        let text := (t.label j).characters
        ∃ before x after, Piece.read text = before ++ x :: after ∧ (∀ raw, x ≠ .raw raw) ∧
          before.flatMap Piece.characters = text.take (k + o.index) ∧
          ((∀ y ∈ before, y.isDirective = true → '\n' ∉ y.characters) →
            let place := (t.label j).position.map (·.advance (text.take (k + o.index)))
            ∃ problem, e = .problem problem ∧ problem.path = some path ∧
              problem.line = place.map (·.line) ∧ problem.column = place.map (·.column)) := by
  obtain ⟨kids₀, hd₀⟩ := hjoins.document
  obtain ⟨kids, p, l₀, l, r, j₀, k₀, hleft⟩ := document_traced path c.tally hd₀ m hcomes i o hfinds
  refine ⟨compileTokens_of_comes hjoins hcomes herror, ⟨j₀, k₀, hleft.standsFor hd₀⟩,
    fun j k hstands => ?_⟩
  obtain ⟨rfl, rfl⟩ := (hleft.standsFor hd₀).unique hd₀ hstands
  obtain ⟨before, x, after, hread, hraw, htext, hplace⟩ :=
    hleft.remains.exists_directive hfinds.finds
  refine ⟨before, x, after, hread, hraw, htext, fun hbreaks => ?_⟩
  obtain ⟨cause, rfl⟩ := hfinds.error_eq herror
  rw [Offset.foldl_passing hbreaks, htext, Offset.place_past] at hplace
  rw [problemAt_eq, hplace]
  exact ⟨_, rfl, rfl, rfl, rfl⟩

/-- A listing of two lines. Both have a directive, and a third one is not closed. -/
def unclosedListing : String :=
  "\x7b\x7bS\x7d\x7d\n\n```\n\\\x7b\x7b$x\x7d\n \x7b@A\x7d \x7b$y\n```\n"

theorem problem_reported_at_directive_unclosedListing :
    ∃ tokens t m tally problem, Markdown.parse unclosedListing = .ok tokens ∧
      Compiler.Joins tokens t ∧ Comes "s.md" ⟨({} : Compiler).tally, t, .start 0⟩ m ∧
      m.Finds 8 ⟨1, 0, 1⟩ ∧ m.turn? "s.md" = some (tally, .error (.problem problem)) ∧
      StandsFor t m.tree 8 3 12 ∧
      (({} : Compiler).compileTokens "s.md" tokens).outcome = .error (.problem problem) ∧
      ∃ before x after, Piece.read (t.label 3).characters = before ++ x :: after ∧
        before.flatMap Piece.characters = "\\\x7b\x7b$x\x7d\n \x7b@A\x7d ".toList ∧
        (∀ y ∈ before, y.isDirective = true → '\n' ∉ y.characters) ∧
        problem.line = some 5 ∧ problem.column = some 7 := by
  have heval : ((Markdown.parse unclosedListing).toOption.bind fun tokens =>
      (Compiler.joined? tokens).bind fun t =>
        (advance "s.md" 8 ⟨({} : Compiler).tally, t, .start 0⟩).map fun m =>
          decide (m.Finds 8 ⟨1, 0, 1⟩) && decide ((m.tree.label 8).kind = (t.label 3).kind) &&
          decide ((m.tree.label 8).characters = " \x7b$y\n".toList) &&
          decide ((t.label 3).characters =
            "\\\x7b\x7b$x\x7d\n \x7b@A\x7d \x7b$y\n".toList) &&
          decide ((t.label 3).position = some ⟨4, 1⟩) &&
          decide ((m.tree.links 8).parent = some 0 ∧ (t.links 3).parent = some 0) &&
          decide ((m.tree.links 8).next = (t.links 3).next)) = some true := by
    decide +kernel
  obtain ⟨parsed, hparse⟩ : ∃ parsed, Markdown.parse unclosedListing = parsed := ⟨_, rfl⟩
  rw [hparse] at heval ⊢
  cases parsed with
  | error f => cases heval
  | ok tokens =>
    obtain ⟨parsed, hok, heval⟩ := Option.bind_eq_some_iff.mp heval
    obtain rfl : tokens = parsed := Option.some.inj hok
    obtain ⟨t, hjoined, heval⟩ := Option.bind_eq_some_iff.mp heval
    obtain ⟨m, hm, hchecks⟩ := Option.map_eq_some_iff.mp heval
    simp only [Bool.and_eq_true, decide_eq_true_eq] at hchecks
    obtain ⟨⟨⟨⟨⟨⟨hfinds, hkind⟩, hleft⟩, hwhole⟩, hposition⟩, hparent⟩, hnext⟩ := hchecks
    have hjoins := Compiler.joins_iff.mpr hjoined
    have hcomes := comes_of_advance hm
    have hscan : Directive.scan (m.tree.label 8).characters 1 =
        .error (.unterminated "\x7b$y\n") := by
      rw [hleft]
      decide +kernel
    have hstands : StandsFor t m.tree 8 3 12 := by
      refine ⟨hkind, ?_, ?_, fun h => absurd h (by decide), ⟨0, hparent⟩, hnext⟩
      · rw [hleft, hwhole]
        decide
      · rw [hwhole]
        decide
    have hturn := hfinds.turn?_of_scan_error "s.md" hscan
    obtain ⟨houtcome, -, hall⟩ := problem_reported_at_directive hjoins hcomes hfinds hturn
    obtain ⟨before, x, after, hread, -, htext, hreported⟩ := hall 3 12 hstands
    have hquiet : ((Piece.read (t.label 3).characters).all fun y =>
        !y.isDirective || !y.characters.contains '\n') = true := by
      rw [hwhole]
      decide +kernel
    have hbreaks : ∀ y ∈ before, y.isDirective = true → '\n' ∉ y.characters := by
      intro y hy hdirective
      have hcheck := List.all_eq_true.mp hquiet y (hread ▸ List.mem_append_left _ hy)
      simpa [hdirective] using hcheck
    obtain ⟨problem, hproblem, -, hline, hcolumn⟩ := hreported hbreaks
    rw [hproblem] at hturn houtcome
    rw [hwhole] at htext
    rw [hposition, hwhole] at hline hcolumn
    refine ⟨tokens, t, m, m.tally, problem, rfl, hjoins, hcomes, hfinds, hturn, hstands, houtcome,
      before, x, after, hread, htext.trans (by decide), hbreaks, ?_, ?_⟩
    · exact hline.trans (by decide)
    · exact hcolumn.trans (by decide)

end Expansion

end Hyperstory
