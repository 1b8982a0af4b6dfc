import Hyperstory.Proofs.Leftovers
import Hyperstory.Proofs.Sections
import Mathlib.Data.List.TakeWhile

/-!
Where a section may begin, told by the document before anything in it is replaced. What the walk
asks of the links around a directive has the same answer in the document, because only what is
behind the walk has changed.
-/
namespace Hyperstory

namespace Text

/-- Nothing is left of a text just when it is blank. -/
theorem strip_eq_nil_iff {cs : List Char} : strip cs = [] ↔ ∀ c ∈ cs, isBlank c = true := by
  unfold strip stripBy
  rw [List.reverse_eq_nil_iff, List.dropWhile_eq_nil_iff]
  simp only [List.mem_reverse]
  refine ⟨fun h c hc => ?_, fun h c hc => h c ((List.dropWhile_sublist _).subset hc)⟩
  rw [← List.takeWhile_append_dropWhile (p := isBlank) (l := cs), List.mem_append] at hc
  exact hc.elim List.mem_takeWhile_imp (h c)

end Text

namespace Expansion

open Hyperstory.Tree Forest Moment

variable {path : String} {tally : Tally} {t₀ t : Forest} {kids₀ kids : NodeId → List NodeId}
  {p i j k : Nat} {l₀ l r : List NodeId}

theorem what_locate {α : Type} (found : Located α) (path : Option String)
    (position : Option Position) : (found.locate path position).what = found.what := by
  unfold Located.locate
  dsimp only
  split <;> split_ifs <;> rfl

theorem prev_eq_none_iff (h : t.Linked kids) (hi : i ∈ kids p) :
    (t.links i).prev = none ↔ (kids p).head? = some i := by
  obtain ⟨a, b, hab⟩ := List.append_of_mem hi
  rw [h.prev_eq hab, List.getLast?_eq_none_iff, hab]
  constructor
  · rintro rfl
    rfl
  · intro hhead
    by_contra ha
    have hmem : i ∈ a := by
      rw [List.head?_append_of_ne_nil _ ha] at hhead
      exact List.mem_of_mem_head? hhead
    have hnd := h.nodup p
    rw [hab, List.nodup_append] at hnd
    exact hnd.2.2 i hmem i (by simp) rfl

theorem sectionProblem?_eq_none_iff (h : t.Linked kids) (hk : kids p = l ++ i :: r)
    {d : Directive} :
    sectionProblem? t tally i d = none ↔
      (t.label i).kind = "text" ∧ (d.start = 0 ∧ l = []) ∧
        ((∀ c ∈ (t.label i).characters.drop d.stop, Text.isBlank c = true) ∧ r = []) ∧
        atTop t p = true ∧ (tally.count = 0 → (t.links p).prev = none) ∧ d.identifier ≠ "" ∧
        d.identifier ∉ tally.taken ∧ d.identifier ∉ tally.declared := by
  have hite : ∀ {b : Bool} {x : Cause} {y : Option Cause},
      (if b = true then some x else y) = none ↔ b = false ∧ y = none := by
    intro b x y
    cases b <;> simp
  rw [sectionProblem?_eq h hk, ← Text.strip_eq_nil_iff]
  simp only [hite, and_true]
  simp

theorem sectionProblem?_kind (h : t.Linked kids) (hk : kids p = l ++ i :: r) {d : Directive}
    {cause : Cause} (hproblem : sectionProblem? t tally i d = some cause) :
    cause.kind ∈ [DiagnosticKind.invalidSectionPlacement, .unknown, .duplicateSection] := by
  rw [sectionProblem?_eq h hk] at hproblem
  split_ifs at hproblem <;> cases hproblem <;> simp [Cause.kind]

/-- A section called `name` may begin at a directive that stands in leaf `j` of the document from
`start` to `stop`: the leaf is a text with nothing else but blanks, alone in a paragraph of the top
level. The name is new, and the paragraph comes first unless the file has a section already. -/
structure MayBegin (isTop : NodeId → Prop) (t : Forest) (taken declared : List String) (j : NodeId)
    (start stop : Nat) (name : String) : Prop where
  start : start = 0
  text : (t.label j).kind = "text"
  blank : ∀ c ∈ (t.label j).characters.drop stop, Text.isBlank c = true
  named : name ≠ ""
  untaken : name ∉ taken
  undeclared : name ∉ declared
  paragraph : ∃ p top, t.children p = [j] ∧ (t.label p).kind = "paragraph" ∧
    p ∈ t.children top ∧ isTop top ∧ (declared ≠ [] ∨ (t.children top).head? = some p)

theorem MayBegin.congr {isTop isTop' : NodeId → Prop} {taken declared : List String}
    {start stop : Nat} {name : String}
    (h : ∀ p top, p ∈ t.children top → (isTop top ↔ isTop' top)) :
    MayBegin isTop t taken declared j start stop name ↔
      MayBegin isTop' t taken declared j start stop name := by
  constructor
  · rintro ⟨hstart, htext, hblank, hnamed, htaken, hdeclared, p, top, hp, hkind, hmem, htop, hfirst⟩
    exact ⟨hstart, htext, hblank, hnamed, htaken, hdeclared, p, top, hp, hkind, hmem,
      (h p top hmem).mp htop, hfirst⟩
  · rintro ⟨hstart, htext, hblank, hnamed, htaken, hdeclared, p, top, hp, hkind, hmem, htop, hfirst⟩
    exact ⟨hstart, htext, hblank, hnamed, htaken, hdeclared, p, top, hp, hkind, hmem,
      (h p top hmem).mpr htop, hfirst⟩

/-- A paragraph of the document, by the lists of children. -/
theorem atTop_iff (h : t.Linked kids) :
    atTop t p = true ↔
      (t.label p).kind = "paragraph" ∧ ∃ top, p ∈ kids top ∧ (t.label top).kind = "document" := by
  unfold atTop
  rw [Bool.and_eq_true, beq_iff_eq]
  refine and_congr_right fun _ => ?_
  cases htop : (t.links p).parent with
  | none => simp [← h.parent, htop]
  | some top => simp [← h.parent, htop]

/-- What the walk asks of the links around a leaf is what the document asks of the leaf that this
one stands for. -/
theorem Leftover.sectionProblem?_eq_none_iff (hd₀ : t₀.Document kids₀)
    (h : Leftover t₀ kids₀ t kids p l₀ l r j k i) (hcount : tally.count = tally.declared.length)
    {d : Directive} :
    sectionProblem? t tally i d = none ↔
      MayBegin (fun top => (t₀.label top).kind = "document") t₀ tally.taken tally.declared j
        (k + d.start) (k + d.stop) d.identifier := by
  have hparent : ∀ {q : Nat}, p ∈ kids₀ q → ((t.links p).prev = none ↔
      (kids₀ q).head? = some p) := by
    intro q hq
    rw [← prev_eq_none_iff hd₀.linked hq, ← Option.isNone_iff_eq_none, ← Option.isNone_iff_eq_none,
      ← Option.not_isSome, ← Option.not_isSome, h.context.prev]
  rw [Expansion.sectionProblem?_eq_none_iff h.document.linked h.here, h.kind, h.characters,
    List.drop_drop, h.first, h.context.top, atTop_iff hd₀.linked]
  constructor
  · rintro ⟨htext, ⟨hstart, rfl, rfl⟩, ⟨hblank, rfl⟩, ⟨hkind, top, hp, htop⟩, hfirst, hnamed, hnew⟩
    refine ⟨by omega, htext, hblank, hnamed, hnew.1, hnew.2, p, top, ?_, hkind, ?_, htop, ?_⟩
    · rw [hd₀.linked.children_eq, h.here₀]
      rfl
    · rwa [hd₀.linked.children_eq]
    · rw [hd₀.linked.children_eq, ← hparent hp]
      refine or_iff_not_imp_left.mpr fun hnil => hfirst ?_
      rw [hcount, not_not.mp hnil, List.length_nil]
  · rintro ⟨hstart, htext, hblank, hnamed, htaken, hdeclared, p', top, hp', hkind, hmem, htop,
      hfirst⟩
    rw [hd₀.linked.children_eq] at hp' hmem hfirst
    obtain rfl : p' = p := Option.some.inj <|
      ((hd₀.linked.parent p' j).mpr (by simp [hp'])).symm.trans (hd₀.linked.parent_eq h.here₀)
    obtain ⟨rfl, rfl⟩ : l₀ = [] ∧ r = [] := by
      have hlen := congrArg List.length (h.here₀.symm.trans hp')
      simp only [List.length_append, List.length_cons, List.length_nil] at hlen
      exact ⟨List.length_eq_zero_iff.mp (by omega), List.length_eq_zero_iff.mp (by omega)⟩
    refine ⟨htext, ⟨by omega, rfl, by omega⟩, ⟨hblank, rfl⟩, ⟨hkind, top, hmem, htop⟩,
      fun hzero => ?_, hnamed, htaken, hdeclared⟩
    have hnil : tally.declared = [] := List.length_eq_zero_iff.mp (hcount.symm.trans hzero)
    exact (hparent hmem).mpr (hfirst.resolve_left (not_not.mpr hnil))

/-- A section begins where the walk meets its directive just when the document allows it there: the
document as it was, with every other directive still in it. The directive may stand in what the
walk has left of a leaf. The top level is a node of kind `document`, and no other than the root
unless a container in the file is itself called a document. Where the section cannot begin, the file
is not compiled. -/
theorem section_begins_iff_document_allows {c : Compiler} {path : String} {tokens : List Token}
    {t : Forest} {m : Moment} {i : NodeId} {o : Opening} {d : Directive}
    (hjoins : Compiler.Joins tokens t) (hcomes : Comes path ⟨c.tally, t, .start 0⟩ m)
    (hmeets : m.Meets i o d) :
    (∃ j k, StandsFor t m.tree i j k) ∧
      ∀ j k, StandsFor t m.tree i j k →
        (m.Begins path d ↔ MayBegin (fun top => (t.label top).kind = "document") t c.sections
          m.tally.declared j (k + d.start) (k + d.stop) d.identifier) ∧
        (NoInnerDocument tokens → (m.Begins path d ↔ MayBegin (fun top => top = 0) t c.sections
          m.tally.declared j (k + d.start) (k + d.stop) d.identifier)) ∧
        (¬ m.Begins path d → ∃ problem,
          (c.compileTokens path tokens).outcome = .error (.problem problem) ∧
            problem.what.kind ∈
              [DiagnosticKind.invalidSectionPlacement, .unknown, .duplicateSection]) := by
  obtain ⟨kids₀, hd₀⟩ := hjoins.document
  obtain ⟨kids, p, l₀, l, r, j₀, k₀, hleft⟩ := document_told path c.tally hd₀ m hcomes i o d hmeets
  obtain ⟨htaken, hcount⟩ := hcomes.counts rfl
  have htaken : m.tally.taken = c.sections := htaken
  refine ⟨⟨j₀, k₀, hleft.standsFor hd₀⟩, fun j k hstands => ?_⟩
  obtain ⟨rfl, rfl⟩ := (hleft.standsFor hd₀).unique hd₀ hstands
  have hiff : m.Begins path d ↔ MayBegin (fun top => (t.label top).kind = "document") t c.sections
      m.tally.declared j₀ (k₀ + d.start) (k₀ + d.stop) d.identifier := by
    rw [hmeets.begins_iff, hleft.sectionProblem?_eq_none_iff hd₀ hcount, htaken]
  refine ⟨hiff, fun hdoc => hiff.trans (MayBegin.congr fun q top hq => ?_), fun hnot => ?_⟩
  · rw [hd₀.linked.children_eq] at hq
    refine ⟨fun hkind => ?_, fun htop => htop ▸ hd₀.rootKind⟩
    by_contra hne
    exact hdoc.kind_ne_of_pos hjoins (Nat.pos_of_ne_zero hne) (hd₀.container_of_mem hq) hkind
  · rw [hmeets.begins_iff] at hnot
    obtain ⟨cause, hcause⟩ := Option.ne_none_iff_exists'.mp hnot
    have herror := hmeets.turn?_eq path
    rw [hcause] at herror
    refine ⟨_, compileTokens_of_comes hjoins hcomes herror, ?_⟩
    rw [what_locate]
    exact sectionProblem?_kind hleft.document.linked hleft.here hcause

/-- A section is declared, and another one in a paragraph that begins with something else. -/
def cutSource : String := "\x7b\x7bA\x7d\x7d\n\n\x7b$x\x7d\x7b\x7bB\x7d\x7d"

theorem section_begins_iff_document_allows_cutSource :
    ∃ tokens t m m' d d', Markdown.parse cutSource = .ok tokens ∧ NoInnerDocument tokens ∧
      Compiler.Joins tokens t ∧
      (Comes "s.md" ⟨({} : Compiler).tally, t, .start 0⟩ m ∧ m.Meets 2 ⟨0, 0, 0⟩ d ∧
        m.Begins "s.md" d ∧ ∃ j k, StandsFor t m.tree 2 j k ∧
          MayBegin (fun top => top = 0) t [] m.tally.declared j (k + d.start) (k + d.stop)
            d.identifier) ∧
      (Comes "s.md" ⟨({} : Compiler).tally, t, .start 0⟩ m' ∧ m'.Meets 7 ⟨0, 0, 0⟩ d' ∧
        ∃ j k, StandsFor t m'.tree 7 j k ∧
          ¬ MayBegin (fun top => top = 0) t [] m'.tally.declared j (k + d'.start) (k + d'.stop)
            d'.identifier ∧
          ∃ problem, (({} : Compiler).compileTokens "s.md" tokens).outcome =
              .error (.problem problem) ∧
            problem.what.kind ∈
              [DiagnosticKind.invalidSectionPlacement, .unknown, .duplicateSection]) := by
  let d : Directive := ⟨.sectionBegin, "A", 0, 5, "\x7b\x7bA\x7d\x7d"⟩
  let d' : Directive := ⟨.sectionBegin, "B", 0, 5, "\x7b\x7bB\x7d\x7d"⟩
  have heval : ((Markdown.parse cutSource).toOption.bind fun tokens =>
      (Compiler.joined? tokens).bind fun t =>
        (advance "s.md" 2 ⟨({} : Compiler).tally, t, .start 0⟩).bind fun m =>
          (advance "s.md" 7 ⟨({} : Compiler).tally, t, .start 0⟩).map fun m' =>
            decide (m.Meets 2 ⟨0, 0, 0⟩ d) && (sectionProblem? m.tree m.tally 2 d).isNone &&
              decide (m'.Meets 7 ⟨0, 0, 0⟩ d') && (sectionProblem? m'.tree m'.tally 7 d').isSome) =
      some true := by decide +kernel
  obtain ⟨parsed, hparse⟩ : ∃ parsed, Markdown.parse cutSource = parsed := ⟨_, rfl⟩
  rw [hparse] at heval ⊢
  cases parsed with
  | error f => cases heval
  | ok tokens =>
    obtain ⟨parsed, hok, heval⟩ := Option.bind_eq_some_iff.mp heval
    obtain rfl : tokens = parsed := Option.some.inj hok
    obtain ⟨t, hjoined, heval⟩ := Option.bind_eq_some_iff.mp heval
    obtain ⟨m, hm, heval⟩ := Option.bind_eq_some_iff.mp heval
    obtain ⟨m', hm', hchecks⟩ := Option.map_eq_some_iff.mp heval
    have hjoins := Compiler.joins_iff.mpr hjoined
    have hdoc := NoInnerDocument.of_parse hparse
    simp only [Bool.and_eq_true, decide_eq_true_eq, Option.isNone_iff_eq_none] at hchecks
    obtain ⟨⟨⟨hmeets, hnone⟩, hmeets'⟩, hsome⟩ := hchecks
    have hcomes := comes_of_advance hm
    have hcomes' := comes_of_advance hm'
    obtain ⟨⟨j, k, hstands⟩, hall⟩ := section_begins_iff_document_allows hjoins hcomes hmeets
    obtain ⟨⟨j', k', hstands'⟩, hall'⟩ :=
      section_begins_iff_document_allows hjoins hcomes' hmeets'
    have hbegins : m.Begins "s.md" d := hmeets.begins_iff.mpr hnone
    have hnot : ¬ m'.Begins "s.md" d' := by
      rw [hmeets'.begins_iff]
      exact Option.isSome_iff_ne_none.mp hsome
    exact ⟨tokens, t, m, m', d, d', rfl, hdoc, hjoins,
      ⟨hcomes, hmeets, hbegins, j, k, hstands, ((hall j k hstands).2.1 hdoc).mp hbegins⟩,
      hcomes', hmeets', j', k', hstands',
      fun hmay => hnot (((hall' j' k' hstands').2.1 hdoc).mpr hmay),
      (hall' j' k' hstands').2.2 hnot⟩

/-- In a container that is called a document a section begins, although its paragraph is not one of
the root. -/
theorem nestedDocument_section_below_root :
    ∃ t m d, Compiler.Joins nestedDocument t ∧
      Comes "s.md" ⟨({} : Compiler).tally, t, .start 0⟩ m ∧ m.Meets 3 ⟨0, 0, 0⟩ d ∧
      StandsFor t m.tree 3 3 0 ∧ m.Begins "s.md" d ∧
      ¬ MayBegin (fun top => top = 0) t [] m.tally.declared 3 d.start d.stop d.identifier := by
  let d : Directive := ⟨.sectionBegin, "A", 0, 5, "\x7b\x7bA\x7d\x7d"⟩
  have heval : ((Compiler.joined? nestedDocument).bind fun t =>
      (advance "s.md" 3 ⟨({} : Compiler).tally, t, .start 0⟩).map fun m =>
        decide (m.Meets 3 ⟨0, 0, 0⟩ d) && (sectionProblem? m.tree m.tally 3 d).isNone &&
          decide ((m.tree.label 3).kind = (t.label 3).kind) &&
          decide ((m.tree.label 3).characters = (t.label 3).characters) &&
          decide ((m.tree.links 3).parent = some 2 ∧ (t.links 3).parent = some 2) &&
          decide ((m.tree.links 3).next = (t.links 3).next) &&
          decide (t.children 0 = [1] ∧ t.children 1 = [2])) = some true := by decide +kernel
  obtain ⟨t, hjoined, heval⟩ := Option.bind_eq_some_iff.mp heval
  obtain ⟨m, hm, hchecks⟩ := Option.map_eq_some_iff.mp heval
  simp only [Bool.and_eq_true, decide_eq_true_eq, Option.isNone_iff_eq_none] at hchecks
  obtain ⟨⟨⟨⟨⟨⟨hmeets, hnone⟩, hkind⟩, hcharacters⟩, hparent⟩, hnext⟩, hroot, hinner⟩ := hchecks
  refine ⟨t, m, d, Compiler.joins_iff.mpr hjoined, comes_of_advance hm, hmeets,
    ⟨hkind, hcharacters, Nat.zero_le _, fun _ => rfl, ⟨2, hparent⟩, hnext⟩,
    hmeets.begins_iff.mpr hnone, fun hmay => ?_⟩
  -- The only block of the root is the inner document.
  obtain ⟨p, top, hp, -, hmem, rfl, -⟩ := hmay.paragraph
  rw [hroot, List.mem_singleton] at hmem
  rw [hmem, hinner] at hp
  cases hp

end Expansion

end Hyperstory
