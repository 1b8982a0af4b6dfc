import Hyperstory.Proofs.Compiling
import Hyperstory.Proofs.Declarations
import Hyperstory.Proofs.Emitted

/-! The top level of a page is a sequence of sections. -/
namespace Hyperstory

open Hyperstory.Tree Expansion

/-- A declaration of a section, and the blocks up to the next one. -/
structure Section where
  declaration : Tree Node
  directive : Directive
  blocks : List (Tree Node)

namespace Section

def name (s : Section) : String := s.directive.identifier

/-- The beginning of the section with number `k`, in the given words. -/
def opening (words : Bool → String → String) (s : Section) (k : Nat) : Tree Node :=
  .node
    { kind := "html_inline", literal := some (words (k = 0) s.name),
      position := s.declaration.value.position }
    []

/-- The blocks before the first declaration, and the sections. -/
def split : List (Tree Node) → List (Tree Node) × List Section
  | [] => ([], [])
  | x :: rest =>
    match declaration? "document" x with
    | some (_, d) => ([], ⟨x, d, (split rest).1⟩ :: (split rest).2)
    | none => (x :: (split rest).1, (split rest).2)

theorem split_section {x : Tree Node} {text : Node} {d : Directive}
    (h : declaration? "document" x = some (text, d)) (rest : List (Tree Node)) :
    split (x :: rest) = ([], ⟨x, d, (split rest).1⟩ :: (split rest).2) := by
  rw [split, h]

theorem split_block {x : Tree Node} (h : declaration? "document" x = none)
    (rest : List (Tree Node)) : split (x :: rest) = (x :: (split rest).1, (split rest).2) := by
  rw [split, h]

/-- Splitting loses nothing and keeps the order. -/
theorem split_flatten (row : List (Tree Node)) :
    row = (split row).1 ++ (split row).2.flatMap fun s => s.declaration :: s.blocks := by
  induction row with
  | nil => rfl
  | cons x rest ih =>
    cases h : declaration? "document" x with
    | some found =>
      rw [split_section h]
      simpa using ih
    | none =>
      rw [split_block h]
      simpa using ih

/-- Every section begins with a declaration, and nothing else is one. -/
theorem split_declared (row : List (Tree Node)) :
    (∀ b ∈ (split row).1, declaration? "document" b = none) ∧
      ∀ s ∈ (split row).2,
        (∃ text, declaration? "document" s.declaration = some (text, s.directive)) ∧
          ∀ b ∈ s.blocks, declaration? "document" b = none := by
  induction row with
  | nil => simp [split]
  | cons x rest ih =>
    obtain ⟨hblocks, hsections⟩ := ih
    cases h : declaration? "document" x with
    | some found =>
      rw [split_section h]
      refine ⟨by simp, fun s hs => ?_⟩
      rcases List.mem_cons.mp hs with rfl | hs
      · exact ⟨⟨found.1, h⟩, hblocks⟩
      · exact hsections s hs
    | none =>
      rw [split_block h]
      refine ⟨fun b hb => ?_, hsections⟩
      rcases List.mem_cons.mp hb with rfl | hb
      · exact h
      · exact hblocks b hb

end Section

/-- Rows take the place of blocks, each that of its block. They are the same whatever words begin
a section, so no section begins in them. -/
def Rewritten (path : String) (blocks out : List (Tree Node)) : Prop :=
  ∃ rows, out = rows.flatten ∧
    List.Forall₂ (fun block row => row ≠ [] ∧ ∃ place tally tally', ∀ words,
      expand ⟨Markup.inlineId, words⟩ path place tally block = (tally', .ok row)) blocks rows

theorem Rewritten.nil (path : String) : Rewritten path [] [] := ⟨[], rfl, .nil⟩

theorem Rewritten.cons {path : String} {block : Tree Node} {blocks row out : List (Tree Node)}
    {place : Place} {tally tally' : Tally} (hne : row ≠ [])
    (h : ∀ words, expand ⟨Markup.inlineId, words⟩ path place tally block = (tally', .ok row))
    (hrest : Rewritten path blocks out) : Rewritten path (block :: blocks) (row ++ out) := by
  obtain ⟨rows, rfl, hrows⟩ := hrest
  exact ⟨row :: rows, rfl, .cons ⟨hne, place, tally, tally', h⟩ hrows⟩

/-- Sections one after another, the first with number `k`: its beginning, then its rows. -/
def written (words : Bool → String → String) : Nat → List (Section × List (Tree Node)) →
    List (Tree Node)
  | _, [] => []
  | k, (s, row) :: rest => s.opening words k :: row ++ written words (k + 1) rest

/-- The recursion over a row of the top level gives what stands in place of the blocks before the
first declaration and then the sections, whatever words begin them. A section cannot be the first
after something else. -/
structure LaidOut (path : String) (place : Place) (tally tally' : Tally)
    (row before : List (Tree Node)) (rewritten : List (List (Tree Node))) : Prop where
  blocks : Rewritten path (Section.split row).1 before
  sections : List.Forall₂ (fun s row => Rewritten path s.blocks row) (Section.split row).2 rewritten
  gives : ∀ words, expandAll ⟨Markup.inlineId, words⟩ path place tally row =
    (tally', .ok (before ++ written words tally.count ((Section.split row).2.zip rewritten)))
  first : tally.count = 0 → place.before = true ∨ (Section.split row).1 ≠ [] →
    (Section.split row).2 = []

namespace LaidOut

variable {path : String} {place : Place} {tally tally' : Tally} {rest before : List (Tree Node)}
  {rewritten : List (List (Tree Node))}

theorem nil (path : String) (place : Place) (tally : Tally) :
    LaidOut path place tally tally [] [] [] := by
  refine ⟨.nil path, .nil, fun words => ?_, fun _ _ => rfl⟩
  rw [expandAll]
  rfl

theorem section_cons {n text : Node} {cs : List (Tree Node)} {d : Directive}
    (hparent : place.parentKind = "document")
    (hdecl : declaration? "document" (.node n cs) = some (text, d))
    (hproblem : declarationProblem? { place with after := !rest.isEmpty } tally d = none)
    (h : LaidOut path { place with before := true } (tally.declare d.identifier) tally' rest before
      rewritten) :
    LaidOut path place tally tally' (.node n cs :: rest) [] (before :: rewritten) := by
  constructor <;> rw [Section.split_section hdecl]
  · exact .nil path
  · exact .cons h.blocks h.sections
  · intro words
    rw [expandAll_cons, expand_section (hparent ▸ hdecl), expandSection, hproblem, andThen_ok,
      h.gives, andThen_ok]
    simp [written, Section.opening, sectionNode, Tally.declare, Section.name]
  · rintro hcount (hplace | hblocks)
    · simp [declarationProblem?, hcount, hplace] at hproblem
    · exact absurd rfl hblocks

theorem block_cons {tally₁ : Tally} {x : Tree Node} {out : List (Tree Node)}
    (hdecl : declaration? "document" x = none) (hne : out ≠ [])
    (hexpand : ∀ words, expand ⟨Markup.inlineId, words⟩ path
      { place with after := !rest.isEmpty } tally x = (tally₁, .ok out))
    (hcount : tally₁.count = tally.count)
    (h : LaidOut path { place with before := true } tally₁ tally' rest before rewritten) :
    LaidOut path place tally tally' (x :: rest) (out ++ before) rewritten := by
  constructor <;> rw [Section.split_block hdecl]
  · exact .cons hne hexpand h.blocks
  · exact h.sections
  · intro words
    rw [expandAll_cons, hexpand, andThen_ok, h.gives, andThen_ok, hcount, List.append_assoc]
  · exact fun hzero _ => h.first (hcount.trans hzero) (Or.inl rfl)

end LaidOut

/-- If sections are declared at the top level only, then the recursion lays it out as sections. -/
theorem expandAll_laidOut {path : String} {place : Place} {tally tally' : Tally}
    {row out : List (Tree Node)} (hparent : place.parentKind = "document")
    (hinner : ∀ x ∈ row, declaration? "document" x = none → declarations "document" x = [])
    (h : expandAll .standard path place tally row = (tally', .ok out)) :
    ∃ before rewritten, LaidOut path place tally tally' row before rewritten := by
  induction row generalizing place tally tally' out with
  | nil =>
    rw [expandAll] at h
    obtain ⟨rfl, -⟩ := Prod.mk.inj h
    exact ⟨[], [], .nil path place tally⟩
  | cons x rest ih =>
    rw [expandAll_cons] at h
    obtain ⟨tally₁, out₁, hfirst, h⟩ := andThen_eq_ok h
    obtain ⟨tally₂, out₂, hothers, h⟩ := andThen_eq_ok h
    obtain ⟨rfl, -⟩ := Prod.mk.inj h
    rw [List.forall_mem_cons] at hinner
    have hparent' : ({ place with before := true } : Place).parentKind = "document" := hparent
    obtain ⟨before, rewritten, hrest⟩ := ih hparent' hinner.2 hothers
    obtain ⟨n, cs⟩ := x
    cases hdecl : declaration? "document" (.node n cs) with
    | some found =>
      obtain ⟨text, d⟩ := found
      rw [expand_section (by rw [hparent]; exact hdecl)] at hfirst
      obtain ⟨hproblem, rfl, -⟩ := expandSection_eq_ok hfirst
      exact ⟨[], before :: rewritten, hrest.section_cons hparent hdecl hproblem⟩
    | none =>
      have hnames := hinner.1 hdecl
      have hexpand : ∀ words, expand ⟨Markup.inlineId, words⟩ path
          { place with after := !rest.isEmpty } tally (.node n cs) = (tally₁, .ok out₁) := by
        intro words
        rw [← hfirst]
        have hid : Wording.standard.inlineId = (⟨Markup.inlineId, words⟩ : Wording).inlineId := rfl
        exact expand_congr_wording { place with after := !rest.isEmpty } tally hid
          (by rw [hparent]; exact hnames)
      have hcount : tally₁.count = tally.count := by
        have hdeclares := expand_declares hfirst
        rw [hparent, hnames] at hdeclares
        simpa using hdeclares.count
      exact ⟨out₁ ++ before, rewritten,
        hrest.block_cons hdecl (expand_ne_nil hfirst) hexpand hcount⟩

/-- No opening token of a stream makes a container of kind `document`. -/
def NoInnerDocument (tokens : List Token) : Prop :=
  ∀ within tok, Stands false tokens within tok → tok.nesting = .opens → tok.nodeKind ≠ "document"

/-- No source has a document inside. -/
theorem NoInnerDocument.of_parse {source : String} {tokens : List Token}
    (h : Markdown.parse source = .ok tokens) : NoInnerDocument tokens := by
  intro within tok hstands hopens
  have hkind := Markdown.parse_emitted h within tok hstands hopens
  have hother : ∀ inline, ∀ kind ∈ Markdown.openings inline,
      String.ofList (kind.toList.take (kind.length - 5)) ≠ "document" := by decide
  rw [Token.nodeKind, if_pos hopens]
  exact hother within tok.kind hkind

/-- The root is the only container of kind `document`. -/
theorem NoInnerDocument.kind_ne_of_pos {tokens : List Token} {t : Forest}
    (h : NoInnerDocument tokens) (hjoins : Compiler.Joins tokens t) {j : Nat} (hpos : 0 < j)
    (hc : (t.label j).container = true) : (t.label j).kind ≠ "document" := by
  obtain ⟨raw, hraw, hmerge⟩ := hjoins
  have hgrown := Forest.ofTokens_grown hraw h
  obtain ⟨kids₀, hd₀⟩ := hgrown.document
  obtain ⟨kids, hd, hthinned⟩ := Forest.mergeText_document hd₀ hmerge
  have hlabel := hthinned.label j
  have hcontainer : (raw.label j).container = true := by rw [← hlabel]; exact hc
  have hkind : (t.label j).kind = (raw.label j).kind := by rw [← hlabel]
  rw [hkind]
  rcases hgrown.exists_token hpos hcontainer with ⟨tok, hq, hopens, htok⟩ | himage
  · rw [htok]
    exact hq hopens
  · rw [himage]
    decide

theorem NoInnerDocument.kind_ne {tokens : List Token} {t : Forest} (h : NoInnerDocument tokens)
    (hjoins : Compiler.Joins tokens t) :
    ∀ n ∈ valuesAll (t.tree 0).row, n.container = true → n.kind ≠ "document" := by
  obtain ⟨kids, hd⟩ := hjoins.document
  obtain ⟨cs, hvalues, hcs⟩ := hd.linked.exists_row (kids 0)
  rw [hd.linked.tree_eq (.cons hvalues.symm hcs .nil), row_node, valuesAll_mapAll]
  intro n hn hc
  obtain ⟨j, hj, rfl⟩ := List.mem_map.mp hn
  have hpos : 0 < j := hd.linked.lt_of_mem_valuesAll hcs
    (fun c hc => (hd.linked.later 0 c (hvalues ▸ hc)).1) hj
  exact h.kind_ne_of_pos hjoins hpos hc

/-- Where sections are declared at the top level only, they are those that splitting finds. -/
theorem declarationsAll_split {row : List (Tree Node)}
    (hinner : ∀ x ∈ row, declaration? "document" x = none → declarations "document" x = []) :
    declarationsAll "document" row = (Section.split row).2.map Section.name := by
  induction row with
  | nil => exact gatherAll_nil
  | cons x rest ih =>
    rw [declarationsAll_cons, ih fun y hy => hinner y (List.mem_cons_of_mem x hy)]
    obtain ⟨n, cs⟩ := x
    cases hdecl : declaration? "document" (.node n cs) with
    | some found =>
      rw [Section.split_section hdecl, declarations, gather_section hdecl]
      rfl
    | none =>
      rw [Section.split_block hdecl, hinner (.node n cs) (by simp) hdecl]
      rfl

/-- A tag that the compiler writes for a section. -/
inductive SectionTag where
  | opens (name : String)
  | closes
  deriving DecidableEq

def SectionTag.text : SectionTag → String
  | opens name => "<div" ++ Markup.attr "id" name ++ " class=\"section\" hidden=\"true\">\n"
  | closes => "</div>"

/-- The tags in the beginning of the section with number `k`. -/
def Section.tags (s : Section) (k : Nat) : List SectionTag :=
  (if k = 0 then [] else [.closes]) ++ [.opens s.name]

theorem Section.opening_literal (s : Section) (k : Nat) :
    (s.opening Markup.sectionBegin k).value.literal =
      some (String.join ((s.tags k).map SectionTag.text)) := by
  unfold Section.opening Section.tags Markup.sectionBegin
  by_cases hk : k = 0
  · simp [hk, SectionTag.text, String.append_assoc]
  · simp only [hk, SectionTag.text, Markup.sectionEnd, value_node, decide_false, if_false,
      Bool.false_eq_true, List.singleton_append, List.map_cons, List.map_nil, String.join_cons,
      String.join_nil, String.append_empty, String.append_assoc]

/-- The tags of all sections, the first with number `k`. -/
def tagsFrom : Nat → List Section → List SectionTag
  | _, [] => []
  | k, s :: rest => s.tags k ++ tagsFrom (k + 1) rest

private theorem tagsFrom_succ (sections : List Section) (k : Nat) :
    tagsFrom (k + 1) sections ++ [.closes] =
      .closes :: sections.flatMap fun s => [SectionTag.opens s.name, .closes] := by
  induction sections generalizing k with
  | nil => rfl
  | cons s rest ih => simp [tagsFrom, Section.tags, ih (k + 1)]

/-- Each section is ended before the next one begins. -/
theorem tagsFrom_zero {sections : List Section} (hne : sections ≠ []) :
    tagsFrom 0 sections ++ [.closes] =
      sections.flatMap fun s => [SectionTag.opens s.name, .closes] := by
  cases sections with
  | nil => exact absurd rfl hne
  | cons s rest => simp [tagsFrom, Section.tags, tagsFrom_succ rest 0]

/-- The top level `final` of a page shows the top level `row` of a file as sections: each has a
declaration and blocks, in their order, and gives its beginning and the rows of its blocks. The
end of the last section comes last. -/
structure Sectioned (path : String) (row final : List (Tree Node)) (sections : List Section) :
    Prop where
  nonempty : 1 ≤ sections.length
  partition : row = sections.flatMap fun s => s.declaration :: s.blocks
  declared : ∀ s ∈ sections,
    ∃ text, declaration? "document" s.declaration = some (text, s.directive)
  undeclared : ∀ s ∈ sections, ∀ b ∈ s.blocks, declaration? "document" b = none
  shown : ∃ rewritten, List.Forall₂ (fun s out => Rewritten path s.blocks out) sections rewritten ∧
    final = written Markup.sectionBegin 0 (sections.zip (rewritten.map (mapAll unescaped))) ++
      [.node Compiler.closingNode []]
  markup : ∀ s ∈ sections, ∀ k, (s.opening Markup.sectionBegin k).value.literal =
    some (String.join ((s.tags k).map SectionTag.text))
  ending : Compiler.closingNode.literal = some SectionTag.closes.text
  tags : tagsFrom 0 sections ++ [.closes] =
    sections.flatMap fun s => [SectionTag.opens s.name, .closes]

theorem mapAll_unescaped_written (k : Nat) (sections : List Section)
    (rewritten : List (List (Tree Node))) :
    mapAll unescaped (written Markup.sectionBegin k (sections.zip rewritten)) =
      written Markup.sectionBegin k (sections.zip (rewritten.map (mapAll unescaped))) := by
  induction sections generalizing k rewritten with
  | nil => simp [written]
  | cons s rest ih =>
    cases rewritten with
    | nil => simp [written]
    | cons row rows =>
      have hopening : (s.opening Markup.sectionBegin k).map unescaped =
          s.opening Markup.sectionBegin k := by
        simp [Section.opening, unescaped, isScanned]
      simp [written, ih, hopening]

/-- A row that begins with a declaration is laid out as its sections. -/
theorem Sectioned.of_laidOut {path : String} {place : Place} {tally tally' : Tally}
    {row before : List (Tree Node)} {rewritten : List (List (Tree Node))}
    (h : LaidOut path place tally tally' row before rewritten) (hcount : tally.count = 0)
    (hsections : (Section.split row).2 ≠ []) :
    Sectioned path row (mapAll unescaped (before ++ written Markup.sectionBegin tally.count
      ((Section.split row).2.zip rewritten)) ++ [.node Compiler.closingNode []])
      (Section.split row).2 := by
  have hfirst : (Section.split row).1 = [] := by
    by_contra hblocks
    exact hsections (h.first hcount (Or.inr hblocks))
  obtain rfl : before = [] := by
    obtain ⟨rows, rfl, hrows⟩ := h.blocks
    rw [hfirst, List.forall₂_nil_left_iff] at hrows
    rw [hrows, List.flatten_nil]
  obtain ⟨-, hdeclared⟩ := Section.split_declared row
  refine ⟨List.length_pos_iff.mpr hsections, ?_, fun s hs => (hdeclared s hs).1,
    fun s hs => (hdeclared s hs).2, ⟨rewritten, h.sections, ?_⟩, fun s _ k => s.opening_literal k,
    rfl, tagsFrom_zero hsections⟩
  · have hflatten := Section.split_flatten row
    rwa [hfirst, List.nil_append] at hflatten
  · rw [List.nil_append, hcount, mapAll_unescaped_written]

/-- The page of a file with blocks is a sequence of sections, as many as were counted, with
different names, unless a container in the file is itself called a document. -/
theorem page_sectioned {c : Compiler} {path html : String} {tokens : List Token}
    (hok : (c.compileTokens path tokens).outcome = .ok html) (hdoc : NoInnerDocument tokens) :
    ∃ t, Compiler.Joins tokens t ∧ ((t.tree 0).row ≠ [] →
      ∃ tally t' sections, all path c.tally t 0 = (tally, .ok t') ∧
        Compiler.page (Compiler.closed t') = .ok html ∧
        Sectioned path (t.tree 0).row ((Compiler.closed t').tree 0).row sections ∧
        (c.compileTokens path tokens).compiler.sectionCount = sections.length ∧
        (c.compileTokens path tokens).compiler.fileSections = (sections.map Section.name).reverse ∧
        (c.compileTokens path tokens).compiler.fileSections.Nodup) := by
  obtain ⟨t, tally, t', out, hjoins, hall, hexpand, hend⟩ := Compiler.compileTokens_eq_ok hok
  refine ⟨t, hjoins, fun hne => ?_⟩
  have hinner : ∀ x ∈ (t.tree 0).row, declaration? "document" x = none →
      declarations "document" x = [] := by
    rintro ⟨n, cs⟩ hx hdecl
    exact declarations_eq_nil hdecl fun m hm =>
      hdoc.kind_ne hjoins m (mem_valuesAll.mpr ⟨_, hx, hm⟩)
  obtain ⟨before, rewritten, hlaid⟩ := expandAll_laidOut rfl hinner hexpand
  obtain rfl : out = _ :=
    Except.ok.inj (Prod.mk.inj (hexpand.symm.trans (hlaid.gives Markup.sectionBegin))).2
  have hdeclares := expandAll_declares hexpand
  rw [declarationsAll_split hinner] at hdeclares
  rcases hend with ⟨hempty, -⟩ | ⟨hcount, hpage, hfinal, hcompiler⟩
  · exact absurd hempty (expandAll_ne_nil hne hexpand)
  · have hlength : tally.count = (Section.split (t.tree 0).row).2.length := by
      simpa [Compiler.tally] using hdeclares.count
    have hsections : (Section.split (t.tree 0).row).2 ≠ [] :=
      List.ne_nil_of_length_pos (hlength ▸ Nat.pos_of_ne_zero hcount)
    refine ⟨tally, t', (Section.split (t.tree 0).row).2, hall, hpage, ?_, ?_, ?_, ?_⟩
    · rw [hfinal]
      exact .of_laidOut hlaid rfl hsections
    · rw [hcompiler]
      exact hlength
    · rw [hcompiler]
      exact hdeclares.declared.trans (List.append_nil _)
    · rw [hcompiler]
      exact hdeclares.nodup List.nodup_nil

/-- A file with two sections. -/
def pairedSource : String := "\x7b\x7bA\x7d\x7d\n\none\n\n\x7b\x7bB\x7d\x7d"

theorem page_sectioned_pairedSource :
    ∃ tokens html, Markdown.parse pairedSource = .ok tokens ∧ NoInnerDocument tokens ∧
      (({} : Compiler).compileTokens "s.md" tokens).outcome = .ok html ∧
      ∃ t, Compiler.Joins tokens t ∧ (t.tree 0).row ≠ [] ∧
        ∃ final sections, Sectioned "s.md" (t.tree 0).row final sections ∧
          (({} : Compiler).compileTokens "s.md" tokens).compiler.sectionCount =
            sections.length := by
  have heval : (match Markdown.parse pairedSource with
      | .ok tokens =>
        ((Compiler.joined? tokens).map fun t => !(t.tree 0).row.isEmpty) == some true &&
          (({} : Compiler).compileTokens "s.md" tokens).outcome.isOk
      | .error _ => false) = true := by decide +kernel
  obtain ⟨parsed, hparse⟩ : ∃ parsed, Markdown.parse pairedSource = parsed := ⟨_, rfl⟩
  rw [hparse] at heval ⊢
  cases parsed with
  | error f => exact absurd heval Bool.false_ne_true
  | ok tokens =>
    obtain ⟨hjoined, hisOk⟩ := Bool.and_eq_true_iff.mp heval
    cases hok : (({} : Compiler).compileTokens "s.md" tokens).outcome with
    | error e => rw [hok] at hisOk; exact absurd hisOk Bool.false_ne_true
    | ok html =>
      have hdoc := NoInnerDocument.of_parse hparse
      obtain ⟨t, hjoins, hpage⟩ := page_sectioned hok hdoc
      have hne : (t.tree 0).row ≠ [] := by
        rw [Compiler.joins_iff.mp hjoins] at hjoined
        simpa using hjoined
      obtain ⟨tally, t', sections, -, -, hsections, hcount, -⟩ := hpage hne
      exact ⟨tokens, html, rfl, hdoc, hok, t, hjoins, hne, _, sections, hsections, hcount⟩

/-- A container called a document, with the declaration of a section in it. -/
def nestedDocument : List Token :=
  [{ kind := "document_open", tag := "div", nesting := .opens },
    { kind := "paragraph_open", tag := "p", nesting := .opens },
    { kind := "inline", map := some (0, 1)
      children := some [{ kind := "text", content := "\x7b\x7bA\x7d\x7d" }] },
    { kind := "paragraph_close", tag := "p", nesting := .closes },
    { kind := "document_close", tag := "div", nesting := .closes }]

/-- A section may be declared in a container that is called a document: the page is then not a
sequence of sections. -/
theorem nestedDocument_not_sectioned :
    ∃ t html, Compiler.Joins nestedDocument t ∧ (t.tree 0).row ≠ [] ∧
      (({ debug := true } : Compiler).compileTokens "s.md" nestedDocument).outcome = .ok html ∧
      ∀ final sections, ¬ Sectioned "s.md" (t.tree 0).row final sections := by
  have heval : (({ debug := true } : Compiler).compileTokens "s.md" nestedDocument).outcome.isOk =
        true ∧
      ((Compiler.joined? nestedDocument).map fun t => (t.tree 0).row.map fun x => x.value.kind) =
        some ["document"] := by decide +kernel
  obtain ⟨hisOk, hjoined⟩ := heval
  obtain ⟨t, hjoins, hkinds⟩ := Option.map_eq_some_iff.mp hjoined
  cases hok : (({ debug := true } : Compiler).compileTokens "s.md" nestedDocument).outcome with
  | error e => rw [hok] at hisOk; cases hisOk
  | ok html =>
    refine ⟨t, html, Compiler.joins_iff.mpr hjoins, fun h => ?_, rfl, fun final sections h => ?_⟩
    · rw [h] at hkinds
      cases hkinds
    · cases sections with
      | nil => exact absurd h.nonempty (by simp)
      | cons s rest =>
        -- The first section would have to begin with the only block, which is no paragraph.
        obtain ⟨text, hdecl⟩ := h.declared s (by simp)
        cases hs : s.declaration with
        | node n row =>
          rw [hs] at hdecl
          obtain ⟨-, -, hkind, -⟩ := declaration?_eq_some hdecl
          rw [h.partition, List.flatMap_cons, hs, List.cons_append, List.map_cons, value_node,
            hkind] at hkinds
          exact absurd (List.cons.inj hkinds).1 (by decide)

end Hyperstory
