import Hyperstory.Proofs.Settled

/-!
How the text of a file reaches the renderer. A link that the engine follows is rendered as soon as
everything below it is replaced, and what is left is rendered as the page. On either way the
escapes of a text are removed once.
-/
namespace Hyperstory

open Hyperstory.Tree Expansion

def Segment.texts : Segment → List (List Char)
  | text cs => [cs]
  | reference _ _ => []

/-- The destination of a node begins like a directive. -/
def Node.Directed (n : Node) : Prop :=
  ∃ destination, AttrValue.destination n.destination = .ok destination ∧
    (Url.decodeDestination destination).toList.head? = some '{'

/-- How a row of a document is rendered: its texts as they are written (`raws`), the row that
stands for it in the rendering (`shown`), and the rows that are rendered on the way, as the texts
of anchors (`handed`). -/
inductive Composes : List (Tree Node) → List (List Char) → List (Tree Node) →
    List (List (Tree Node)) → Prop where
  | nil : Composes [] [] [] []
  | text {n : Node} {segs : List Segment} {row rest shown : List (Tree Node)}
      {raws : List (List Char)} {handed : List (List (Tree Node))} (hc : n.container = false)
      (hs : isScanned n.kind = true) (hcut : Cut n.characters segs)
      (hrow : List.Forall₂ (Segment.Shown n) ((Segment.ofLeaf segs).map Segment.read) row)
      (after : Composes rest raws shown handed) :
      Composes (.node n [] :: rest) ((Segment.ofLeaf segs).flatMap Segment.texts ++ raws)
        (row ++ shown) handed
  | plain {n : Node} {rest shown : List (Tree Node)} {raws : List (List Char)}
      {handed : List (List (Tree Node))} (hkind : n.kind ≠ "image") (hc : n.container = false)
      (hs : isScanned n.kind = false) (after : Composes rest raws shown handed) :
      Composes (.node n [] :: rest) raws (.node n [] :: shown) handed
  | image {n : Node} {alt lead : String} {cs rest shown : List (Tree Node)}
      {raws : List (List Char)} {handed : List (List (Tree Node))} (hkind : n.kind = "image")
      (halt : ∀ first below more, cs = .node first below :: more → first.kind = "text" →
        alt = String.ofList (unescape first.characters))
      (after : Composes rest raws shown handed) :
      Composes (.node n cs :: rest) raws
        (.node (markupNode n
          (lead ++ Markup.attr "alt" alt ++ Markup.attr "title" alt ++ ">")) [] :: shown) handed
  | opening {n text : Node} {d : Directive} {parentKind markup : String}
      {cs rest shown : List (Tree Node)} {raws : List (List Char)}
      {handed : List (List (Tree Node))}
      (hdecl : declaration? parentKind (.node n cs) = some (text, d))
      (after : Composes rest raws shown handed) :
      Composes (.node n cs :: rest) raws
        (.node { kind := "html_inline", literal := some markup, position := n.position } [] ::
          shown) handed
  | container {n : Node} {cs inner rest shown : List (Tree Node)} {raws₁ raws : List (List Char)}
      {handed₁ handed : List (List (Tree Node))} (hkind : n.kind ≠ "image")
      (hc : n.container = true) (hlink : n.kind = "link" → ¬ n.Directed)
      (below : Composes cs raws₁ inner handed₁) (after : Composes rest raws shown handed) :
      Composes (.node n cs :: rest) (raws₁ ++ raws) (.node n inner :: shown) (handed₁ ++ handed)
  | anchor {n : Node} {cs inner rest shown : List (Tree Node)} {raws₁ raws : List (List Char)}
      {handed₁ handed : List (List (Tree Node))} {streams : List (Bool × List Slot)}
      {id : Option String} {action target text : String} (hkind : n.kind = "link")
      (hc : n.container = true) (hlink : n.Directed) (below : Composes cs raws₁ inner handed₁)
      (hstreams : streamsOf inner = .ok streams)
      (htext : Slot.renderInline (streams.flatMap (·.2)) = .ok text)
      (after : Composes rest raws shown handed) :
      Composes (.node n cs :: rest) (raws₁ ++ raws)
        (.node (markupNode n (Markup.anchor id action target text)) [] :: shown)
        (handed₁ ++ inner :: handed)

/-- The literals that a rendered row has from the leaves that are read for directives. -/
def literals (row : List (Tree Node)) : List (List Char) :=
  ((valuesAll row).filter fun m => isScanned m.kind && !m.container).map Node.characters

theorem literals_append (l r : List (Tree Node)) : literals (l ++ r) = literals l ++ literals r := by
  simp [literals]

theorem literals_node {n : Node} (h : (isScanned n.kind && !n.container) = false)
    (cs rest : List (Tree Node)) :
    literals (.node n cs :: rest) = literals cs ++ literals rest := by
  simp [literals, h]

/-- The leaves for the parts of a text have its plain texts, read once. -/
theorem literals_shown {n : Node} (hc : n.container = false) (hs : isScanned n.kind = true)
    {segs : List Segment} {row : List (Tree Node)}
    (h : List.Forall₂ (Segment.Shown n) (segs.map Segment.read) row) :
    literals row = (segs.flatMap Segment.texts).map unescape := by
  induction segs generalizing row with
  | nil =>
    cases h
    simp [literals]
  | cons s segs ih =>
    obtain _ | ⟨hx, hrest⟩ := h
    rw [List.flatMap_cons, List.map_append, ← ih hrest]
    cases s with
    | text cs =>
      obtain ⟨m, rfl, hsame, hm⟩ := hx
      have hcounted : (isScanned m.kind && !m.container) = true := by
        rw [hsame.kind, hsame.container, hs, hc]
        rfl
      simp [literals, hcounted, Segment.texts, hm]
    | reference kind name =>
      obtain ⟨place, rfl⟩ := hx
      exact literals_node (by simp [markupNode, isScanned]) [] _

/-- Every text that is written is rendered, and it is rendered in the way it is read. -/
theorem Composes.literals_perm {row shown : List (Tree Node)} {raws : List (List Char)}
    {handed : List (List (Tree Node))} (h : Composes row raws shown handed) :
    (handed.flatMap literals ++ literals shown).Perm (raws.map unescape) := by
  have hmarkup (n : Node) (markup : String) (rest : List (Tree Node)) :
      literals (.node (markupNode n markup) [] :: rest) = literals rest :=
    literals_node (by simp [markupNode, isScanned]) [] rest
  induction h with
  | nil => simp [literals]
  | text hc hs _ hrow _ ih =>
    rw [literals_append, List.map_append, literals_shown hc hs hrow]
    exact (List.perm_append_comm_assoc _ _ _).trans (ih.append_left _)
  | plain _ _ hs _ ih =>
    rw [literals_node (by simp [hs])]
    simpa [literals] using ih
  | image _ _ _ ih =>
    rw [hmarkup]
    exact ih
  | opening _ _ ih =>
    rw [literals_node (by simp [isScanned])]
    simpa [literals] using ih
  | @container n cs inner rest shown raws₁ raws handed₁ handed _ hc _ _ _ ihbelow ih =>
    rw [literals_node (by simp [hc]), List.flatMap_append, List.map_append]
    refine .trans ?_ (ihbelow.append ih)
    rw [List.append_assoc, List.append_assoc]
    exact (List.perm_append_comm_assoc _ _ _).append_left _
  | @anchor n cs inner rest shown raws₁ raws handed₁ handed _ _ _ _ _ _ _ _ _ _ _ _ ihbelow ih =>
    rw [hmarkup, List.flatMap_append, List.flatMap_cons, List.map_append]
    refine .trans ?_ (ihbelow.append ih)
    rw [List.append_assoc, List.append_assoc, List.append_assoc]

theorem directed_iff {path : String} {n : Node} {r : Option Anchor}
    (h : anchorOf? path n = .ok r) : n.Directed ↔ r.isSome = true := by
  obtain ⟨destination, hdestination, hhead⟩ := anchorOf?_eq_ok h
  rw [← hhead]
  constructor
  · rintro ⟨destination', hdestination', hbrace⟩
    rw [hdestination] at hdestination'
    obtain rfl := Except.ok.inj hdestination'
    exact hbrace
  · intro hbrace
    exact ⟨destination, hdestination, hbrace⟩

/-- The markup of an image says its alternative text. -/
theorem expandImage_alt {path : String} {n : Node} {row out : List (Tree Node)}
    (h : expandImage path n row = .ok out) :
    ∃ lead alt, altOf row = some alt ∧ out = [.node (markupNode n
      (lead ++ Markup.attr "alt" alt ++ Markup.attr "title" alt ++ ">")) []] := by
  unfold expandImage at h
  cases halt : altOf row with
  | none =>
    rw [halt] at h
    cases h
  | some alt =>
    rw [halt] at h
    dsimp only at h
    cases hdestination : AttrValue.destination n.destination with
    | error f =>
      rw [hdestination] at h
      cases h
    | ok destination =>
      rw [hdestination] at h
      dsimp only at h
      cases hmarkup : imageMarkup destination alt with
      | error cause =>
        rw [hmarkup] at h
        cases h
      | ok markup =>
        rw [hmarkup] at h
        obtain rfl := Except.ok.inj h
        obtain ⟨lead, rfl⟩ : ∃ lead,
            markup = lead ++ Markup.attr "alt" alt ++ Markup.attr "title" alt ++ ">" := by
          unfold imageMarkup at hmarkup
          dsimp only at hmarkup
          split_ifs at hmarkup
          · exact ⟨_, (Except.ok.inj hmarkup).symm⟩
          · split at hmarkup
            · cases hmarkup
            · split at hmarkup
              · cases hmarkup
              · exact ⟨_, (Except.ok.inj hmarkup).symm⟩
              · exact ⟨_, (Except.ok.inj hmarkup).symm⟩
              · cases hmarkup
        exact ⟨lead, alt, rfl, rfl⟩

theorem altOf_text {first : Node} {below more : List (Tree Node)} {alt : String}
    (h : altOf (.node first below :: more) = some alt) (hkind : first.kind = "text") :
    alt = String.ofList (unescape first.characters) := by
  unfold altOf at h
  rw [List.head?_cons] at h
  dsimp only at h
  rw [value_node, if_pos (by simpa using hkind)] at h
  obtain ⟨literal, hliteral, rfl⟩ := Option.map_eq_some_iff.mp h
  rw [Node.characters, hliteral]
  rfl

section Row

variable {w : Wording} {path : String} {place : Place} {tally tally' : Tally} {n : Node}
  {cs rest out shown : List (Tree Node)} {raws : List (List Char)}
  {handed : List (List (Tree Node))}

private theorem expand_composes_of_row
    (hrow : ∀ place tally tally' out, expandAll w path place tally cs = (tally', .ok out) →
      ∃ raws handed, Composes cs raws (mapAll unescaped out) handed)
    (hleaf : n.container = false → cs = [])
    (hwordless : n.container = true → isScanned n.kind = true → n.literal = none)
    (hrest : Composes rest raws shown handed)
    (h : expand w path place tally (.node n cs) = (tally', .ok out)) :
    ∃ raws' handed', Composes (.node n cs :: rest) raws' (mapAll unescaped out ++ shown) handed' := by
  cases expand_eq_ok h with
  | image hkind himage =>
    obtain ⟨lead, alt, halt, rfl⟩ := expandImage_alt himage
    refine ⟨raws, handed, .image hkind (fun first below more hcs htext => ?_) hrest⟩
    subst hcs
    exact altOf_text halt htext
  | scanned hc hs hsegments =>
    obtain ⟨segs, hcut, hshown⟩ := segments_cut hc hsegments
    rw [hleaf hc]
    exact ⟨_, handed, .text hc hs hcut (forall₂_unescaped hs hshown) hrest⟩
  | plain hkind hc hs =>
    rw [hleaf hc, mapAll_cons, map_node, mapAll_nil,
      Forest.unescaped_eq_self fun h => absurd h (by simp [hs])]
    exact ⟨raws, handed, .plain hkind hc hs hrest⟩
  | opening hdecl => exact ⟨raws, handed, .opening hdecl hrest⟩
  | stays hkind hc _ hlink hbelow =>
    obtain ⟨raws₁, handed₁, hcomposes⟩ := hrow _ _ _ _ hbelow
    rw [mapAll_cons, map_node, mapAll_nil, Forest.unescaped_eq_self (hwordless hc)]
    refine ⟨_, _, .container hkind hc (fun hl hdirected => ?_) hcomposes hrest⟩
    exact absurd ((directed_iff (hlink hl)).mp hdirected) (by simp)
  | anchor hkind hc _ hanchor hbelow htext =>
    obtain ⟨raws₁, handed₁, hcomposes⟩ := hrow _ _ _ _ hbelow
    obtain ⟨streams, hstreams, hrender⟩ := inlineText_eq_ok htext
    exact ⟨_, _, .anchor hkind hc ((directed_iff hanchor).mpr rfl) hcomposes hstreams hrender hrest⟩

/-- What the recursion leaves, without its escapes, is how the row is rendered. -/
theorem expandAll_composes {row : List (Tree Node)} (hformed : Formed row)
    (h : expandAll w path place tally row = (tally', .ok out)) :
    ∃ raws handed, Composes row raws (mapAll unescaped out) handed := by
  induction hformed generalizing place tally tally' out with
  | nil =>
    rw [expandAll] at h
    cases h
    rw [mapAll_nil]
    exact ⟨[], [], .nil⟩
  | cons hleaf hwordless _ _ ihbelow ihafter =>
    rw [expandAll_cons] at h
    obtain ⟨tally₁, out₁, hfirst, h⟩ := andThen_eq_ok h
    obtain ⟨tally₂, out₂, hrest, h⟩ := andThen_eq_ok h
    cases h
    obtain ⟨raws, handed, hcomposes⟩ := ihafter hrest
    rw [mapAll_append]
    exact expand_composes_of_row (fun _ _ _ _ => ihbelow) hleaf hwordless hcomposes hfirst

end Row

namespace Compiler

/-- When a file is compiled, the escapes of its texts are removed exactly once: the page and the
texts of its anchors are rendered as the joined tree asks, and the literals that come to the
renderer are the written texts, each without its escapes. -/
theorem compileTokens_unescaped_once {c : Compiler} {path : String} {tokens : List Token}
    {html : String} (h : (c.compileTokens path tokens).outcome = .ok html) :
    ∃ t tally t' raws shown handed, Joins tokens t ∧
      Expansion.all path c.tally t 0 = (tally, .ok t') ∧
      Composes (t.tree 0).row raws shown handed ∧
      ((shown = [] ∧ html = "") ∨
        (page (closed t') = .ok html ∧
          ((closed t').tree 0).row = shown ++ [.node closingNode []])) ∧
      (handed.flatMap literals ++ literals shown).Perm (raws.map unescape) := by
  obtain ⟨t, tally, t', out, hjoins, hall, hexpand, hpage⟩ := compileTokens_eq_ok h
  obtain ⟨raws, handed, hcomposes⟩ := expandAll_composes hjoins.formed hexpand
  refine ⟨t, tally, t', raws, mapAll unescaped out, handed, hjoins, hall, hcomposes, ?_,
    hcomposes.literals_perm⟩
  rcases hpage with ⟨hempty, hhtml, -⟩ | ⟨-, hpage, hrow, -⟩
  · exact Or.inl ⟨by rw [hempty, mapAll_nil], hhtml⟩
  · exact Or.inr ⟨hpage, hrow⟩

theorem compileTokens_unescaped_once_escapedStory :
    (({} : Compiler).compileTokens "s.md" escapedStory).outcome.isOk = true ∧
      ∃ t tally t' raws shown handed, Joins escapedStory t ∧
        Expansion.all "s.md" ({} : Compiler).tally t 0 = (tally, .ok t') ∧
        Composes (t.tree 0).row raws shown handed ∧
        (handed.flatMap literals ++ literals shown).Perm (raws.map unescape) := by
  have heval : (({} : Compiler).compileTokens "s.md" escapedStory).outcome.isOk = true := by
    decide +kernel
  obtain ⟨html, hpage⟩ := exists_of_isOk heval
  obtain ⟨t, tally, t', raws, shown, handed, hjoins, hall, hcomposes, -, hperm⟩ :=
    compileTokens_unescaped_once hpage
  exact ⟨heval, t, tally, t', raws, shown, handed, hjoins, hall, hcomposes, hperm⟩

end Compiler

end Hyperstory
