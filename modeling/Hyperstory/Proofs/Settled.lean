import Hyperstory.Proofs.Compiling
import Hyperstory.Proofs.Cuts

/-! No directive is left in the tree of a file that is compiled. -/
namespace Hyperstory

open Hyperstory.Tree Expansion

/-- Nothing stands below a leaf, and containers have no words. -/
inductive Formed : List (Tree Node) → Prop where
  | nil : Formed []
  | cons {n : Node} {cs rest : List (Tree Node)} (leaf : n.container = false → cs = [])
      (wordless : n.container = true → isScanned n.kind = true → n.literal = none)
      (below : Formed cs) (after : Formed rest) : Formed (.node n cs :: rest)

theorem Forest.Document.formed {t : Forest} {kids : NodeId → List NodeId} (hd : t.Document kids)
    {row : List (Tree NodeId)} (h : Follows kids row) : Formed (mapAll t.label row) := by
  induction h with
  | nil =>
    rw [mapAll_nil]
    exact .nil
  | @cons i cs rest top _ _ ihbelow ihafter =>
    rw [mapAll_cons, map_node]
    refine .cons (fun hc => ?_) (hd.literal i) ihbelow ihafter
    have hnone := hd.leaf i hc
    rw [top, List.map_eq_nil_iff] at hnone
    rw [hnone, mapAll_nil]

theorem Compiler.Joins.formed {tokens : List Token} {t : Forest} (h : Joins tokens t) :
    Formed (t.tree 0).row := by
  obtain ⟨kids, hd⟩ := h.document
  obtain ⟨cs, hvalues, hcs⟩ := hd.linked.exists_row (kids 0)
  rw [hd.linked.tree_eq (.cons hvalues.symm hcs .nil)]
  exact hd.formed hcs

/-- A node at which nothing is left to replace: it is no image, its destination is no directive,
and every brace in its words is escaped. -/
structure Settled (n : Node) : Prop where
  image : n.kind ≠ "image"
  link : n.kind = "link" → n.container = true →
    ∃ destination, AttrValue.destination n.destination = .ok destination ∧
      (Url.decodeDestination destination).toList.head? ≠ some '{'
  quiet : isScanned n.kind = true → ¬ Bare '{' n.characters

theorem Settled.markup (n : Node) (markup : String) : Settled (markupNode n markup) := by
  constructor
  · simp [markupNode]
  · simp [markupNode]
  · simp [markupNode, isScanned]

theorem Settled.of_kind {n : Node} (hkind : n.kind ≠ "image") (hlink : n.kind ≠ "link")
    (hs : isScanned n.kind = false) : Settled n :=
  ⟨hkind, fun h => absurd h hlink, fun h => absurd h (by simp [hs])⟩

/-- A link becomes an anchor when its destination begins with a brace. -/
theorem anchorOf?_eq_ok {path : String} {n : Node} {r : Option Anchor}
    (h : anchorOf? path n = .ok r) :
    ∃ destination, AttrValue.destination n.destination = .ok destination ∧
      ((Url.decodeDestination destination).toList.head? = some '{' ↔ r.isSome = true) := by
  unfold anchorOf? at h
  cases hdestination : AttrValue.destination n.destination with
  | error f =>
    rw [hdestination] at h
    cases h
  | ok destination =>
    refine ⟨destination, rfl, ?_⟩
    rw [hdestination] at h
    dsimp only at h
    split_ifs at h with hhead
    · cases h
      simpa using hhead
    · -- a destination that begins with a brace is an anchor or a problem
      have hsome : r.isSome = true := by
        split at h
        · cases h
        · split at h
          · split_ifs at h
            split at h <;> cases h
            rfl
          all_goals cases h
          all_goals rfl
      simpa [hsome] using hhead

section Row

variable {w : Wording} {path : String} {place : Place} {tally tally' : Tally} {n : Node}
  {row out : List (Tree Node)}

theorem segments_settled (h : segments path place n = .ok out) (hc : n.container = false)
    (hs : isScanned n.kind = true) : ∀ m ∈ valuesAll out, Settled m := by
  obtain ⟨segs, hcut, hshown⟩ := segments_cut hc h
  have hquiet : ∀ cs, Segment.text cs ∈ Segment.ofLeaf segs → ¬ Bare '{' cs := by
    intro cs hmem
    cases segs with
    | nil =>
      obtain rfl := Segment.text.inj (List.mem_singleton.mp hmem)
      exact Bare.not_nil
    | cons s segs => exact hcut.quiet hmem
  clear hcut h
  generalize Segment.ofLeaf segs = parts at hquiet hshown
  induction hshown with
  | nil => simp
  | @cons s x parts out hx _ ih =>
    rw [valuesAll_cons]
    refine List.forall_mem_append.mpr ⟨?_, ih fun cs hcs => hquiet cs (List.mem_cons_of_mem _ hcs)⟩
    cases s with
    | text cs =>
      obtain ⟨m, rfl, hsame, hm⟩ := hx
      obtain ⟨hlink, himage⟩ := ne_of_isScanned hs
      rw [values_node, valuesAll_nil, List.forall_mem_singleton]
      refine ⟨by rwa [hsame.kind], fun h => absurd h (by rwa [hsame.kind]), fun _ => ?_⟩
      rw [hm]
      exact hquiet cs List.mem_cons_self
    | reference kind name =>
      obtain ⟨position, rfl⟩ := hx
      rw [values_node, valuesAll_nil, List.forall_mem_singleton]
      exact .of_kind (by simp [markupNode]) (by simp [markupNode]) (by simp [markupNode, isScanned])

private theorem expand_settled_of_row
    (hrow : ∀ place tally tally' out, expandAll w path place tally row = (tally', .ok out) →
      ∀ m ∈ valuesAll out, Settled m)
    (hleaf : n.container = false → row = [])
    (hwordless : n.container = true → isScanned n.kind = true → n.literal = none)
    (h : expand w path place tally (.node n row) = (tally', .ok out)) :
    ∀ m ∈ valuesAll out, Settled m := by
  cases expand_eq_ok h with
  | image _ himage =>
    obtain ⟨markup, rfl⟩ := expandImage_eq_ok himage
    simpa using Settled.markup n markup
  | scanned hc hs hsegments => exact segments_settled hsegments hc hs
  | plain hkind hc hs =>
    rw [hleaf hc]
    have hn : Settled n := ⟨hkind, fun _ h => absurd h (by simp [hc]), fun h => absurd h (by simp [hs])⟩
    simpa using hn
  | @opening _ d =>
    have hn : Settled (sectionNode w tally n d) :=
      .of_kind (by simp [sectionNode]) (by simp [sectionNode]) (by simp [sectionNode, isScanned])
    simpa using hn
  | stays hkind hc _ hlink hbelow =>
    rw [valuesAll_cons, values_node, valuesAll_nil, List.append_nil]
    refine List.forall_mem_cons.mpr ⟨⟨hkind, fun hl _ => ?_, fun hs => ?_⟩, hrow _ _ _ _ hbelow⟩
    · obtain ⟨destination, hdestination, hhead⟩ := anchorOf?_eq_ok (hlink hl)
      exact ⟨destination, hdestination, by simpa using hhead⟩
    · rw [Node.characters, hwordless hc hs]
      exact Bare.not_nil
  | anchor =>
    rw [valuesAll_cons, values_node, valuesAll_nil, List.append_nil, List.forall_mem_singleton]
    exact .markup n _

/-- The recursion leaves nothing to replace. -/
theorem expandAll_settled (hformed : Formed row)
    (h : expandAll w path place tally row = (tally', .ok out)) :
    ∀ m ∈ valuesAll out, Settled m := by
  induction hformed generalizing place tally tally' out with
  | nil =>
    rw [expandAll] at h
    cases h
    simp
  | cons hleaf hwordless _ _ ihbelow ihafter =>
    rw [expandAll_cons] at h
    obtain ⟨tally₁, out₁, hfirst, h⟩ := andThen_eq_ok h
    obtain ⟨tally₂, out₂, hrest, h⟩ := andThen_eq_ok h
    cases h
    rw [valuesAll_append, List.forall_mem_append]
    exact ⟨expand_settled_of_row (fun _ _ _ _ => ihbelow) hleaf hwordless hfirst, ihafter hrest⟩

end Row

namespace Compiler

/-- When a file is compiled, no directive is left behind: every node of the tree from which the
page is finished is settled. -/
theorem compileTokens_settled {c : Compiler} {path : String} {tokens : List Token} {html : String}
    (h : (c.compileTokens path tokens).outcome = .ok html) :
    ∃ t tally t', Joins tokens t ∧ Expansion.all path c.tally t 0 = (tally, .ok t') ∧
      (c.compileTokens path tokens).outcome =
        ((c.startFile.withTally tally).finish path t').outcome ∧
      ∀ n ∈ (t'.tree 0).values, Settled n := by
  obtain ⟨t, tally, t', out, hjoins, hall, hexpand, -⟩ := compileTokens_eq_ok h
  refine ⟨t, tally, t', hjoins, hall, (compileTokens_of_ok hjoins hall).1, ?_⟩
  obtain ⟨final, hfinal, -, hok⟩ := hjoins.all_eq path c.tally
  rw [hexpand] at hfinal hok
  obtain ⟨t₁, -, rfl, -, htree⟩ := hok out rfl
  obtain rfl : t' = t₁ := Except.ok.inj (Prod.mk.inj (hall.symm.trans hfinal)).2
  rw [htree, values_node, List.forall_mem_cons]
  refine ⟨?_, expandAll_settled hjoins.formed hexpand⟩
  have hroot := hjoins.rootKind
  exact .of_kind (by rw [hroot]; decide) (by rw [hroot]; decide) (by rw [hroot]; decide)

/-- A section with escapes, references, an image and a link in a link that the engine follows. -/
def escapedStory : List Token :=
  let image : Token :=
    { kind := "image", tag := "img", attrs := [("src", "\x7b$v\x7d")]
      children := some (textTokens "\\\\ \\\x7b") }
  let link := linkTokens (textTokens "\\\x7b \x7b$w\x7d") "a.html"
  paragraphTokens (textTokens "\x7b\x7bA\x7d\x7d") ++
    paragraphTokens (textTokens "\\\x7b \x7b$v\x7d \\\\\x7b@A\x7d\x7b#f\x7d" ++
      image :: linkTokens (textTokens "\\\\\\\\" ++ link) "\x7b@A:inline\x7d")

theorem compileTokens_settled_escapedStory :
    (({} : Compiler).compileTokens "s.md" escapedStory).outcome.isOk = true ∧
      ∃ t tally t', Joins escapedStory t ∧
        Expansion.all "s.md" ({} : Compiler).tally t 0 = (tally, .ok t') ∧
        ∀ n ∈ (t'.tree 0).values, Settled n := by
  have heval : (({} : Compiler).compileTokens "s.md" escapedStory).outcome.isOk = true := by
    decide +kernel
  obtain ⟨html, hpage⟩ := exists_of_isOk heval
  obtain ⟨t, tally, t', hjoins, hall, -, hsettled⟩ := compileTokens_settled hpage
  exact ⟨heval, t, tally, t', hjoins, hall, hsettled⟩

end Compiler

end Hyperstory
