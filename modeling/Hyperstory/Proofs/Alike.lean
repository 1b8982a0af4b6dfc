import Hyperstory.Proofs.Declarations
import Hyperstory.Proofs.Drafts
import Hyperstory.Proofs.Settled

/-!
Two runs over one document. They differ in the numbers and the names that were taken before, so
what they leave differs in markup only, and markup is rendered without a look into it.
-/
namespace Hyperstory

open Hyperstory.Tree Expansion

namespace Slot

/-- Places that differ in the content of markup only. -/
inductive Alike : Slot → Slot → Prop where
  | refl (s : Slot) : Alike s s
  | markup (a b : String) :
      Alike (.filled { kind := "html_inline", content := a } none)
        (.filled { kind := "html_inline", content := b } none)
  | run {r r' : List Slot} (h : List.Forall₂ Alike r r') :
      Alike (.filled { kind := "inline" } (some r)) (.filled { kind := "inline" } (some r'))

theorem isOk_join (x y : Except Fault String) :
    (do let a ← x; let b ← y; .ok (a ++ b) : Except Fault String).isOk = (x.isOk && y.isOk) := by
  cases x <;> cases y <;> rfl

/-- Whether a token can be written does not depend on its neighbours. -/
theorem element_isOk (previous previous' next next' : Option Token) (t : Token)
    (children : Option (List Slot)) :
    (element previous t children next).isOk = (element previous' t children next').isOk := by
  unfold element
  simp only [apply_ite Except.isOk]
  cases plainTexts? children <;> rfl

/-- One place among others, whether or not the places are blocks. -/
theorem Alike.element_isOk {t t' : Token} {children children' : Option (List Slot)}
    (h : Alike (.filled t children) (.filled t' children'))
    (previous previous' next next' : Option Token) :
    (element previous t children next).isOk = (element previous' t' children' next').isOk := by
  cases h with
  | refl => exact Slot.element_isOk _ _ _ _ t children
  | markup a b => rfl
  | run h => rfl

theorem renderInlineAfter_isOk {slots slots' : List Slot} (h : List.Forall₂ Alike slots slots')
    (previous previous' : Option Token) :
    (renderInlineAfter previous slots).isOk = (renderInlineAfter previous' slots').isOk := by
  induction h generalizing previous previous' with
  | nil => rfl
  | @cons s s' rest rest' hs _ ih =>
    cases s with
    | missing =>
      cases hs
      rfl
    | filled t children =>
      cases s' with
      | missing => cases hs
      | filled t' children' =>
        rw [renderInlineAfter, renderInlineAfter, isOk_join, isOk_join,
          hs.element_isOk previous previous' _ (rest'.head?.bind token?), ih (some t) (some t')]

theorem renderAfter_cons_isOk (previous : Option Token) (t : Token)
    (children : Option (List Slot)) (rest : List Slot) :
    (renderAfter previous (.filled t children :: rest)).isOk =
      ((if t.kind == "inline" then renderInline (children.getD [])
        else element previous t children (rest.head?.bind token?)).isOk &&
        (renderAfter (some t) rest).isOk) := by
  rw [renderAfter]
  split_ifs
  · exact isOk_join _ _
  · exact isOk_join _ _

theorem renderAfter_isOk {slots slots' : List Slot} (h : List.Forall₂ Alike slots slots')
    (previous previous' : Option Token) :
    (renderAfter previous slots).isOk = (renderAfter previous' slots').isOk := by
  induction h generalizing previous previous' with
  | nil => rfl
  | @cons s s' rest rest' hs _ ih =>
    cases s with
    | missing =>
      cases hs
      rfl
    | filled t children =>
      cases s' with
      | missing => cases hs
      | filled t' children' =>
        rw [renderAfter_cons_isOk, renderAfter_cons_isOk, ih (some t) (some t')]
        congr 1
        cases hs with
        | refl =>
          split_ifs
          · rfl
          · exact element_isOk _ _ _ _ t children
        | markup a b => rfl
        | run h =>
          -- a run of inline content is rendered on its own
          exact renderInlineAfter_isOk h none none

end Slot

/-- Parts of a stream that differ in the content of markup only. -/
def PartsAlike (parts parts' : List (Bool × List Slot)) : Prop :=
  List.Forall₂ (fun p p' => p.1 = p'.1 ∧ List.Forall₂ Slot.Alike p.2 p'.2) parts parts'

namespace PartsAlike

variable {parts parts' : List (Bool × List Slot)}

theorem flatten (h : PartsAlike parts parts') :
    List.Forall₂ Slot.Alike (parts.flatMap (·.2)) (parts'.flatMap (·.2)) := by
  induction h with
  | nil => exact .nil
  | cons hp _ ih => exact List.rel_append hp.2 ih

theorem groupRuns (h : PartsAlike parts parts') {run run' : List Slot}
    (hrun : List.Forall₂ Slot.Alike run run') :
    List.Forall₂ Slot.Alike (Forest.groupRuns run parts) (Forest.groupRuns run' parts') := by
  induction h generalizing run run' with
  | nil =>
    cases hrun with
    | nil =>
      unfold Forest.groupRuns
      exact .nil
    | cons hs hrest =>
      unfold Forest.groupRuns
      exact .cons (.run (.cons hs hrest)) .nil
  | @cons p p' parts parts' hp _ ih =>
    obtain ⟨inline, slots⟩ := p
    obtain ⟨inline', slots'⟩ := p'
    obtain ⟨hinline, hslots⟩ := hp
    dsimp only at hinline hslots
    subst hinline
    cases inline with
    | true =>
      rw [Forest.groupRuns, Forest.groupRuns]
      exact ih (List.rel_append hrun hslots)
    | false =>
      have hrest := List.rel_append hslots (ih .nil)
      cases hrun with
      | nil =>
        unfold Forest.groupRuns
        exact hrest
      | cons hs hmore =>
        unfold Forest.groupRuns
        exact .cons (.run (.cons hs hmore)) hrest

end PartsAlike

/-- Rows without images that differ in the content of markup only. -/
inductive Alike : List (Tree Node) → List (Tree Node) → Prop where
  | nil : Alike [] []
  | node {n : Node} {cs cs' rest rest' : List (Tree Node)} (hkind : n.kind ≠ "image")
      (below : Alike cs cs') (after : Alike rest rest') :
      Alike (.node n cs :: rest) (.node n cs' :: rest')
  | markup (n : Node) (a b : String) {rest rest' : List (Tree Node)} (after : Alike rest rest') :
      Alike (.node (markupNode n a) [] :: rest) (.node (markupNode n b) [] :: rest')

namespace Alike

variable {row row' : List (Tree Node)}

theorem refl (h : ∀ n ∈ valuesAll row, n.kind ≠ "image") : Alike row row := by
  induction row using row_induction with
  | nil => exact .nil
  | cons n cs rest ihcs ihrest =>
    simp only [valuesAll_cons, values_node, List.forall_mem_append, List.forall_mem_cons] at h
    obtain ⟨⟨hn, hcs⟩, hrest⟩ := h
    exact .node hn (ihcs hcs) (ihrest hrest)

theorem append {l l' r r' : List (Tree Node)} (hl : Alike l l') (hr : Alike r r') :
    Alike (l ++ r) (l' ++ r') := by
  induction hl with
  | nil => exact hr
  | node hkind below _ _ ih => exact .node hkind below ih
  | markup n a b _ ih => exact .markup n a b ih

theorem eq_nil_iff (h : Alike row row') : row = [] ↔ row' = [] := by
  cases h <;> simp

theorem unescaped (h : Alike row row') :
    Alike (mapAll Expansion.unescaped row) (mapAll Expansion.unescaped row') := by
  induction h with
  | nil =>
    rw [mapAll_nil]
    exact .nil
  | @node n cs cs' rest rest' hkind _ _ ihbelow ihafter =>
    rw [mapAll_cons, mapAll_cons, map_node, map_node]
    refine .node ?_ ihbelow ihafter
    rwa [(Forest.unescaped_sameRole n).kind]
  | markup n a b _ ih =>
    rw [mapAll_cons, mapAll_cons, map_node, map_node, mapAll_nil]
    exact .markup n a b ih

theorem streamOf_container {n : Node} {cs : List (Tree Node)} (hkind : n.kind ≠ "image")
    (hc : n.container = true) :
    streamOf (.node n cs) = (streamsOf cs).map fun inner => (n.inline,
      Slot.ofToken? n.token ::
        (if n.inline then inner.flatMap (·.2) else Forest.groupRuns [] inner) ++
        [Slot.ofToken? n.closing]) := by
  rw [streamOf, if_neg (by simpa using hkind), if_pos hc]
  cases streamsOf cs <;> rfl

theorem streamsOf_eq_ok {x : Tree Node} {rest : List (Tree Node)} {parts : List (Bool × List Slot)}
    (h : streamsOf (x :: rest) = .ok parts) :
    ∃ first others, streamOf x = .ok first ∧ streamsOf rest = .ok others ∧
      parts = first :: others := by
  rw [streamsOf] at h
  cases hfirst : streamOf x with
  | error f =>
    rw [hfirst] at h
    cases h
  | ok first =>
    cases hothers : streamsOf rest with
    | error f =>
      rw [hfirst, hothers] at h
      cases h
    | ok others =>
      rw [hfirst, hothers] at h
      exact ⟨first, others, rfl, rfl, (Except.ok.inj h).symm⟩

theorem streamsOf (h : Alike row row') {parts : List (Bool × List Slot)}
    (hparts : Expansion.streamsOf row = .ok parts) :
    ∃ parts', Expansion.streamsOf row' = .ok parts' ∧ PartsAlike parts parts' := by
  induction h generalizing parts with
  | nil =>
    rw [Expansion.streamsOf] at hparts
    obtain rfl := Except.ok.inj hparts
    exact ⟨[], by rw [Expansion.streamsOf], .nil⟩
  | @node n cs cs' rest rest' hkind _ _ ihbelow ihafter =>
    obtain ⟨first, others, hfirst, hothers, rfl⟩ := streamsOf_eq_ok hparts
    obtain ⟨others', hothers', halike⟩ := ihafter hothers
    cases hc : n.container with
    | false =>
      rw [Sketch.streamOf_leaf hkind hc] at hfirst
      obtain rfl := Except.ok.inj hfirst
      exact ⟨_, Sketch.streamsOf_cons (Sketch.streamOf_leaf hkind hc) hothers',
        .cons ⟨rfl, .cons (.refl _) .nil⟩ halike⟩
    | true =>
      rw [streamOf_container hkind hc] at hfirst
      cases hinner : Expansion.streamsOf cs with
      | error f =>
        rw [hinner] at hfirst
        cases hfirst
      | ok inner =>
        rw [hinner] at hfirst
        obtain rfl := Except.ok.inj hfirst
        obtain ⟨inner', hinner', hbelow⟩ := ihbelow hinner
        have hfirst' : streamOf (.node n cs') = _ := streamOf_container hkind hc
        rw [hinner'] at hfirst'
        refine ⟨_, Sketch.streamsOf_cons hfirst' hothers', .cons ⟨rfl, ?_⟩ halike⟩
        refine .cons (.refl _) (List.rel_append ?_ (.cons (.refl _) .nil))
        cases n.inline with
        | true => exact hbelow.flatten
        | false => exact hbelow.groupRuns .nil
  | markup n a b _ ih =>
    obtain ⟨first, others, hfirst, hothers, rfl⟩ := streamsOf_eq_ok hparts
    obtain ⟨others', hothers', halike⟩ := ih hothers
    have hleaf (markup : String) : streamOf (.node (markupNode n markup) []) = _ :=
      Sketch.streamOf_leaf (by simp [markupNode]) rfl
    rw [hleaf] at hfirst
    obtain rfl := Except.ok.inj hfirst
    exact ⟨_, Sketch.streamsOf_cons (hleaf b) hothers',
      .cons ⟨rfl, .cons (.markup a b) .nil⟩ halike⟩

/-- Where the text of one anchor can be rendered, so can that of the other. -/
theorem inlineText (h : Alike row row') {text : String}
    (htext : Expansion.inlineText row = .ok text) :
    ∃ text', Expansion.inlineText row' = .ok text' := by
  obtain ⟨parts, hparts, hrender⟩ := inlineText_eq_ok htext
  obtain ⟨parts', hparts', halike⟩ := h.unescaped.streamsOf hparts
  have hok : (Slot.renderInline (parts'.flatMap (·.2))).isOk = true := by
    rw [Slot.renderInline] at hrender ⊢
    rw [← Slot.renderInlineAfter_isOk halike.flatten none none, hrender]
    rfl
  obtain ⟨text', hrender'⟩ := exists_of_isOk hok
  refine ⟨text', ?_⟩
  unfold Expansion.inlineText
  rw [hparts']
  exact hrender'

end Alike

/-- Tallies that have counted the same sections of the file. -/
structure Tally.Agrees (tally tally' : Tally) : Prop where
  count : tally'.count = tally.count
  declared : tally'.declared = tally.declared

section Row

variable {w : Wording} {path : String} {place : Place} {tally tally' tally₁ tally₂ : Tally}
  {n text : Node} {d : Directive} {row row' out : List (Tree Node)} {names : List String}

theorem Tally.Agrees.declares (h : tally.Agrees tally') (h₁ : Declares tally tally₁ names)
    (h₂ : Declares tally' tally₂ names) : tally₁.Agrees tally₂ := by
  constructor
  · rw [h₂.count, h₁.count, h.count]
  · rw [h₂.declared, h₁.declared, h.declared]

/-- A section that begins in one run begins in the other, unless its name is taken there. -/
theorem expandSection_alike (hagrees : tally.Agrees tally')
    (h : expandSection w path place tally n text d = (tally₁, .ok out))
    (hnew : d.identifier ∉ tally'.taken) :
    expandSection w path place tally' n text d = (tally'.declare d.identifier, .ok out) := by
  obtain ⟨hnone, -, rfl⟩ := expandSection_eq_ok h
  have hnone' : declarationProblem? place tally' d = none := by
    unfold declarationProblem? at hnone ⊢
    rw [hagrees.count, hagrees.declared]
    split_ifs at hnone with hbefore hname hused
    rw [if_neg hbefore, if_neg hname, if_neg (by simp_all)]
  have hnode : sectionNode w tally' n d = sectionNode w tally n d := by
    rw [sectionNode, sectionNode, hagrees.count]
  unfold expandSection
  rw [hnone']
  dsimp only
  rw [hnode]

private theorem expand_alike_of_row
    (hrow : ∀ {place : Place} {tally tally' tally₁ : Tally} {out : List (Tree Node)},
      tally.Agrees tally' → expandAll w path place tally row = (tally₁, .ok out) →
      (∀ x ∈ declarationsAll place.parentKind row, x ∉ tally'.taken) →
      ∃ tally₂ out', expandAll w path place tally' row = (tally₂, .ok out') ∧ Alike out out')
    (hleaf : n.container = false → row = []) (hagrees : tally.Agrees tally')
    (h : expand w path place tally (.node n row) = (tally₁, .ok out))
    (hnew : ∀ x ∈ declarations place.parentKind (.node n row), x ∉ tally'.taken) :
    ∃ tally₂ out', expand w path place tally' (.node n row) = (tally₂, .ok out') ∧
      Alike out out' := by
  cases expand_eq_ok h with
  | image hkind himage =>
    rw [expand_image hkind, himage]
    obtain ⟨markup, rfl⟩ := expandImage_eq_ok himage
    exact ⟨tally', _, rfl, .markup n _ _ .nil⟩
  | scanned hc hs hsegments =>
    rw [expand_scanned hc hs, hsegments]
    exact ⟨tally', out, rfl, .refl fun m hm => (segments_settled hsegments hc hs m hm).image⟩
  | plain hkind hc hs =>
    rw [expand_plain hkind hc hs, hleaf hc]
    exact ⟨tally', _, rfl, .node hkind .nil .nil⟩
  | opening hdecl =>
    rw [expand_section hdecl] at h ⊢
    rw [declarations, gather_section hdecl, List.forall_mem_singleton] at hnew
    refine ⟨_, _, expandSection_alike hagrees h hnew, .refl fun m hm => ?_⟩
    rw [valuesAll_cons, values_node, valuesAll_nil, List.append_nil, List.mem_singleton] at hm
    rw [hm]
    simp [sectionNode]
  | stays hkind hc hdecl hlink hbelow =>
    rw [declarations, gather_container hkind hc hdecl, List.append_nil] at hnew
    obtain ⟨tally₂, inner', hbelow', halike⟩ := hrow hagrees hbelow hnew
    rw [expand_container hkind hc hdecl, hbelow', andThen_ok, expandOver_stays hlink]
    exact ⟨tally₂, _, rfl, .node hkind halike .nil⟩
  | anchor hkind hc hdecl hanchor hbelow htext =>
    have himage : n.kind ≠ "image" := by
      rw [hkind]
      decide
    rw [declarations, gather_container himage hc hdecl, List.append_nil] at hnew
    obtain ⟨tally₂, inner', hbelow', halike⟩ := hrow hagrees hbelow hnew
    obtain ⟨text', htext'⟩ := halike.inlineText htext
    rw [expand_container himage hc hdecl, hbelow', andThen_ok, expandOver_anchor hkind hanchor htext']
    exact ⟨_, _, rfl, .markup n _ _ .nil⟩

/-- What one run does with a row another one does, unless a name is taken there. -/
theorem expandAll_alike (hformed : Formed row) (hagrees : tally.Agrees tally')
    (h : expandAll w path place tally row = (tally₁, .ok out))
    (hnew : ∀ x ∈ declarationsAll place.parentKind row, x ∉ tally'.taken) :
    ∃ tally₂ out', expandAll w path place tally' row = (tally₂, .ok out') ∧ Alike out out' := by
  induction hformed generalizing place tally tally' tally₁ out with
  | nil =>
    rw [expandAll] at h ⊢
    cases h
    exact ⟨tally', [], rfl, .nil⟩
  | @cons n cs rest hleaf _ _ _ ihbelow ihafter =>
    rw [declarationsAll_cons, List.forall_mem_append] at hnew
    rw [expandAll_cons] at h ⊢
    obtain ⟨tally₃, out₁, hfirst, h⟩ := andThen_eq_ok h
    obtain ⟨tally₄, out₂, hrest, h⟩ := andThen_eq_ok h
    cases h
    obtain ⟨tally₅, out₁', hfirst', halike⟩ :=
      expand_alike_of_row ihbelow hleaf hagrees hfirst hnew.1
    have hdeclares := expand_declares hfirst'
    obtain ⟨tally₆, out₂', hrest', halike'⟩ :=
      ihafter (hagrees.declares (expand_declares hfirst) hdeclares) hrest
        (by rw [hdeclares.taken]; exact hnew.2)
    rw [hfirst', andThen_ok, hrest', andThen_ok]
    exact ⟨tally₆, _, rfl, halike.append halike'⟩

end Row

end Hyperstory
