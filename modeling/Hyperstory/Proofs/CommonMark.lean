import Hyperstory.Proofs.Emitted
import Hyperstory.Proofs.Faults

/-!
Streams over the tokens of CommonMark cannot break the compiler. Whatever such a stream holds, compiling
it gives a page or a problem that is reported to the author, with one exception: a fence whose class
is a number, to which no language can be added.
-/
namespace Hyperstory

open Hyperstory.Tree Expansion

namespace Markdown

/-- The kinds of tokens that close a container. -/
def closings : List String :=
  ["heading_close", "paragraph_close", "blockquote_close", "ordered_list_close",
    "bullet_list_close", "list_item_close", "link_close", "em_close", "strong_close"]

/-- The kinds of tokens with nothing below them. -/
def leaves : List String :=
  ["text", "text_special", "code_inline", "code_block", "fence", "html_block", "html_inline",
    "softbreak", "hardbreak", "hr"]

/-- Well-nested streams over the tokens of CommonMark. The destinations of links and images are texts,
if they have any. -/
inductive Stream : List Token → Prop where
  | nil : Stream []
  | leaf {tok : Token} {rest : List Token} (hnesting : tok.nesting = .alone)
      (hkind : tok.kind ∈ leaves) (after : Stream rest) : Stream (tok :: rest)
  | image {tok : Token} {rest : List Token} (hnesting : tok.nesting = .alone)
      (hkind : tok.kind = "image") (hsource : AttrValue.IsText (tok.attr? "src"))
      (inside : Stream tok.kids) (after : Stream rest) : Stream (tok :: rest)
  | inline {tok : Token} {rest : List Token} (hnesting : tok.nesting = .alone)
      (hkind : tok.kind = "inline") (inside : Stream tok.kids) (after : Stream rest) :
      Stream (tok :: rest)
  | container {opening closing : Token} {content rest : List Token} {within : Bool}
      (hopens : opening.nesting = .opens) (hopening : opening.kind ∈ openings within)
      (href : opening.kind = "link_open" → AttrValue.IsText (opening.attr? "href"))
      (hcloses : closing.nesting = .closes) (hclosing : closing.kind ∈ closings)
      (inside : Stream content) (after : Stream rest) :
      Stream (opening :: (content ++ closing :: rest))

end Markdown

section Building

variable {P : Fault → Prop} {tok opening closing : Token} {inline : Bool} {line : Option Int}

theorem opensContainer {within : Bool} (hopens : opening.nesting = .opens)
    (hkind : opening.kind ∈ Markdown.openings within) : opening.OpensContainer := by
  have hkinds : ∀ within, ∀ kind ∈ Markdown.openings within, kind ≠ "inline" ∧
      kind ≠ "text_special" ∧ ({ kind, nesting := .opens } : Token).nodeKind ≠ "image" := by decide
  obtain ⟨hinline, hspecial, himage⟩ := hkinds within _ hkind
  refine ⟨hopens, hinline, hspecial, ?_⟩
  unfold Token.nodeKind at himage ⊢
  rw [hopens]
  exact himage

theorem toNode_destination_link (hkind : tok.kind = "link_open") :
    (tok.toNode inline line).destination = tok.attr? "href" := by
  simp [Token.toNode, hkind]

theorem toNode_destination_image (hkind : tok.kind = "image") :
    (tok.toNode inline line).destination = tok.attr? "src" := by
  simp [Token.toNode, hkind]

theorem sound_image (hnesting : tok.nesting = .alone) (hkind : tok.kind = "image")
    (hsource : AttrValue.IsText (tok.attr? "src")) : Sound P (tok.toNode inline line) := by
  have himage : (tok.toNode inline line).kind = "image" := by simp [Token.nodeKind, hnesting, hkind]
  refine ⟨fun h => ?_, fun _ => ?_, fun h => absurd himage h⟩
  · rw [himage] at h
    exact absurd h (by decide)
  · rwa [toNode_destination_image hkind]

/-- The tokens that stand in a stream fail only in a way that `P` allows. -/
def Allows (P : Fault → Prop) (tok : Token) : Prop :=
  tok.kind = "fence" → ∀ f, Slot.fenceAttrs tok = .error f → P f

theorem plain_leaf (hkind : tok.kind ∈ Markdown.leaves) (hP : Allows P tok) :
    Slot.Plain P tok := by
  have hkinds : ∀ kind ∈ Markdown.leaves, kind ≠ "image" ∧ kind ≠ "inline" := by decide
  obtain ⟨himage, hinline⟩ := hkinds _ hkind
  exact ⟨himage, hinline, hP⟩

theorem sound_leaf (hnesting : tok.nesting = .alone) (hkind : tok.kind ∈ Markdown.leaves)
    (hP : Allows P tok) : Sound P (tok.toNode inline line) := by
  have hkinds : ∀ kind ∈ Markdown.leaves, kind ≠ "image" ∧
      ({ kind } : Token).nodeKind ≠ "image" ∧ ({ kind } : Token).nodeKind ≠ "link" := by decide
  obtain ⟨hne, himage, hlink⟩ := hkinds _ hkind
  have hnode : (tok.toNode inline line).kind = ({ kind := tok.kind } : Token).nodeKind := by
    rw [Token.toNode_kind, Token.nodeKind, hnesting]
    rfl
  have hc : (tok.toNode inline line).container = false := by simp [hnesting, hne]
  have hspecial : tok.kind = "text_special" → (tok.toNode inline line).token =
      some { kind := "text", content := tok.writtenText } ∧
        (tok.toNode inline line).literal.isSome = true := by
    intro h
    constructor <;> simp [Token.toNode, h]
  rw [← hnode] at himage hlink
  refine ⟨fun _ => ?_, fun h => ?_, fun _ => ⟨himage, fun _ => .inr ?_, fun h => ?_⟩⟩
  · by_cases h : tok.kind = "text_special"
    · exact (hspecial h).2
    · rw [Token.toNode_literal inline line h hc]
      rfl
  · rcases h with h | h
    · exact absurd h hlink
    · exact absurd h himage
  · by_cases h : tok.kind = "text_special"
    · exact ⟨_, (hspecial h).1, by simp, by simp, by simp⟩
    · exact ⟨tok, Token.toNode_token inline line h, plain_leaf hkind hP⟩
  · rw [hc] at h
    cases h

theorem plain_opening {within : Bool} (hopening : opening.kind ∈ Markdown.openings within) :
    Slot.Plain P opening := by
  have hkinds : ∀ within, ∀ kind ∈ Markdown.openings within,
      kind ≠ "image" ∧ kind ≠ "inline" ∧ kind ≠ "fence" := by decide
  obtain ⟨himage, hinline, hfence⟩ := hkinds within _ hopening
  exact ⟨himage, hinline, fun h => absurd h hfence⟩

theorem plain_closing (hclosing : closing.kind ∈ Markdown.closings) : Slot.Plain P closing := by
  have hkinds : ∀ kind ∈ Markdown.closings, kind ≠ "image" ∧ kind ≠ "inline" ∧ kind ≠ "fence" := by
    decide
  obtain ⟨himage, hinline, hfence⟩ := hkinds _ hclosing
  exact ⟨himage, hinline, fun h => absurd h hfence⟩

theorem sound_container {within : Bool} (hopens : opening.nesting = .opens)
    (hopening : opening.kind ∈ Markdown.openings within)
    (href : opening.kind = "link_open" → AttrValue.IsText (opening.attr? "href"))
    (hclosing : closing.kind ∈ Markdown.closings) :
    Sound P { opening.toNode inline line with closing := some closing } := by
  have hkinds : ∀ within, ∀ kind ∈ Markdown.openings within,
      ({ kind, nesting := .opens } : Token).nodeKind ≠ "text" ∧
        (({ kind, nesting := .opens } : Token).nodeKind = "link" → kind = "link_open") := by decide
  obtain ⟨htext, hlink⟩ := hkinds within _ hopening
  have hopensContainer := opensContainer hopens hopening
  have hnode : (opening.toNode inline line).kind =
      ({ kind := opening.kind, nesting := .opens } : Token).nodeKind := by
    rw [Token.toNode_kind, Token.nodeKind, hopens]
    rfl
  have himage : (opening.toNode inline line).kind ≠ "image" := by
    rw [Token.toNode_kind]
    exact hopensContainer.nodeKind_ne_image
  have hc : (opening.toNode inline line).container = true := by simp [hopens]
  refine ⟨fun h => absurd (hnode.symm.trans h) htext, fun h => ?_,
    fun _ => ⟨himage, fun h => ?_, fun _ => ?_⟩⟩
  · rcases h with h | h
    · have hkind := hlink (hnode.symm.trans h)
      show AttrValue.IsText (opening.toNode inline line).destination
      rw [toNode_destination_link hkind]
      exact href hkind
    · exact absurd h himage
  · exact absurd (hc.symm.trans h) (by decide)
  · exact ⟨opening, closing, Token.toNode_token inline line hopensContainer.kind_ne_special, rfl,
      plain_opening hopening, plain_closing hclosing⟩

end Building

namespace Forest

/-- Nodes were added, and they are sound; those that were there are as they were. -/
structure Grows (P : Fault → Prop) (t t' : Forest) : Prop where
  size_le : t.size ≤ t'.size
  old : ∀ i : Nat, i < t.size → t'.label i = t.label i
  new : ∀ i : Nat, t.size ≤ i → i < t'.size → Sound P (t'.label i)

namespace Grows

variable {P : Fault → Prop} {t t' t'' : Forest} {top : NodeId} {tok opening closing : Token}
  {inline : Bool} {line : Option Int}

theorem refl (t : Forest) : Grows P t t := ⟨le_rfl, fun _ _ => rfl, fun _ h h' => by omega⟩

theorem trans (h : Grows P t t') (h' : Grows P t' t'') : Grows P t t'' := by
  refine ⟨h.size_le.trans h'.size_le, fun i hi => ?_, fun i hi hi' => ?_⟩
  · rw [h'.old i (hi.trans_le h.size_le), h.old i hi]
  · by_cases hlt : i < t'.size
    · rw [h'.old i hlt]
      exact h.new i hi hlt
    · exact h'.new i (by omega) hi'

theorem hang (h : Sound P (tok.toNode inline line)) : Grows P t (t.hang top tok inline line) := by
  have hsize : (t.hang top tok inline line).size = t.size + 1 := by simp [Forest.hang]
  refine ⟨by omega, fun i hi => ?_, fun i hi hi' => ?_⟩
  · exact (t.label_hang top tok inline line i).trans (if_neg hi.ne)
  · obtain rfl : i = t.size := by omega
    have hlabel : (t.hang top tok inline line).label t.size = tok.toNode inline line :=
      (t.label_hang top tok inline line t.size).trans (if_pos rfl)
    rwa [hlabel]

theorem close (h : Grows P (t.hang top opening inline line) t')
    (hsound : Sound P { opening.toNode inline line with closing := some closing }) :
    Grows P t (t'.modify t.size fun n => { n with closing := some closing }) := by
  have hsize : (t.hang top opening inline line).size = t.size + 1 := by simp [Forest.hang]
  have hle := h.size_le
  refine ⟨by rw [size_modify]; omega, fun i hi => ?_, fun i hi hi' => ?_⟩
  · rw [label_modify, if_neg fun hself => hi.ne' hself.1, h.old i (by omega)]
    exact (t.label_hang top opening inline line i).trans (if_neg hi.ne)
  · rw [size_modify] at hi'
    rw [label_modify]
    split_ifs with hself
    · obtain ⟨rfl, -⟩ := hself
      have hlabel : t'.label t.size = opening.toNode inline line :=
        (h.old t.size (by omega)).trans
          ((t.label_hang top opening inline line t.size).trans (if_pos rfl))
      show Sound P { t'.label t.size with closing := some closing }
      rwa [hlabel]
    · have hne : t.size ≠ i := fun heq => hself ⟨heq, hi'⟩
      have hlt : t.size < i := lt_of_le_of_ne hi hne
      exact h.new i (by omega) hi'

end Grows

end Forest

/-- Wherever the tokens are read, they add sound nodes, and what follows them is read as if they were
not there. -/
def Settles (P : Fault → Prop) (tokens : List Token) : Prop :=
  ∀ (t : Forest) (top : NodeId) (below : List NodeId) (inline : Bool) (line : Option Int),
    ∃ t' line', Forest.Grows P t t' ∧ ∀ more,
      t.attach (top :: below) (tokens ++ more) inline line =
        t'.attach (top :: below) more inline line'

namespace Settles

variable {P : Fault → Prop} {tok opening closing : Token} {tokens rest : List Token}

theorem content (h : Settles P tokens) (t : Forest) (top : NodeId) (inline : Bool)
    (line : Option Int) :
    ∃ t', Forest.Grows P t t' ∧ t.attach [top] tokens inline line = .ok t' := by
  obtain ⟨t', line', hgrows, hattach⟩ := h t top [] inline line
  have hall := hattach []
  rw [List.append_nil, Forest.attach] at hall
  exact ⟨t', hgrows, hall⟩

theorem nil : Settles P [] := fun t _ _ _ line => ⟨t, line, .refl t, fun _ => rfl⟩

theorem append (h : Settles P tokens) (h' : Settles P rest) : Settles P (tokens ++ rest) := by
  intro t top below inline line
  obtain ⟨t₁, line₁, hgrows, hattach⟩ := h t top below inline line
  obtain ⟨t₂, line₂, hgrows', hattach'⟩ := h' t₁ top below inline line₁
  refine ⟨t₂, line₂, hgrows.trans hgrows', fun more => ?_⟩
  rw [List.append_assoc, hattach, hattach']

theorem leaf (hnesting : tok.nesting = .alone) (hkind : tok.kind ∈ Markdown.leaves)
    (hP : Allows P tok) : Settles P [tok] := by
  have hkinds : ∀ kind ∈ Markdown.leaves, kind ≠ "inline" ∧ kind ≠ "image" := by decide
  obtain ⟨hinline, himage⟩ := hkinds _ hkind
  intro t top below inline line
  exact ⟨_, _, .hang (sound_leaf hnesting hkind hP),
    fun more => t.attach_leaf top below more inline line hnesting hinline himage⟩

theorem image (hnesting : tok.nesting = .alone) (hkind : tok.kind = "image")
    (hsource : AttrValue.IsText (tok.attr? "src")) (hkids : Settles P tok.kids) :
    Settles P [tok] := by
  intro t top below inline line
  obtain ⟨t', hgrows, hattach⟩ := hkids.content (t.hang top tok inline line) t.size true line
  refine ⟨t', tok.lineAfter line, .trans (.hang (sound_image hnesting hkind hsource)) hgrows,
    fun more => ?_⟩
  rw [List.singleton_append, t.attach_image top below more inline line hnesting hkind, hattach]
  rfl

theorem inline (hnesting : tok.nesting = .alone) (hkind : tok.kind = "inline")
    (hkids : Settles P tok.kids) : Settles P [tok] := by
  intro t top below inline line
  obtain ⟨t', hgrows, hattach⟩ := hkids.content t top true (tok.map.map fun m => m.1 + 1)
  refine ⟨t', line, hgrows, fun more => ?_⟩
  rw [List.singleton_append, t.attach_inline top below more inline line hnesting hkind, hattach]
  rfl

theorem container {within : Bool} (hopens : opening.nesting = .opens)
    (hopening : opening.kind ∈ Markdown.openings within)
    (href : opening.kind = "link_open" → AttrValue.IsText (opening.attr? "href"))
    (hcloses : closing.nesting = .closes) (hclosing : closing.kind ∈ Markdown.closings)
    (h : Settles P tokens) : Settles P (opening :: (tokens ++ [closing])) := by
  intro t top below inline line
  obtain ⟨t', line', hgrows, hattach⟩ := h (t.hang top opening inline line) t.size (top :: below)
    inline (opening.lineAfter line)
  refine ⟨_, line', hgrows.close (sound_container hopens hopening href hclosing), fun more => ?_⟩
  rw [List.cons_append, List.append_assoc, List.singleton_append,
    t.attach_opens top below _ inline line (opensContainer hopens hopening), hattach,
    Forest.attach_closes _ _ _ _ _ _ hcloses]

end Settles

theorem Markdown.Stream.settles {P : Fault → Prop} {tokens : List Token} {inline : Bool}
    (h : Markdown.Stream tokens)
    (hP : ∀ within tok, Stands inline tokens within tok → Allows P tok) : Settles P tokens := by
  induction h generalizing inline with
  | nil => exact .nil
  | leaf hnesting hkind _ ih =>
    exact (Settles.leaf hnesting hkind (hP _ _ (.here (by simp)))).append
      (ih fun _ _ htok => hP _ _ htok.tail)
  | image hnesting hkind hsource _ _ ihinside ihafter =>
    exact (Settles.image hnesting hkind hsource
      (ihinside fun _ _ htok => hP _ _ (.head_kids (.inr hkind) htok))).append
        (ihafter fun _ _ htok => hP _ _ htok.tail)
  | inline hnesting hkind _ _ ihinside ihafter =>
    exact (Settles.inline hnesting hkind
      (ihinside fun _ _ htok => hP _ _ (.head_kids (.inl hkind) htok))).append
        (ihafter fun _ _ htok => hP _ _ htok.tail)
  | container hopens hopening href hcloses hclosing _ _ ihinside ihafter =>
    have hcontent := ihinside fun _ _ htok => hP _ _ (htok.mono (by simp))
    have hrest := ihafter fun _ _ htok => hP _ _ (htok.mono fun x hx => by simp [hx])
    have h := (Settles.container hopens hopening href hcloses hclosing hcontent).append hrest
    simpa using h

/-! ### Joined texts -/

namespace Forest

/-- Every text has words. -/
def Worded (t : Forest) : Prop :=
  ∀ i, (t.label i).kind = "text" → (t.label i).literal.isSome = true

variable {t : Forest}

theorem mergeStep_worded (h : t.Worded) (previous : Option NodeId) (i : NodeId) :
    (∃ p, (t.mergeStep previous i).2 = .ok p) ∧ (t.mergeStep previous i).1.Worded := by
  unfold mergeStep
  cases previous with
  | none => exact ⟨⟨_, rfl⟩, h⟩
  | some p =>
    dsimp only
    split_ifs with hkinds
    · have htext : (t.label p).kind = "text" :=
        beq_iff_eq.mp (Bool.and_eq_true_iff.mp hkinds).2
      obtain ⟨s, hs⟩ := Option.isSome_iff_exists.mp (h p htext)
      rw [show (t.node p).literal = some s from hs]
      refine ⟨⟨_, rfl⟩, fun j hj => ?_⟩
      rw [label_unlink, label_modify] at hj ⊢
      split_ifs at hj ⊢
      · rfl
      · exact h j hj
    · exact ⟨⟨_, rfl⟩, h⟩

theorem mergeFrom_worded (h : t.Worded) (fuel : Nat) (previous : Option NodeId) (c : Cursor) :
    (mergeFrom fuel previous c t).2 = none ∧ (mergeFrom fuel previous c t).1.Worded := by
  induction fuel generalizing t previous c with
  | zero => exact ⟨rfl, h⟩
  | succ fuel ih =>
    unfold mergeFrom
    cases hnext : c.next? t with
    | none => exact ⟨rfl, h⟩
    | some vc =>
      obtain ⟨v, c'⟩ := vc
      obtain ⟨⟨p, hp⟩, hworded⟩ := mergeStep_worded h previous v.node
      dsimp only
      cases hstep : t.mergeStep previous v.node with
      | mk t₁ result =>
        rw [hstep] at hp hworded
        cases hp
        exact ih hworded p c'

end Forest

/-- Words apart, a sound node stays sound. -/
theorem Sound.of_label {P : Fault → Prop} {n m : Node} (h : Sound P n)
    (heq : { m with literal := n.literal } = n)
    (htext : m.kind = "text" → m.literal.isSome = true) : Sound P m := by
  rw [← heq] at h
  exact ⟨htext, h.destination, fun hkind =>
    ⟨(h.ready hkind).image, (h.ready hkind).leaf, (h.ready hkind).container⟩⟩

namespace Markdown.Stream

variable {P : Fault → Prop} {tokens : List Token}

/-- The tree of a stream has joined texts, and all that stands in it is sound. -/
theorem exists_joins (h : Stream tokens)
    (hP : ∀ within tok, Stands false tokens within tok → Allows P tok) :
    ∃ t, Compiler.Joins tokens t ∧ ∀ n ∈ valuesAll (t.tree 0).row, Sound P n := by
  obtain ⟨raw, hgrows, hraw⟩ := (h.settles hP).content
    (Forest.add {} { kind := "document", container := true }).1 0 false none
  have hraw : Forest.ofTokens tokens = .ok raw := hraw
  obtain ⟨kids, hd⟩ := (Forest.ofTokens_grown (Q := fun _ _ => True) hraw
    fun _ _ _ => trivial).document
  have hsound : ∀ i : Nat, 0 < i → i < raw.size → Sound P (raw.label i) := hgrows.new
  have hworded : raw.Worded := by
    intro i hkind
    by_cases hzero : i = 0
    · subst hzero
      rw [hd.rootKind] at hkind
      exact absurd hkind (by decide)
    · by_cases hi : i < raw.size
      · exact (hsound i (Nat.pos_of_ne_zero hzero) hi).text hkind
      · rw [raw.label_of_size_le (Nat.not_lt.mp hi)] at hkind
        exact absurd hkind (by decide)
  obtain ⟨hnone, hworded'⟩ := Forest.mergeFrom_worded hworded raw.passBound none (.start 0)
  obtain ⟨t, fault, hmerge⟩ : ∃ t fault, raw.mergeText 0 = (t, fault) := ⟨_, _, rfl⟩
  rw [show Forest.mergeFrom raw.passBound none (.start 0) raw = (t, fault) from hmerge]
    at hnone hworded'
  dsimp only at hnone hworded'
  subst hnone
  obtain ⟨kids', hd', hthinned⟩ := Forest.mergeText_document hd hmerge
  obtain ⟨cs, hvalues, hcs⟩ := hd'.linked.exists_row (kids' 0)
  refine ⟨t, ⟨raw, hraw, hmerge⟩, fun n hn => ?_⟩
  rw [hd'.linked.tree_eq (.cons hvalues.symm hcs .nil), row_node, valuesAll_mapAll] at hn
  obtain ⟨i, hi, rfl⟩ := List.mem_map.mp hn
  have hbelow : ∀ c : Nat, c ∈ cs.map value → 0 < c ∧ c < t.size := fun c hc =>
    hd'.linked.later 0 c (hvalues ▸ hc)
  have hpos := hd'.linked.lt_of_mem_valuesAll hcs (fun c hc => (hbelow c hc).1) hi
  have hlt := hd'.linked.lt_size_of_mem_valuesAll hcs (fun c hc => (hbelow c hc).2) hi
  rw [hthinned.size] at hlt
  exact (hsound i hpos hlt).of_label (hthinned.label i) (hworded' i)

end Markdown.Stream

theorem Slot.fault_of_fenceAttrs {tok : Token} {f : Fault} (h : fenceAttrs tok = .error f) :
    f = .numericAttr ∧ ¬ AttrValue.IsText (tok.attr? "class") := by
  unfold fenceAttrs at h
  dsimp only at h
  split_ifs at h
  unfold Attrs.join at h
  split at h
  · cases h
  · rename_i v hne hlookup
    cases h
    refine ⟨rfl, fun htext => ?_⟩
    obtain ⟨s, rfl⟩ := htext v hlookup
    exact hne s rfl
  · cases h

namespace Compiler

variable {P : Fault → Prop} {c : Compiler} {path : String} {tokens : List Token} {t : Forest}

theorem page_ends {kids : NodeId → List NodeId} (hd : t.Document kids)
    (h : ∀ n ∈ valuesAll (t.tree 0).row, Ready P n) :
    (∃ html, page (closed t) = .ok html) ∨ ∃ f, page (closed t) = .error (.fault f) ∧ P f := by
  obtain ⟨⟨kids', hlinked⟩, htree⟩ := closed_tree hd
  have hrow : ∀ n ∈ valuesAll ((closed t).tree 0).row, Ready P n := by
    rw [htree, row_node, valuesAll_append]
    have hclosing : Ready P closingNode :=
      ⟨by decide, fun _ => .inl ⟨rfl, rfl⟩, fun h => by cases h⟩
    exact List.forall_mem_append.mpr ⟨ready_mapAll_unescaped h, by simpa using hclosing⟩
  obtain ⟨parts, hparts, hsafe⟩ := exists_streamsOf hrow
  rw [page_eq hlinked, hparts]
  cases hrender : Slot.render (Forest.groupRuns [] parts) with
  | ok html => exact .inl ⟨html, by simp [bind, Except.bind, hrender, Except.mapError]⟩
  | error f =>
    exact .inr ⟨f, by simp [bind, Except.bind, hrender, Except.mapError],
      Slot.fault_of_renderAfter (safe_groupRuns (by simp) hsafe) hrender⟩

theorem finish_ends {kids : NodeId → List NodeId} (hd : t.Document kids)
    (h : ∀ n ∈ valuesAll (t.tree 0).row, Ready P n) (c : Compiler) (path : String) :
    (∃ html, (c.finish path t).outcome = .ok html) ∨
      (∃ d, (c.finish path t).outcome = .error (.problem d)) ∨
      ∃ f, (c.finish path t).outcome = .error (.fault f) ∧ P f := by
  cases hrow : (t.tree 0).row with
  | nil =>
    rw [finish_of_nil hd hrow]
    exact .inl ⟨"", rfl⟩
  | cons x rest =>
    by_cases hcount : c.sectionCount = 0
    · rw [finish_of_no_section hd hrow hcount]
      exact .inr (.inl ⟨_, rfl⟩)
    · have hpage : (c.finish path t).outcome = page (closed t) :=
        (finish_of_ne_nil hd (by simp [hrow]) hcount).1
      rw [hpage]
      exact (page_ends hd h).imp_right .inr

/-- Compiling a file whose tree is sound gives a page, or a problem, or a fault that `P` allows. -/
theorem compileTokens_ends (hjoins : Joins tokens t)
    (hsound : ∀ n ∈ valuesAll (t.tree 0).row, Sound P n) (c : Compiler) (path : String) :
    (∃ html, (c.compileTokens path tokens).outcome = .ok html) ∨
      (∃ d, (c.compileTokens path tokens).outcome = .error (.problem d)) ∨
      ∃ f, (c.compileTokens path tokens).outcome = .error (.fault f) ∧ P f := by
  obtain ⟨final, hall, herror, hok⟩ := hjoins.all_eq path c.tally
  have hends := expandAll_ends (w := .standard) hjoins.formed hsound path
    { parentKind := "document" } c.tally
  cases hresult : (expandAll .standard path { parentKind := "document" } c.tally
      (t.tree 0).row).2 with
  | error e =>
    rw [hresult] at hends
    rw [herror e hresult] at hall
    obtain ⟨houtcome, -⟩ := compileTokens_of_error hjoins hall
    cases e with
    | problem d => exact .inr (.inl ⟨d, houtcome⟩)
    | fault f => exact .inr (.inr ⟨f, houtcome, hends⟩)
  | ok out =>
    rw [hresult] at hends
    obtain ⟨t', kids', rfl, hd', htree⟩ := hok out hresult
    obtain ⟨houtcome, -⟩ := compileTokens_of_ok hjoins hall
    rw [houtcome]
    refine finish_ends hd' ?_ _ path
    rw [htree]
    exact hends

/-- Compiling a stream over the tokens of CommonMark gives a page or a problem that is reported to the
author. Nothing else happens, unless a fence in the stream has a class that is no text. -/
theorem compileTokens_page_or_problem (h : Markdown.Stream tokens) (c : Compiler) (path : String) :
    (∃ html, (c.compileTokens path tokens).outcome = .ok html) ∨
      (∃ d, (c.compileTokens path tokens).outcome = .error (.problem d)) ∨
      ((c.compileTokens path tokens).outcome = .error (.fault .numericAttr) ∧
        ∃ within tok, Stands false tokens within tok ∧ tok.kind = "fence" ∧
          ¬ AttrValue.IsText (tok.attr? "class")) := by
  obtain ⟨t, hjoins, hsound⟩ := h.exists_joins
    (P := fun f => f = .numericAttr ∧ ∃ within tok, Stands false tokens within tok ∧
      tok.kind = "fence" ∧ ¬ AttrValue.IsText (tok.attr? "class")) fun within tok hstands hkind f hf =>
    let ⟨hnumeric, hclass⟩ := Slot.fault_of_fenceAttrs hf
    ⟨hnumeric, within, tok, hstands, hkind, hclass⟩
  rcases compileTokens_ends hjoins hsound c path with h | h | ⟨f, hf, rfl, hfence⟩
  · exact .inl h
  · exact .inr (.inl h)
  · exact .inr (.inr ⟨hf, hfence⟩)

/-- A section with a link, an image and a fence. -/
def fencedStory : List Token :=
  let image : Token :=
    { kind := "image", tag := "img", attrs := [("src", "x.png")], children := some (textTokens "x") }
  paragraphTokens (textTokens "\x7b\x7bA\x7d\x7d") (some (0, 1)) ++
    paragraphTokens (linkTokens [image] "\x7b@B\x7d") ++
    [{ kind := "fence", tag := "code", attrs := [("class", "k")], content := "x", info := "py"
       block := true }]

theorem stream_paragraph {inlines rest : List Token} (map : Option (Int × Int))
    (h : Markdown.Stream inlines) (hrest : Markdown.Stream rest) :
    Markdown.Stream (paragraphTokens inlines map ++ rest) :=
  @Markdown.Stream.container _ _ [_] _ false rfl (by simp [Markdown.openings])
    (fun h => absurd h (by simp)) rfl (by decide) (.inline rfl rfl h .nil) hrest

theorem stream_textTokens (text : String) : Markdown.Stream (textTokens text) :=
  .leaf rfl (by simp [Markdown.leaves]) .nil

theorem stream_fencedStory : Markdown.Stream fencedStory := by
  have htext : ∀ s : String, AttrValue.IsText (some (.text s)) := by
    rintro s v ⟨⟩
    exact ⟨s, rfl⟩
  refine stream_paragraph _ (stream_textTokens _) (stream_paragraph _ ?_ (.leaf rfl (by decide) .nil))
  exact @Markdown.Stream.container _ _ [_] _ true rfl (by decide) (fun _ => htext _) rfl (by decide)
    (.image rfl rfl (htext _) (stream_textTokens _) .nil) .nil

theorem compileTokens_page_or_problem_fencedStory :
    Markdown.Stream fencedStory ∧
      ((∃ html, (({} : Compiler).compileTokens "s.md" fencedStory).outcome = .ok html) ∨
        (∃ d, (({} : Compiler).compileTokens "s.md" fencedStory).outcome = .error (.problem d)) ∨
        ((({} : Compiler).compileTokens "s.md" fencedStory).outcome = .error (.fault .numericAttr) ∧
          ∃ within tok, Stands false fencedStory within tok ∧ tok.kind = "fence" ∧
            ¬ AttrValue.IsText (tok.attr? "class"))) :=
  ⟨stream_fencedStory, compileTokens_page_or_problem stream_fencedStory {} "s.md"⟩

/-- A section with a fence whose class is a number. -/
def numberedFence : List Token :=
  paragraphTokens (textTokens "\x7b\x7bA\x7d\x7d") (some (0, 1)) ++
    [{ kind := "fence", tag := "code", attrs := [("class", .whole 5)], content := "x", info := "py"
       block := true }]

/-- No word can be added to a number: such a fence breaks the compiler. -/
theorem numberedFence_faulty :
    Markdown.Stream numberedFence ∧
      (({ debug := true } : Compiler).compileTokens "s.md" numberedFence).outcome =
        .error (.fault .numericAttr) := by
  refine ⟨?_, by decide +kernel⟩
  exact stream_paragraph _ (stream_textTokens _) (.leaf rfl (by decide) .nil)

end Compiler

end Hyperstory
