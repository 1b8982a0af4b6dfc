import Hyperstory.Proofs.Recursion

/-! Markup in which the names of numbered links are left open, and how it becomes part of other
markup. -/
namespace Hyperstory

open Hyperstory.Tree Expansion

/-- A part of markup: text, or the beginning of a numbered link. -/
inductive Part where
  | text (s : String)
  | opening (a : Anchor) (number : Nat)

/-- Markup whose numbered links have no names yet. -/
abbrev Draft := List Part

namespace Draft

/-- The beginning of a link with an attribute behind its destination. -/
def tag (idAttr : String) (a : Anchor) : String :=
  "<a href=\"#\"" ++ idAttr ++ Markup.attr ("data-" ++ a.action) a.target ++ ">"

def write (ids : Nat → String) : Draft → String
  | [] => ""
  | .text s :: rest => s ++ write ids rest
  | .opening a number :: rest => tag (" id=\"" ++ ids number ++ "\"") a ++ write ids rest

/-- The numbered links, as they stand in the markup. -/
def anchors : Draft → List (Anchor × Nat)
  | [] => []
  | .text _ :: rest => anchors rest
  | .opening a number :: rest => (a, number) :: anchors rest

theorem write_append (ids : Nat → String) (d e : Draft) :
    write ids (d ++ e) = write ids d ++ write ids e := by
  induction d with
  | nil => simp [write]
  | cons p rest ih => cases p <;> simp [write, ih, String.append_assoc]

@[simp]
theorem anchors_append (d e : Draft) : anchors (d ++ e) = anchors d ++ anchors e := by
  induction d with
  | nil => rfl
  | cons p rest ih => cases p <;> simp [anchors, ih]

def link (a : Anchor) (number : Nat) (d : Draft) : Draft :=
  (if a.numbered then .opening a number else .text (tag "" a)) :: d ++ [.text "</a>"]

theorem write_link (w : Wording) (a : Anchor) (tally : Tally) (d : Draft) :
    write w.inlineId (link a tally.nextInline d) =
      Markup.anchor (a.id? w tally) a.action a.target (write w.inlineId d) := by
  unfold link Anchor.id? Markup.anchor
  cases a.numbered <;> simp [write, write_append, tag, String.append_assoc]

theorem anchors_link (a : Anchor) (number : Nat) (d : Draft) :
    anchors (link a number d) = (if a.numbered then [(a, number)] else []) ++ anchors d := by
  unfold link
  cases a.numbered <;> simp [anchors]

/-- A text fails for all names or for none, and it has the given numbered links. -/
def Writes (f : (Nat → String) → Except Fault String) (as : List (Anchor × Nat)) : Prop :=
  (∃ e, ∀ ids, f ids = .error e) ∨ ∃ d : Draft, d.anchors = as ∧ ∀ ids, f ids = .ok (d.write ids)

theorem Writes.const (x : Except Fault String) : Writes (fun _ => x) [] := by
  cases x with
  | error e => exact Or.inl ⟨e, fun _ => rfl⟩
  | ok s => exact Or.inr ⟨[.text s], rfl, fun _ => by simp [write]⟩

theorem Writes.append {f g : (Nat → String) → Except Fault String} {as bs : List (Anchor × Nat)}
    (hf : Writes f as) (hg : Writes g bs) :
    Writes (fun ids => do let head ← f ids; let tail ← g ids; .ok (head ++ tail)) (as ++ bs) := by
  rcases hf with ⟨e, he⟩ | ⟨d, rfl, hd⟩
  · simp only [he]
    exact Or.inl ⟨e, fun _ => rfl⟩
  · simp only [hd]
    rcases hg with ⟨e, he⟩ | ⟨d', rfl, hd'⟩
    · simp only [he]
      exact Or.inl ⟨e, fun _ => rfl⟩
    · simp only [hd']
      exact Or.inr ⟨d ++ d', anchors_append d d', fun ids => by rw [write_append]; rfl⟩

end Draft

/-- A node as it is, or markup in its place in which names are left open. -/
inductive Sketch where
  | fixed (n : Node)
  | markup (n : Node) (d : Draft)

namespace Sketch

def label (ids : Nat → String) : Sketch → Node
  | fixed n => n
  | markup n d => markupNode n (d.write ids)

def anchors : Sketch → List (Anchor × Nat)
  | fixed _ => []
  | markup _ d => d.anchors

def unescaped : Sketch → Sketch
  | fixed n => fixed (Expansion.unescaped n)
  | markup n d => markup n d

@[simp]
theorem label_unescaped (ids : Nat → String) (s : Sketch) :
    s.unescaped.label ids = Expansion.unescaped (s.label ids) := by
  cases s with
  | fixed n => rfl
  | markup n d => simp [unescaped, label, Expansion.unescaped, markupNode, isScanned]

@[simp]
theorem anchors_unescaped (s : Sketch) : s.unescaped.anchors = s.anchors := by cases s <;> rfl

def anchorsOf (row : List (Tree Sketch)) : List (Anchor × Nat) := (valuesAll row).flatMap anchors

@[simp]
theorem anchorsOf_nil : anchorsOf [] = [] := by simp [anchorsOf]

@[simp]
theorem anchorsOf_cons (s : Sketch) (cs rest : List (Tree Sketch)) :
    anchorsOf (.node s cs :: rest) = s.anchors ++ anchorsOf cs ++ anchorsOf rest := by
  simp [anchorsOf]

@[simp]
theorem anchorsOf_append (l r : List (Tree Sketch)) :
    anchorsOf (l ++ r) = anchorsOf l ++ anchorsOf r := by
  simp [anchorsOf]

theorem anchorsOf_fixed (row : List (Tree Node)) : anchorsOf (mapAll fixed row) = [] := by
  rw [anchorsOf, valuesAll_mapAll, List.flatMap_map]
  simp [anchors]

theorem anchorsOf_unescaped (row : List (Tree Sketch)) :
    anchorsOf (mapAll unescaped row) = anchorsOf row := by
  rw [anchorsOf, valuesAll_mapAll, List.flatMap_map]
  simp [anchorsOf]

theorem mapAll_label_fixed (ids : Nat → String) (row : List (Tree Node)) :
    mapAll (label ids) (mapAll fixed row) = row := by
  rw [mapAll_mapAll]
  induction row using row_induction with
  | nil => simp
  | cons n cs rest ihcs ihrest => simpa [label] using ⟨ihcs, ihrest⟩

theorem mapAll_label_unescaped (ids : Nat → String) (row : List (Tree Sketch)) :
    mapAll (label ids) (mapAll unescaped row) =
      mapAll Expansion.unescaped (mapAll (label ids) row) := by
  simp [mapAll_mapAll]

/-- Rows that can stand in a line of text: containers in them are inline content, and there are no
images. -/
inductive Flowing : List (Tree Sketch) → Prop where
  | nil : Flowing []
  | leaf {n : Node} {cs rest : List (Tree Sketch)} (hkind : n.kind ≠ "image")
      (hc : n.container = false) (below : anchorsOf cs = []) (after : Flowing rest) :
      Flowing (.node (.fixed n) cs :: rest)
  | markup {n : Node} {d : Draft} {rest : List (Tree Sketch)} (after : Flowing rest) :
      Flowing (.node (.markup n d) [] :: rest)
  | container {n : Node} {cs rest : List (Tree Sketch)} (hkind : n.kind ≠ "image")
      (hc : n.container = true) (hinline : n.inline = true) (below : Flowing cs)
      (after : Flowing rest) : Flowing (.node (.fixed n) cs :: rest)

theorem Flowing.append {l r : List (Tree Sketch)} (hl : Flowing l) (hr : Flowing r) :
    Flowing (l ++ r) := by
  induction hl with
  | nil => exact hr
  | leaf hkind hc below _ ih => exact .leaf hkind hc below ih
  | markup _ ih => exact .markup ih
  | container hkind hc hinline below _ _ ih => exact .container hkind hc hinline below ih

theorem unescaped_role (n : Node) : (Expansion.unescaped n).kind = n.kind ∧
    (Expansion.unescaped n).container = n.container ∧
    (Expansion.unescaped n).inline = n.inline := by
  unfold Expansion.unescaped
  split_ifs <;> exact ⟨rfl, rfl, rfl⟩

theorem Flowing.unescaped {row : List (Tree Sketch)} (h : Flowing row) :
    Flowing (mapAll Sketch.unescaped row) := by
  induction h with
  | nil => rw [mapAll_nil]; exact .nil
  | @leaf n cs rest hkind hc below _ ih =>
    obtain ⟨hk, hc', -⟩ := unescaped_role n
    rw [mapAll_cons, map_node]
    exact .leaf (by rwa [hk]) (by rwa [hc']) (by rwa [anchorsOf_unescaped]) ih
  | markup _ ih =>
    rw [mapAll_cons, map_node, mapAll_nil]
    exact .markup ih
  | @container n cs rest hkind hc hinline _ _ ihcs ihrest =>
    obtain ⟨hk, hc', hi⟩ := unescaped_role n
    rw [mapAll_cons, map_node]
    exact .container (by rwa [hk]) (by rwa [hc']) (by rwa [hi]) ihcs ihrest

/-- Rows that can stand on a page: below inline containers there is a line of text, and there are no
images. -/
inductive Laid : List (Tree Sketch) → Prop where
  | nil : Laid []
  | leaf {n : Node} {cs rest : List (Tree Sketch)} (hkind : n.kind ≠ "image")
      (hc : n.container = false) (below : anchorsOf cs = []) (after : Laid rest) :
      Laid (.node (.fixed n) cs :: rest)
  | markup {n : Node} {d : Draft} {rest : List (Tree Sketch)} (after : Laid rest) :
      Laid (.node (.markup n d) [] :: rest)
  | inline {n : Node} {cs rest : List (Tree Sketch)} (hkind : n.kind ≠ "image")
      (hc : n.container = true) (hinline : n.inline = true) (below : Flowing cs)
      (after : Laid rest) : Laid (.node (.fixed n) cs :: rest)
  | block {n : Node} {cs rest : List (Tree Sketch)} (hkind : n.kind ≠ "image")
      (hc : n.container = true) (hinline : n.inline = false) (below : Laid cs)
      (after : Laid rest) : Laid (.node (.fixed n) cs :: rest)

theorem Flowing.laid {row : List (Tree Sketch)} (h : Flowing row) : Laid row := by
  induction h with
  | nil => exact .nil
  | leaf hkind hc below _ ih => exact .leaf hkind hc below ih
  | markup _ ih => exact .markup ih
  | container hkind hc hinline below _ _ ih => exact .inline hkind hc hinline below ih

namespace Laid

theorem append {l r : List (Tree Sketch)} (hl : Laid l) (hr : Laid r) : Laid (l ++ r) := by
  induction hl with
  | nil => exact hr
  | leaf hkind hc below _ ih => exact .leaf hkind hc below ih
  | markup _ ih => exact .markup ih
  | inline hkind hc hinline below _ ih => exact .inline hkind hc hinline below ih
  | block hkind hc hinline below _ _ ih => exact .block hkind hc hinline below ih

theorem unescaped {row : List (Tree Sketch)} (h : Laid row) :
    Laid (mapAll Sketch.unescaped row) := by
  induction h with
  | nil => rw [mapAll_nil]; exact .nil
  | @leaf n cs rest hkind hc below _ ih =>
    obtain ⟨hk, hc', -⟩ := unescaped_role n
    rw [mapAll_cons, map_node]
    exact .leaf (by rwa [hk]) (by rwa [hc']) (by rwa [anchorsOf_unescaped]) ih
  | markup _ ih =>
    rw [mapAll_cons, map_node, mapAll_nil]
    exact .markup ih
  | @inline n cs rest hkind hc hinline hbelow _ ih =>
    obtain ⟨hk, hc', hi⟩ := unescaped_role n
    rw [mapAll_cons, map_node]
    exact .inline (by rwa [hk]) (by rwa [hc']) (by rwa [hi]) hbelow.unescaped ih
  | @block n cs rest hkind hc hinline _ _ ihcs ihrest =>
    obtain ⟨hk, hc', hi⟩ := unescaped_role n
    rw [mapAll_cons, map_node]
    exact .block (by rwa [hk]) (by rwa [hc']) (by rwa [hi]) ihcs ihrest

end Laid

end Sketch

/-- A place in a stream as it is, or markup in which names are left open. -/
inductive SlotSketch where
  | fixed (s : Slot)
  | markup (d : Draft)

namespace SlotSketch

def slot (ids : Nat → String) : SlotSketch → Slot
  | fixed s => s
  | markup d => .filled { kind := "html_inline", content := d.write ids } none

def anchors : SlotSketch → List (Anchor × Nat)
  | fixed _ => []
  | markup d => d.anchors

/-- What the neighbours of a place see of it. -/
def token? : SlotSketch → Option Token
  | fixed s => s.token?
  | markup _ => some { kind := "html_inline" }

/-- What stands before markup does not look into it. -/
theorem element_next (previous : Option Token) (t : Token) (children : Option (List Slot))
    (ids : Nat → String) (rest : List SlotSketch) :
    Slot.element previous t children ((rest.map (slot ids)).head?.bind Slot.token?) =
      Slot.element previous t children (rest.head?.bind token?) := by
  have hline (content : String) :
      Slot.lineFollows t (some { kind := "html_inline", content }) =
        Slot.lineFollows t (some { kind := "html_inline" }) := by
    unfold Slot.lineFollows
    cases t.nesting <;> rfl
  cases rest with
  | nil => rfl
  | cons x rest =>
    cases x with
    | fixed s => rfl
    | markup d =>
      show Slot.element previous t children (some { kind := "html_inline", content := _ }) =
        Slot.element previous t children (some { kind := "html_inline" })
      simp only [Slot.element, Slot.tag, hline]

/-- A token shows of the one before it only whether that is hidden. -/
theorem element_congr {previous previous' : Option Token}
    (h : previous.map (·.hidden) = previous'.map (·.hidden)) (t : Token)
    (children : Option (List Slot)) (next : Option Token) :
    Slot.element previous t children next = Slot.element previous' t children next := by
  simp only [Slot.element, Slot.tag, h]

/-- Inline content after a token shows of that token only whether it is hidden. -/
theorem renderInlineAfter_congr {previous previous' : Option Token}
    (h : previous.map (·.hidden) = previous'.map (·.hidden)) (slots : List Slot) :
    Slot.renderInlineAfter previous slots = Slot.renderInlineAfter previous' slots := by
  cases slots with
  | nil => rfl
  | cons x rest =>
    cases x with
    | missing => rfl
    | filled t children =>
      simp only [Slot.renderInlineAfter, element_congr h]

/-- Rendering inline content takes over every numbered link once. -/
theorem renderInlineAfter_writes (previous : Option Token) (slots : List SlotSketch) :
    Draft.Writes (fun ids => Slot.renderInlineAfter previous (slots.map (slot ids)))
      (slots.flatMap anchors) := by
  induction slots generalizing previous with
  | nil => exact .const (.ok "")
  | cons x rest ih =>
    cases x with
    | fixed s =>
      cases s with
      | missing => exact Or.inl ⟨.unclosed, fun _ => rfl⟩
      | filled t children =>
        simp only [List.map_cons, slot, Slot.renderInlineAfter, element_next]
        exact (Draft.Writes.const _).append (ih (some t))
    | markup d =>
      have hd : Draft.Writes (fun ids => .ok (d.write ids)) d.anchors :=
        Or.inr ⟨d, rfl, fun _ => rfl⟩
      have hrest (ids : Nat → String) : Slot.renderInlineAfter
          (some { kind := "html_inline", content := d.write ids }) (rest.map (slot ids)) =
          Slot.renderInlineAfter (some { kind := "html_inline" }) (rest.map (slot ids)) := by
        apply renderInlineAfter_congr
        rfl
      simp only [List.map_cons, slot, Slot.renderInlineAfter, hrest]
      exact hd.append (ih (some { kind := "html_inline" }))

end SlotSketch

namespace Sketch

open SlotSketch

section Streams

variable {n : Node} {row : List (Tree Node)}

theorem streamOf_leaf (hkind : n.kind ≠ "image") (hc : n.container = false) :
    streamOf (.node n row) = .ok (n.inline, [Forest.leafSlot n]) := by
  rw [streamOf, if_neg (by simpa using hkind), if_neg (by simp [hc])]

theorem streamOf_inline (hkind : n.kind ≠ "image") (hc : n.container = true)
    (hinline : n.inline = true) {inner : List (Bool × List Slot)}
    (hrow : streamsOf row = .ok inner) :
    streamOf (.node n row) = .ok (n.inline,
      Slot.ofToken? n.token :: inner.flatMap (·.2) ++ [Slot.ofToken? n.closing]) := by
  rw [streamOf, if_neg (by simpa using hkind), if_pos hc, hrow, hinline]
  rfl

theorem streamsOf_cons {x : Tree Node} {first : Bool × List Slot}
    {others : List (Bool × List Slot)} (hx : streamOf x = .ok first)
    (hrow : streamsOf row = .ok others) : streamsOf (x :: row) = .ok (first :: others) := by
  rw [streamsOf, hx, hrow]
  rfl

end Streams

/-- The stream of a row that flows, in which every numbered link stands once. -/
theorem Flowing.exists_slots {row : List (Tree Sketch)} (h : Flowing row) :
    ∃ slots : List SlotSketch, slots.flatMap SlotSketch.anchors = anchorsOf row ∧
      ∀ ids, ∃ parts, streamsOf (mapAll (label ids) row) = .ok parts ∧
        parts.flatMap (·.2) = slots.map (slot ids) := by
  induction h with
  | nil =>
    refine ⟨[], by simp, fun ids => ⟨[], ?_, rfl⟩⟩
    rw [mapAll_nil, streamsOf]
  | @leaf n cs rest hkind hc below _ ih =>
    obtain ⟨slots, hanchors, hslots⟩ := ih
    refine ⟨.fixed (Forest.leafSlot n) :: slots, ?_, fun ids => ?_⟩
    · simp [hanchors, below, SlotSketch.anchors, Sketch.anchors]
    · obtain ⟨parts, hparts, hflat⟩ := hslots ids
      refine ⟨(n.inline, [Forest.leafSlot n]) :: parts, ?_, by simp [hflat, slot]⟩
      rw [mapAll_cons, map_node, label]
      exact streamsOf_cons (streamOf_leaf hkind hc) hparts
  | @markup n d rest _ ih =>
    obtain ⟨slots, hanchors, hslots⟩ := ih
    refine ⟨.markup d :: slots, ?_, fun ids => ?_⟩
    · simp [hanchors, SlotSketch.anchors, Sketch.anchors]
    · obtain ⟨parts, hparts, hflat⟩ := hslots ids
      refine ⟨(n.inline, [slot ids (.markup d)]) :: parts, ?_, by simp [hflat]⟩
      rw [mapAll_cons, map_node, label]
      exact streamsOf_cons (streamOf_leaf (by simp [markupNode]) rfl) hparts
  | @container n cs rest hkind hc hinline _ _ ihcs ihrest =>
    obtain ⟨inner, hinner, hinnerSlots⟩ := ihcs
    obtain ⟨slots, hanchors, hslots⟩ := ihrest
    refine ⟨.fixed (Slot.ofToken? n.token) :: inner ++ .fixed (Slot.ofToken? n.closing) :: slots,
      ?_, fun ids => ?_⟩
    · simp [hanchors, hinner, SlotSketch.anchors, Sketch.anchors]
    · obtain ⟨parts, hparts, hflat⟩ := hslots ids
      obtain ⟨below, hbelow, hflatBelow⟩ := hinnerSlots ids
      refine ⟨(n.inline, Slot.ofToken? n.token :: below.flatMap (·.2) ++
        [Slot.ofToken? n.closing]) :: parts, ?_, by simp [hflat, hflatBelow, slot]⟩
      rw [mapAll_cons, map_node, label]
      exact streamsOf_cons (streamOf_inline hkind hc hinline hbelow) hparts

/-- The text of a link has the numbered links below it. -/
theorem Flowing.inlineText_writes {row : List (Tree Sketch)} (h : Flowing row) :
    Draft.Writes (fun ids => inlineText (mapAll (label ids) row)) (anchorsOf row) := by
  obtain ⟨slots, hanchors, hslots⟩ := h.unescaped.exists_slots
  have htext (ids : Nat → String) : inlineText (mapAll (label ids) row) =
      Slot.renderInlineAfter none (slots.map (slot ids)) := by
    obtain ⟨parts, hparts, hflat⟩ := hslots ids
    rw [inlineText, ← mapAll_label_unescaped, hparts, ← hflat]
    rfl
  simp only [htext]
  rw [← anchorsOf_unescaped, ← hanchors]
  exact renderInlineAfter_writes none slots

end Sketch

end Hyperstory
