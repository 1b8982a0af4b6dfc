import Hyperstory.Proofs.Drafts

/-! Pages in which the names of numbered links are left open. -/
namespace Hyperstory

open Hyperstory.Tree Expansion Sketch

/-- A place among the blocks of a page: one like those in a line of text, or such a line. -/
inductive BlockSketch where
  | single (s : SlotSketch)
  | line (slots : List SlotSketch)

namespace BlockSketch

def slot (ids : Nat → String) : BlockSketch → Slot
  | single s => s.slot ids
  | line slots => .filled { kind := "inline" } (some (slots.map (SlotSketch.slot ids)))

def anchors : BlockSketch → List (Anchor × Nat)
  | single s => s.anchors
  | line slots => slots.flatMap SlotSketch.anchors

/-- What the neighbours of a place see of it. -/
def token? : BlockSketch → Option Token
  | single s => s.token?
  | line _ => some { kind := "inline" }

/-- What stands before a place does not look into its markup. -/
theorem element_next (previous : Option Token) (t : Token) (children : Option (List Slot))
    (ids : Nat → String) (rest : List BlockSketch) :
    Slot.element previous t children ((rest.map (slot ids)).head?.bind Slot.token?) =
      Slot.element previous t children (rest.head?.bind token?) := by
  cases rest with
  | nil => rfl
  | cons x rest =>
    cases x with
    | single s => exact SlotSketch.element_next previous t children ids [s]
    | line slots => rfl

/-- Blocks after a token show of that token only whether it is hidden. -/
theorem renderAfter_congr {previous previous' : Option Token}
    (h : previous.map (·.hidden) = previous'.map (·.hidden)) (slots : List Slot) :
    Slot.renderAfter previous slots = Slot.renderAfter previous' slots := by
  cases slots with
  | nil => rfl
  | cons x rest =>
    cases x with
    | missing => rfl
    | filled t children =>
      simp only [Slot.renderAfter, SlotSketch.element_congr h]

/-- Rendering blocks takes over every numbered link once. -/
theorem renderAfter_writes (previous : Option Token) (blocks : List BlockSketch) :
    Draft.Writes (fun ids => Slot.renderAfter previous (blocks.map (slot ids)))
      (blocks.flatMap anchors) := by
  induction blocks generalizing previous with
  | nil => exact .const (.ok "")
  | cons x rest ih =>
    cases x with
    | line slots =>
      have hline := SlotSketch.renderInlineAfter_writes none slots
      exact hline.append (ih (some { kind := "inline" }))
    | single s =>
      cases s with
      | fixed s =>
        cases s with
        | missing => exact .inl ⟨.unclosed, fun _ => rfl⟩
        | filled t children =>
          simp only [List.map_cons, slot, SlotSketch.slot, Slot.renderAfter, element_next]
          by_cases hline : (t.kind == "inline") = true
          · simp only [hline, if_true]
            exact (Draft.Writes.const _).append (ih (some t))
          · simp only [hline, Bool.false_eq_true, if_false]
            exact (Draft.Writes.const _).append (ih (some t))
      | markup d =>
        have hd : Draft.Writes (fun ids => .ok (d.write ids)) d.anchors :=
          .inr ⟨d, rfl, fun _ => rfl⟩
        have hrest (ids : Nat → String) : Slot.renderAfter
            (some { kind := "html_inline", content := d.write ids }) (rest.map (slot ids)) =
            Slot.renderAfter (some { kind := "html_inline" }) (rest.map (slot ids)) := by
          apply renderAfter_congr
          rfl
        simp only [List.map_cons, slot, SlotSketch.slot, Slot.renderAfter, hrest]
        exact hd.append (ih (some { kind := "html_inline" }))

end BlockSketch

/-- What one tree of a row brings into a stream: inline content, or blocks. -/
inductive PartSketch where
  | inline (slots : List SlotSketch)
  | block (blocks : List BlockSketch)

namespace PartSketch

def part (ids : Nat → String) : PartSketch → Bool × List Slot
  | inline slots => (true, slots.map (SlotSketch.slot ids))
  | block blocks => (false, blocks.map (BlockSketch.slot ids))

def anchors : PartSketch → List (Anchor × Nat)
  | inline slots => slots.flatMap SlotSketch.anchors
  | block blocks => blocks.flatMap BlockSketch.anchors

/-- A part of inline content or of blocks that are like it. -/
def ofSlots (isInline : Bool) (slots : List SlotSketch) : PartSketch :=
  if isInline then inline slots else block (slots.map .single)

theorem part_ofSlots (ids : Nat → String) (isInline : Bool) (slots : List SlotSketch) :
    part ids (ofSlots isInline slots) = (isInline, slots.map (SlotSketch.slot ids)) := by
  cases isInline <;> simp [ofSlots, part, Function.comp_def, BlockSketch.slot]

theorem anchors_ofSlots (isInline : Bool) (slots : List SlotSketch) :
    anchors (ofSlots isInline slots) = slots.flatMap SlotSketch.anchors := by
  cases isInline <;> simp [ofSlots, anchors, List.flatMap_map, BlockSketch.anchors]

/-- Runs of inline content become lines. -/
def group : List SlotSketch → List PartSketch → List BlockSketch
  | [], [] => []
  | run, [] => [.line run]
  | run, inline slots :: rest => group (run ++ slots) rest
  | [], block blocks :: rest => blocks ++ group [] rest
  | run, block blocks :: rest => .line run :: (blocks ++ group [] rest)

theorem groupRuns_map (ids : Nat → String) (run : List SlotSketch) (parts : List PartSketch) :
    Forest.groupRuns (run.map (SlotSketch.slot ids)) (parts.map (part ids)) =
      (group run parts).map (BlockSketch.slot ids) := by
  fun_induction group run parts with
  | case1 => rfl
  | case2 run hrun =>
    cases run with
    | nil => exact absurd rfl hrun
    | cons s run => rfl
  | case3 run slots rest ih =>
    rw [List.map_cons, part, Forest.groupRuns, ← List.map_append, ih]
  | case4 blocks rest ih =>
    rw [List.map_cons, part, List.map_append, ← ih]
    rfl
  | case5 run blocks rest hrun ih =>
    cases run with
    | nil => exact absurd rfl hrun
    | cons s run =>
      rw [List.map_cons, List.map_cons, part, List.map_cons, List.map_append, ← ih]
      rfl

theorem anchors_group (run : List SlotSketch) (parts : List PartSketch) :
    (group run parts).flatMap BlockSketch.anchors =
      run.flatMap SlotSketch.anchors ++ parts.flatMap anchors := by
  fun_induction group run parts with
  | case1 => rfl
  | case2 run hrun => simp [BlockSketch.anchors]
  | case3 run slots rest ih => simp [ih, anchors]
  | case4 blocks rest ih => simp [ih, anchors]
  | case5 run blocks rest hrun ih => simp [ih, anchors, BlockSketch.anchors]

end PartSketch

namespace Sketch

open PartSketch

theorem streamOf_block {n : Node} {row : List (Tree Node)} (hkind : n.kind ≠ "image")
    (hc : n.container = true) (hinline : n.inline = false) {inner : List (Bool × List Slot)}
    (hrow : streamsOf row = .ok inner) :
    streamOf (.node n row) = .ok (n.inline,
      Slot.ofToken? n.token :: Forest.groupRuns [] inner ++ [Slot.ofToken? n.closing]) := by
  rw [streamOf, if_neg (by simpa using hkind), if_pos hc, hrow, hinline]
  rfl

/-- The stream of a row that is laid out, in which every numbered link stands once. -/
theorem Laid.exists_parts {row : List (Tree Sketch)} (h : Laid row) :
    ∃ parts : List PartSketch, parts.flatMap PartSketch.anchors = anchorsOf row ∧
      ∀ ids, streamsOf (mapAll (label ids) row) = .ok (parts.map (part ids)) := by
  induction h with
  | nil =>
    refine ⟨[], by simp, fun ids => ?_⟩
    rw [mapAll_nil, streamsOf]
    rfl
  | @leaf n cs rest hkind hc below _ ih =>
    obtain ⟨parts, hanchors, hparts⟩ := ih
    refine ⟨ofSlots n.inline [.fixed (Forest.leafSlot n)] :: parts, ?_, fun ids => ?_⟩
    · simp [anchors_ofSlots, hanchors, below, SlotSketch.anchors, Sketch.anchors]
    · rw [mapAll_cons, map_node, label, List.map_cons, part_ofSlots]
      exact streamsOf_cons (streamOf_leaf hkind hc) (hparts ids)
  | @markup n d rest _ ih =>
    obtain ⟨parts, hanchors, hparts⟩ := ih
    refine ⟨ofSlots n.inline [.markup d] :: parts, ?_, fun ids => ?_⟩
    · simp [anchors_ofSlots, hanchors, SlotSketch.anchors, Sketch.anchors]
    · rw [mapAll_cons, map_node, label, List.map_cons, part_ofSlots]
      exact streamsOf_cons (streamOf_leaf (by simp [markupNode]) rfl) (hparts ids)
  | @inline n cs rest hkind hc hinline hbelow _ ih =>
    obtain ⟨slots, hslotAnchors, hslots⟩ := hbelow.exists_slots
    obtain ⟨parts, hanchors, hparts⟩ := ih
    refine ⟨ofSlots n.inline (.fixed (Slot.ofToken? n.token) :: slots ++
      [.fixed (Slot.ofToken? n.closing)]) :: parts, ?_, fun ids => ?_⟩
    · simp [anchors_ofSlots, hanchors, hslotAnchors, SlotSketch.anchors, Sketch.anchors]
    · obtain ⟨inner, hinner, hflat⟩ := hslots ids
      rw [mapAll_cons, map_node, label, List.map_cons, part_ofSlots]
      refine streamsOf_cons ?_ (hparts ids)
      rw [streamOf_inline hkind hc hinline hinner, hflat]
      simp [SlotSketch.slot]
  | @block n cs rest hkind hc hinline _ _ ihcs ihrest =>
    obtain ⟨inner, hinnerAnchors, hinner⟩ := ihcs
    obtain ⟨parts, hanchors, hparts⟩ := ihrest
    refine ⟨.block (.single (.fixed (Slot.ofToken? n.token)) :: group [] inner ++
      [.single (.fixed (Slot.ofToken? n.closing))]) :: parts, ?_, fun ids => ?_⟩
    · simp [PartSketch.anchors, BlockSketch.anchors, anchors_group, hanchors, hinnerAnchors,
        SlotSketch.anchors, Sketch.anchors]
    · have hgroup := groupRuns_map ids [] inner
      rw [mapAll_cons, map_node, label, List.map_cons]
      refine streamsOf_cons ?_ (hparts ids)
      rw [streamOf_block hkind hc hinline (hinner ids), hinline]
      simp only [part, List.cons_append, List.map_cons, List.map_append, List.map_nil, ← hgroup]
      rfl

/-- A page shows each numbered link of its tree once. -/
theorem Laid.render_writes {row : List (Tree Sketch)} (h : Laid row) :
    Draft.Writes (fun ids => streamsOf (mapAll (label ids) row) >>= fun parts =>
      Slot.render (Forest.groupRuns [] parts)) (anchorsOf row) := by
  obtain ⟨parts, hanchors, hparts⟩ := h.exists_parts
  have hrender (ids : Nat → String) : (streamsOf (mapAll (label ids) row) >>= fun parts =>
      Slot.render (Forest.groupRuns [] parts)) =
      Slot.renderAfter none ((group [] parts).map (BlockSketch.slot ids)) := by
    rw [hparts, ← groupRuns_map]
    rfl
  simp only [hrender]
  rw [← hanchors, ← List.nil_append (parts.flatMap _)]
  exact anchors_group [] parts ▸ BlockSketch.renderAfter_writes none (group [] parts)

end Sketch

end Hyperstory
