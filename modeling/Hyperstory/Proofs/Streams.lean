import Hyperstory.Proofs.Alike
import Hyperstory.Proofs.Replacing

/-!
From a token stream to a tree and back. A well-nested stream comes back with bare inline tokens and
with its escaped texts as they were written.
-/
namespace Hyperstory

open Hyperstory.Tree Expansion

/-- The token opens a container that is written as one. -/
structure Token.OpensContainer (tok : Token) : Prop where
  nesting : tok.nesting = .opens
  kind_ne_inline : tok.kind ≠ "inline"
  kind_ne_special : tok.kind ≠ "text_special"
  nodeKind_ne_image : tok.nodeKind ≠ "image"

example : ∀ kind ∈ ["paragraph_open", "heading_open", "blockquote_open", "bullet_list_open",
    "ordered_list_open", "list_item_open", "em_open", "strong_open", "link_open"],
    ({ kind, nesting := .opens } : Token).nodeKind ≠ "image" := by decide

/-- Streams in which every container is closed, among blocks (`false`) or as inline content. An
inline token fills a block container, and there is none in inline content. -/
inductive WellNested : Bool → List Token → Prop where
  | nil {inline : Bool} : WellNested inline []
  | leaf {inline : Bool} {tok : Token} {rest : List Token} (hnesting : tok.nesting = .alone)
      (hinline : tok.kind ≠ "inline") (himage : tok.kind ≠ "image")
      (after : WellNested inline rest) : WellNested inline (tok :: rest)
  | image {inline : Bool} {tok : Token} {rest : List Token} (hnesting : tok.nesting = .alone)
      (hkind : tok.kind = "image") (inside : WellNested true tok.kids)
      (after : WellNested inline rest) : WellNested inline (tok :: rest)
  | container {inline : Bool} {opening closing : Token} {content rest : List Token}
      (hopening : opening.OpensContainer) (hclosing : closing.nesting = .closes)
      (inside : WellNested inline content) (after : WellNested inline rest) :
      WellNested inline (opening :: (content ++ closing :: rest))
  | filled {opening tok closing : Token} {rest : List Token} (hopening : opening.OpensContainer)
      (hclosing : closing.nesting = .closes) (htag : closing.tag = opening.tag)
      (hnesting : tok.nesting = .alone) (hkind : tok.kind = "inline")
      (inside : WellNested true tok.kids) (after : WellNested false rest) :
      WellNested false (opening :: tok :: closing :: rest)

namespace Slot

theorem ofToken_eq (tok : Token) :
    ofToken tok = .filled tok (tok.children.map fun _ => tok.kids.map ofToken) := by
  rw [ofToken]
  simp

/-- What comes back of a token: an inline token without its own data, or nothing if it is empty, an
image with a list of children even if it had none, and an escaped text as it was written. -/
def restored (tok : Token) : List Slot :=
  if tok.nesting ≠ .alone then [ofToken tok]
  else if tok.kind == "text_special" then
    [.filled { kind := "text", content := tok.writtenText } none]
  else if tok.kind == "image" then
    [.filled tok (some (tok.kids.attach.flatMap fun ⟨k, _⟩ => restored k))]
  else if tok.kind == "inline" then
    if tok.kids.isEmpty then []
    else
      [.filled { kind := "inline" } (some (tok.kids.attach.flatMap fun ⟨k, _⟩ => restored k))]
  else [ofToken tok]
termination_by sizeOf tok
decreasing_by
  all_goals
    have h := List.sizeOf_lt_of_mem ‹k ∈ tok.kids›
    have := tok.sizeOf_kids_lt
    omega

variable {tok : Token}

theorem restored_of_ne_alone (h : tok.nesting ≠ .alone) : restored tok = [ofToken tok] := by
  rw [restored, if_pos h]

theorem restored_special (h : tok.nesting = .alone) (hkind : tok.kind = "text_special") :
    restored tok = [.filled { kind := "text", content := tok.writtenText } none] := by
  rw [restored, if_neg (by simp [h]), if_pos (by simp [hkind])]

theorem restored_image (h : tok.nesting = .alone) (hkind : tok.kind = "image") :
    restored tok = [.filled tok (some (tok.kids.flatMap restored))] := by
  rw [restored, if_neg (by simp [h]), if_neg (by simp [hkind]), if_pos (by simp [hkind])]
  simp

theorem restored_inline (h : tok.nesting = .alone) (hkind : tok.kind = "inline") :
    restored tok =
      if tok.kids.isEmpty then []
      else [.filled { kind := "inline" } (some (tok.kids.flatMap restored))] := by
  rw [restored, if_neg (by simp [h]), if_neg (by simp [hkind]), if_neg (by simp [hkind]),
    if_pos (by simp [hkind])]
  simp

theorem restored_leaf (hspecial : tok.kind ≠ "text_special") (himage : tok.kind ≠ "image")
    (hinline : tok.kind ≠ "inline") : restored tok = [ofToken tok] := by
  rw [restored]
  simp [hspecial, himage, hinline]

end Slot

/-- Only an inline token can be left out. -/
theorem WellNested.restored_eq_nil_iff {tokens : List Token} (h : WellNested true tokens) :
    tokens.flatMap Slot.restored = [] ↔ tokens = [] := by
  cases h with
  | nil => simp
  | @leaf _ tok _ hnesting hinline himage _ =>
    by_cases hspecial : tok.kind = "text_special"
    · simp [Slot.restored_special hnesting hspecial]
    · simp [Slot.restored_leaf hspecial himage hinline]
  | image hnesting hkind _ _ => simp [Slot.restored_image hnesting hkind]
  | @container _ opening _ _ _ hopening _ _ _ =>
    have hne : opening.nesting ≠ .alone := by simp [hopening.nesting]
    simp [Slot.restored_of_ne_alone hne]

namespace Token

variable {tok : Token} (inline : Bool) (line : Option Int)

theorem toNode_token (h : tok.kind ≠ "text_special") :
    (tok.toNode inline line).token = some tok := by
  simp only [toNode, beq_iff_eq, h, if_false]
  split_ifs <;> rfl

theorem toNode_literal (h : tok.kind ≠ "text_special")
    (hc : (tok.toNode inline line).container = false) :
    (tok.toNode inline line).literal = some tok.content := by
  rw [toNode_container] at hc
  simp only [toNode, beq_iff_eq, h, if_false, hc, Bool.false_eq_true]
  split_ifs <;> rfl

/-- The node of a token that stands alone is written as what comes back of the token. -/
theorem streamOf_toNode_leaf (hnesting : tok.nesting = .alone) (hinline : tok.kind ≠ "inline")
    (himage : tok.kind ≠ "image") :
    streamOf (.node (tok.toNode inline line) []) = .ok (inline, Slot.restored tok) := by
  have hkind : (tok.toNode inline line).kind ≠ "image" := by
    rw [toNode_kind, nodeKind, if_neg (by simp [hnesting])]
    split_ifs
    · simp
    · simp
    · simp
    · exact himage
  have hcontainer : (tok.toNode inline line).container = false := by
    simp [hnesting, himage]
  rw [Sketch.streamOf_leaf hkind hcontainer, toNode_inline]
  congr 2
  by_cases hspecial : tok.kind = "text_special"
  · rw [Slot.restored_special hnesting hspecial]
    simp [Forest.leafSlot, toNode, hspecial, Slot.ofToken_eq]
  · rw [Slot.restored_leaf hspecial himage hinline]
    rw [Forest.leafSlot, toNode_token inline line hspecial,
      toNode_literal inline line hspecial hcontainer]
    cases tok
    rfl

/-- The node of an image is written with a list of what stands below it. -/
theorem streamOf_toNode_image (hnesting : tok.nesting = .alone) (hkind : tok.kind = "image")
    {row : List (Tree Node)} {parts : List (Bool × List Slot)} (hrow : streamsOf row = .ok parts) :
    streamOf (.node (tok.toNode inline line) row) =
      .ok (inline, [.filled tok (some (parts.flatMap (·.2)))]) := by
  have himage : (tok.toNode inline line).kind = "image" := by
    simp [nodeKind, hnesting, hkind]
  rw [streamOf, if_pos (by simpa using himage), toNode_token inline line (by simp [hkind]),
    toNode_inline, hrow]
  rfl

/-- The node of an opening token is written between its tokens. -/
theorem OpensContainer.streamOf_toNode (h : tok.OpensContainer) {closing : Token}
    {row : List (Tree Node)} {parts : List (Bool × List Slot)} (hrow : streamsOf row = .ok parts) :
    streamOf (.node { tok.toNode inline line with closing := some closing } row) =
      .ok (inline, Slot.ofToken tok ::
        (if inline then parts.flatMap (·.2) else Forest.groupRuns [] parts) ++
          [Slot.ofToken closing]) := by
  have hkind : (tok.toNode inline line).kind ≠ "image" := by
    rw [toNode_kind]
    exact h.nodeKind_ne_image
  have hcontainer : (tok.toNode inline line).container = true := by simp [h.nesting]
  refine (Alike.streamOf_container (n := { tok.toNode inline line with closing := some closing })
    hkind hcontainer).trans ?_
  rw [hrow, toNode_token inline line h.kind_ne_special, toNode_inline]
  rfl

end Token

namespace Forest

/-- Parts that are blocks stand by themselves. -/
theorem groupRuns_blocks {parts : List (Bool × List Slot)} (h : ∀ p ∈ parts, p.1 = false) :
    groupRuns [] parts = parts.flatMap (·.2) := by
  induction parts with
  | nil => rw [groupRuns, List.flatMap_nil]
  | cons p rest ih =>
    obtain ⟨inline, slots⟩ := p
    obtain ⟨hp, hrest⟩ := List.forall_mem_cons.mp h
    obtain rfl : inline = false := hp
    rw [groupRuns, ih hrest, List.flatMap_cons]

/-- Parts that are inline content are one run. -/
theorem groupRuns_inline (run : List Slot) {parts : List (Bool × List Slot)}
    (h : ∀ p ∈ parts, p.1 = true) :
    groupRuns run parts =
      if (run ++ parts.flatMap (·.2)).isEmpty then []
      else [.filled { kind := "inline" } (some (run ++ parts.flatMap (·.2)))] := by
  induction parts generalizing run with
  | nil => cases run <;> simp [groupRuns]
  | cons p rest ih =>
    obtain ⟨inline, slots⟩ := p
    obtain ⟨hp, hrest⟩ := List.forall_mem_cons.mp h
    obtain rfl : inline = true := hp
    rw [groupRuns, ih (run ++ slots) hrest, List.flatMap_cons, List.append_assoc]

/-- The node of a token becomes the last child of `top`. -/
def hang (t : Forest) (top : NodeId) (tok : Token) (inline : Bool) (line : Option Int) : Forest :=
  (t.add (tok.toNode inline line)).1.appendChild top t.size

section Attach

variable (t : Forest) (top : NodeId) (below : List NodeId) {tok : Token} (rest : List Token)
  (inline : Bool) (line : Option Int)

theorem attach_closes (h : tok.nesting = .closes) :
    t.attach (top :: below) (tok :: rest) inline line =
      (t.modify top fun n => { n with closing := some tok }).attach below rest inline line := by
  rw [attach, if_pos h]

theorem attach_inline (h : tok.nesting = .alone) (hkind : tok.kind = "inline") :
    t.attach (top :: below) (tok :: rest) inline line =
      (t.attach [top] tok.kids true (tok.map.map fun m => m.1 + 1) >>= fun t =>
        t.attach (top :: below) rest inline line) := by
  rw [attach, if_neg (by simp [h]), if_pos (by simp [hkind])]

theorem attach_opens (h : tok.OpensContainer) :
    t.attach (top :: below) (tok :: rest) inline line =
      (t.hang top tok inline line).attach (t.size :: top :: below) rest inline
        (tok.lineAfter line) := by
  rw [attach, if_neg (by simp [h.nesting]), if_neg (by simpa using h.kind_ne_inline)]
  dsimp only
  rw [if_pos h.nesting]
  rfl

theorem attach_image (h : tok.nesting = .alone) (hkind : tok.kind = "image") :
    t.attach (top :: below) (tok :: rest) inline line =
      ((t.hang top tok inline line).attach [t.size] tok.kids true line >>= fun t =>
        t.attach (top :: below) rest inline (tok.lineAfter line)) := by
  rw [attach, if_neg (by simp [h]), if_neg (by simp [hkind])]
  dsimp only
  rw [if_neg (by simp [h]), if_pos (by simp [hkind])]
  rfl

theorem attach_leaf (h : tok.nesting = .alone) (hinline : tok.kind ≠ "inline")
    (himage : tok.kind ≠ "image") :
    t.attach (top :: below) (tok :: rest) inline line =
      (t.hang top tok inline line).attach (top :: below) rest inline (tok.lineAfter line) := by
  rw [attach, if_neg (by simp [h]), if_neg (by simpa using hinline)]
  dsimp only
  rw [if_neg (by simp [h]), if_neg (by simpa using himage)]
  rfl

end Attach

theorem label_hang_container (t : Forest) (top : NodeId) {tok : Token} {inline : Bool}
    (line : Option Int) (h : tok.nesting = .opens ∨ tok.kind = "image") :
    ((t.hang top tok inline line).label t.size).container = true := by
  rw [hang, label_hang, if_pos rfl, Token.toNode_container]
  simpa using h

namespace Rewrites

variable {t t' : Forest} {kids kids' : NodeId → List NodeId} {p i : Nat} {l r old : List NodeId}
  {new : List (Tree NodeId)} {out : List (Tree Node)} {n : Node}

/-- A node is hung in, and what stands below it comes later. -/
theorem hang (hd : t.Document kids) (hsize : p < t.size) (hp : (t.label p).container = true)
    {tok : Token} {inline : Bool} {line : Option Int}
    (h : Rewrites (t.hang p tok inline line) (Function.update kids p (kids p ++ [t.size])) t.size
      (Function.update kids p (kids p ++ [t.size]) t.size) [] [] out t' kids' new) :
    Rewrites t kids p (kids p) [] [] [.node (tok.toNode inline line) out] t' kids'
      [.node t.size new] := by
  have hframe : Frame t kids p [] (t.hang p tok inline line)
      (Function.update kids p (kids p ++ [t.size])) := by
    refine ⟨by simp [Forest.hang], fun j hj _ => ?_, fun j _ hjp _ => Function.update_of_ne hjp _ _⟩
    exact (t.label_hang p tok inline line j).trans (if_neg hj.ne)
  have hlabel : (t.hang p tok inline line).label t.size = tok.toNode inline line :=
    (t.label_hang p tok inline line t.size).trans (if_pos rfl)
  have hkids : Function.update kids p (kids p ++ [t.size]) t.size = [] := by
    rw [Function.update_of_ne hsize.ne']
    exact hd.linked.kids_eq_nil le_rfl
  rw [hkids] at h
  have hwrap := wrap (hd.hang hsize hp tok inline line) (Function.update_self p _ kids)
    (show _ = ([] : List (Tree NodeId)).map value from hkids) .nil h
  rw [← hlabel]
  exact after hframe hwrap (by simp)

theorem close (h : Rewrites t kids p l old r [.node n out] t' kids' [.node i new])
    (hi : t.size ≤ i) (tok : Token) :
    Rewrites t kids p l old r [.node { n with closing := some tok } out]
      (t'.modify i fun n => { n with closing := some tok }) kids' [.node i new] := by
  have hreads := h.reads
  rw [mapAll_cons, map_node, mapAll_nil] at hreads
  obtain ⟨hn, hout⟩ := Tree.node.inj (List.cons.inj hreads).1
  obtain _ | ⟨htop, hnew, -⟩ := h.follows
  have hbounds := h.place_bounds (j := i) (by simp)
  have hother {j : Nat} (hj : j ≠ i) :
      (t'.modify i fun n => { n with closing := some tok }).label j = t'.label j := by
    rw [label_modify, if_neg (fun hij => hj hij.1.symm)]
  refine ⟨h.document.modify i (fun _ => rfl) ⟨rfl, rfl, fun _ => id⟩,
    ⟨by simpa using h.frame.size_le, fun j hj hjo => ?_, h.frame.kids⟩, h.here, h.follows, h.fresh,
    ?_⟩
  · rw [hother (by omega), h.frame.label j hj hjo]
  · have hbelow : ∀ j ∈ valuesAll new,
        (t'.modify i fun n => { n with closing := some tok }).label j = t'.label j := fun j hj =>
      hother fun hji => h.document.linked.notMem_below htop hnew (hji ▸ hj)
    rw [mapAll_cons, map_node, mapAll_nil, mapAll_congr hbelow, hout, label_modify,
      if_pos ⟨rfl, hbounds.2⟩, ← hn]
    rfl

theorem nothing (hd : t.Document kids) (p : Nat) :
    Rewrites t kids p (kids p) [] [] [] t kids [] := by
  simpa using same hd .nil (p := p) (l := kids p) (r := []) (by simp)

/-- A row is put behind the children of `p`, and another behind it. -/
theorem append_last {t'' : Forest} {kids'' : NodeId → List NodeId} {out' : List (Tree Node)}
    {new' : List (Tree NodeId)} (h : Rewrites t kids p (kids p) [] [] out t' kids' new)
    (h' : Rewrites t' kids' p (kids' p) [] [] out' t'' kids'' new') :
    Rewrites t kids p (kids p) [] [] (out ++ out') t'' kids'' (new ++ new') := by
  rw [h.here, List.append_nil] at h'
  exact h.append [] .nil h' (by simp) (by simp)

end Rewrites

end Forest

theorem streamsOf_append {l r : List (Tree Node)} {parts parts' : List (Bool × List Slot)}
    (hl : streamsOf l = .ok parts) (hr : streamsOf r = .ok parts') :
    streamsOf (l ++ r) = .ok (parts ++ parts') := by
  induction l generalizing parts with
  | nil =>
    rw [streamsOf] at hl
    obtain rfl := Except.ok.inj hl
    exact hr
  | cons x l ih =>
    obtain ⟨first, others, hfirst, hothers, rfl⟩ := Alike.streamsOf_eq_ok hl
    exact Sketch.streamsOf_cons hfirst (ih hothers)

/-- Wherever `tokens` are read, they become trees behind the children of the innermost container,
and these are written as `slots`. -/
def Restores (inline : Bool) (tokens : List Token) (slots : List Slot) : Prop :=
  ∀ (t : Forest) (kids : NodeId → List NodeId) (top : Nat) (line : Option Int),
    t.Document kids → top < t.size → (t.label top).container = true →
    ∃ t' kids' new out parts line',
      (∀ below more, t.attach (top :: below) (tokens ++ more) inline line =
        t'.attach (top :: below) more inline line') ∧
      Forest.Rewrites t kids top (kids top) [] [] out t' kids' new ∧
      streamsOf out = .ok parts ∧ (∀ p ∈ parts, p.1 = inline) ∧ parts.flatMap (·.2) = slots

namespace Restores

variable {inline : Bool} {tok opening closing : Token} {tokens tokens' : List Token}
  {slots slots' : List Slot}

theorem nil : Restores inline [] [] := by
  intro t kids top line hd hsize hc
  exact ⟨t, kids, [], [], [], line, fun below more => rfl, .nothing hd top, by rw [streamsOf],
    by simp, rfl⟩

theorem append (h : Restores inline tokens slots) (h' : Restores inline tokens' slots') :
    Restores inline (tokens ++ tokens') (slots ++ slots') := by
  intro t kids top line hd hsize hc
  obtain ⟨t₁, kids₁, new, out, parts, line₁, hattach, hrewrites, hparts, hinline, hslots⟩ :=
    h t kids top line hd hsize hc
  have hc₁ : (t₁.label top).container = true := by
    rw [hrewrites.frame.label top hsize (by simp), hc]
  obtain ⟨t₂, kids₂, new', out', parts', line₂, hattach', hrewrites', hparts', hinline', hslots'⟩ :=
    h' t₁ kids₁ top line₁ hrewrites.document (hsize.trans_le hrewrites.frame.size_le) hc₁
  refine ⟨t₂, kids₂, new ++ new', out ++ out', parts ++ parts', line₂, fun below more => ?_,
    hrewrites.append_last hrewrites', ?_, ?_, ?_⟩
  · rw [List.append_assoc, hattach, hattach']
  · exact streamsOf_append hparts hparts'
  · exact List.forall_mem_append.mpr ⟨hinline, hinline'⟩
  · rw [List.flatMap_append, hslots, hslots']

theorem content (h : Restores inline tokens slots) {t : Forest} {kids : NodeId → List NodeId}
    (top : Nat) (line : Option Int) (hd : t.Document kids) (hsize : top < t.size)
    (hc : (t.label top).container = true) :
    ∃ t' kids' new out parts, t.attach [top] tokens inline line = .ok t' ∧
      Forest.Rewrites t kids top (kids top) [] [] out t' kids' new ∧
      streamsOf out = .ok parts ∧ (∀ p ∈ parts, p.1 = inline) ∧
      parts.flatMap (·.2) = slots := by
  obtain ⟨t', kids', new, out, parts, line', hattach, hrest⟩ := h t kids top line hd hsize hc
  refine ⟨t', kids', new, out, parts, ?_, hrest⟩
  have hall := hattach [] []
  rwa [List.append_nil, Forest.attach] at hall

theorem leaf (hnesting : tok.nesting = .alone) (hinline : tok.kind ≠ "inline")
    (himage : tok.kind ≠ "image") : Restores inline [tok] (Slot.restored tok) := by
  intro t kids top line hd hsize hc
  refine ⟨_, _, _, _, [(inline, Slot.restored tok)], tok.lineAfter line, fun below more => ?_,
    .hang hd hsize hc (.nothing (hd.hang hsize hc tok inline line) t.size), ?_, by simp, by simp⟩
  · exact t.attach_leaf top below more inline line hnesting hinline himage
  · exact Sketch.streamsOf_cons (tok.streamOf_toNode_leaf inline line hnesting hinline himage)
      (by rw [streamsOf])

theorem image (hnesting : tok.nesting = .alone) (hkind : tok.kind = "image")
    (h : Restores true tok.kids slots) :
    Restores inline [tok] [.filled tok (some slots)] := by
  intro t kids top line hd hsize hc
  obtain ⟨t', kids', new, out, parts, hattach, hrewrites, hparts, -, hslots⟩ :=
    h.content t.size line (hd.hang hsize hc tok inline line) (by simp)
      (t.label_hang_container top line (Or.inr hkind))
  refine ⟨t', kids', _, _, [(inline, [.filled tok (some slots)])], tok.lineAfter line,
    fun below more => ?_, .hang hd hsize hc hrewrites, ?_, by simp, by simp⟩
  · rw [List.singleton_append, t.attach_image top below more inline line hnesting hkind,
      Forest.hang, hattach]
    rfl
  · rw [← hslots]
    exact Sketch.streamsOf_cons (tok.streamOf_toNode_image inline line hnesting hkind hparts)
      (by rw [streamsOf])

theorem container (hopening : opening.OpensContainer) (hclosing : closing.nesting = .closes)
    (h : Restores inline tokens slots) :
    Restores inline (opening :: (tokens ++ [closing]))
      (Slot.ofToken opening :: (slots ++ [Slot.ofToken closing])) := by
  intro t kids top line hd hsize hc
  obtain ⟨t', kids', new, out, parts, line', hattach, hrewrites, hparts, hinline, hslots⟩ :=
    h _ _ _ (opening.lineAfter line) (hd.hang hsize hc opening inline line) (by simp)
      (t.label_hang_container top line (Or.inl hopening.nesting))
  refine ⟨_, kids', _, _, [(inline, Slot.ofToken opening :: (slots ++ [Slot.ofToken closing]))],
    line', fun below more => ?_,
    (Forest.Rewrites.hang hd hsize hc hrewrites).close le_rfl closing, ?_, by simp, by simp⟩
  · rw [List.cons_append, List.append_assoc, List.singleton_append,
      t.attach_opens top below _ inline line hopening, Forest.hang, hattach,
      Forest.attach_closes _ _ _ _ _ _ hclosing]
  · have hwritten :
        (if inline then parts.flatMap (·.2) else Forest.groupRuns [] parts) = slots := by
      cases inline with
      | true => exact hslots
      | false => rwa [if_neg Bool.false_ne_true, Forest.groupRuns_blocks hinline]
    rw [← hwritten]
    exact Sketch.streamsOf_cons (hopening.streamOf_toNode inline line hparts) (by rw [streamsOf])

/-- A block container that holds an inline token. -/
theorem filled (hopening : opening.OpensContainer) (hclosing : closing.nesting = .closes)
    (hnesting : tok.nesting = .alone) (hkind : tok.kind = "inline")
    (hkids : WellNested true tok.kids)
    (h : Restores true tok.kids (tok.kids.flatMap Slot.restored)) :
    Restores false [opening, tok, closing]
      (Slot.ofToken opening :: (Slot.restored tok ++ [Slot.ofToken closing])) := by
  intro t kids top line hd hsize hc
  obtain ⟨t', kids', new, out, parts, hattach, hrewrites, hparts, hinline, hslots⟩ :=
    h.content t.size (tok.map.map fun m => m.1 + 1) (hd.hang hsize hc opening false line) (by simp)
      (t.label_hang_container top line (Or.inl hopening.nesting))
  refine ⟨_, kids', _, _, [(false,
    Slot.ofToken opening :: (Slot.restored tok ++ [Slot.ofToken closing]))],
    opening.lineAfter line, fun below more => ?_,
    (Forest.Rewrites.hang hd hsize hc hrewrites).close le_rfl closing, ?_, by simp, by simp⟩
  · rw [List.cons_append, List.cons_append, List.singleton_append,
      t.attach_opens top below _ false line hopening, Forest.hang,
      Forest.attach_inline _ _ _ _ _ _ hnesting hkind, hattach]
    exact Forest.attach_closes _ _ _ _ _ _ hclosing
  · -- what stands below the container is one run, and no run at all if the token is empty
    have hwritten : Forest.groupRuns [] parts = Slot.restored tok := by
      rw [Forest.groupRuns_inline [] hinline, Slot.restored_inline hnesting hkind,
        List.nil_append, hslots]
      simp only [List.isEmpty_iff, hkids.restored_eq_nil_iff]
    rw [← hwritten]
    exact Sketch.streamsOf_cons (hopening.streamOf_toNode false line hparts) (by rw [streamsOf])

end Restores

/-- A well-nested stream comes back. -/
theorem WellNested.restores {inline : Bool} {tokens : List Token} (h : WellNested inline tokens) :
    Restores inline tokens (tokens.flatMap Slot.restored) := by
  induction h with
  | nil => exact .nil
  | leaf hnesting hinline himage _ ih => exact (Restores.leaf hnesting hinline himage).append ih
  | image hnesting hkind _ _ ihinside ihafter =>
    rw [List.flatMap_cons, Slot.restored_image hnesting hkind]
    exact (Restores.image hnesting hkind ihinside).append ihafter
  | @container inline opening closing content rest hopening hclosing _ _ ihinside ihafter =>
    have h := (Restores.container hopening hclosing ihinside).append ihafter
    have ho : opening.nesting ≠ .alone := by simp [hopening.nesting]
    have hc : closing.nesting ≠ .alone := by simp [hclosing]
    simpa [Slot.restored_of_ne_alone ho, Slot.restored_of_ne_alone hc] using h
  | @filled opening tok closing rest hopening hclosing _ hnesting hkind hinside _ ihinside
      ihafter =>
    have h := (Restores.filled hopening hclosing hnesting hkind hinside ihinside).append ihafter
    have ho : opening.nesting ≠ .alone := by simp [hopening.nesting]
    have hc : closing.nesting ≠ .alone := by simp [hclosing]
    simpa [Slot.restored_of_ne_alone ho, Slot.restored_of_ne_alone hc] using h

theorem WellNested.toTokens_eq {tokens : List Token} (h : WellNested false tokens) :
    ∃ t, Forest.ofTokens tokens = .ok t ∧ t.toTokens 0 = .ok (tokens.flatMap Slot.restored) := by
  obtain ⟨t, kids, new, out, parts, hattach, hrewrites, hparts, hinline, hslots⟩ :=
    h.restores.content 0 none Forest.document_root (by simp) rfl
  refine ⟨t, hattach, ?_⟩
  rw [Forest.toTokens, Forest.slotsBelow_eq hrewrites.document.linked
    (by simpa using hrewrites.here) hrewrites.follows, hrewrites.reads, hparts, ← hslots,
    ← Forest.groupRuns_blocks hinline]
  rfl

end Hyperstory
