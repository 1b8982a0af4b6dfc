import Hyperstory.Proofs.InlineLines
import Hyperstory.Proofs.Positions

/-!
Every problem is reported with its place. Where the lines of a stream are known, each node that the
walk can come to has a position, only what is below an image may have none. Replacing a directive
hands positions on to what takes its place, so a problem is never without one.
-/
namespace Hyperstory

open Hyperstory.Tree Expansion

/-- A position in a document: lines and columns are counted from one. -/
structure Position.Counted (p : Position) : Prop where
  line : 1 ≤ p.line
  column : 1 ≤ p.column

theorem Position.Counted.shift {p : Position} (h : p.Counted) (lines columns : Nat) :
    (p.shift lines columns).Counted := by
  have hline := h.line
  have hcolumn := h.column
  unfold Position.shift
  split_ifs
  · constructor <;> dsimp only <;> omega
  · constructor <;> dsimp only <;> omega

/-- A node has a position in the document. -/
def Node.Charted (n : Node) : Prop := ∃ p, n.position = some p ∧ p.Counted

theorem Node.Charted.congr {n m : Node} (h : n.Charted) (heq : m.position = n.position) :
    m.Charted := by
  obtain ⟨p, hp, hcounted⟩ := h
  exact ⟨p, heq.trans hp, hcounted⟩

/-! ### Streams whose lines are known -/

/-- The lines of a stream are known: every token among the blocks that opens a container or stands
alone has lines, and so has every inline token. Lines are counted from zero. -/
structure Mapped (tokens : List Token) : Prop where
  block : ∀ tok ∈ tokens, tok.nesting ≠ .closes → tok.map.isSome
  inline : ∀ within tok, Stands false tokens within tok → tok.kind = "inline" → tok.map.isSome
  counted : ∀ within tok first last, Stands false tokens within tok →
    tok.map = some (first, last) → 0 ≤ first

/-- A token whose lines, if it has any, are counted from zero. An inline token has them. -/
structure Token.Lined (tok : Token) : Prop where
  inline : tok.kind = "inline" → tok.map.isSome
  counted : ∀ first last, tok.map = some (first, last) → 0 ≤ first

theorem Mapped.lined {tokens : List Token} (h : Mapped tokens) {within : Bool} {tok : Token}
    (htok : Stands false tokens within tok) : tok.Lined :=
  ⟨h.inline within tok htok, fun first last => h.counted within tok first last htok⟩

/-- A stream with nothing inside its inline tokens but leaves and tags can be checked token by
token. -/
theorem mapped_of_flat {tokens : List Token}
    (hblock : ∀ tok ∈ tokens, tok.nesting ≠ .closes → tok.map.isSome)
    (hflat : ∀ tok ∈ tokens.flatMap Token.kids, tok.kind ≠ "inline" ∧ tok.kind ≠ "image")
    (hmaps : ∀ tok ∈ tokens ++ tokens.flatMap Token.kids,
      (tok.kind = "inline" → tok.map.isSome) ∧ ∀ m ∈ tok.map, 0 ≤ m.1) : Mapped tokens := by
  have hmem : ∀ within tok, Stands false tokens within tok →
      tok ∈ tokens ++ tokens.flatMap Token.kids := by
    intro within tok h
    cases h with
    | here h => exact List.mem_append_left _ h
    | inside houter _ hkids =>
      refine List.mem_append_right _ ?_
      cases hkids with
      | here h => exact List.mem_flatMap.mpr ⟨_, houter, h⟩
      | inside hinner hkind _ =>
        obtain ⟨hinline, himage⟩ := hflat _ (List.mem_flatMap.mpr ⟨_, houter, hinner⟩)
        exact absurd hkind (not_or.mpr ⟨hinline, himage⟩)
  exact ⟨hblock, fun within tok h => (hmaps tok (hmem within tok h)).1,
    fun within tok first last h hmap => (hmaps tok (hmem within tok h)).2 (first, last) hmap⟩

/-- A line of a document is known. -/
def IsLine (line : Option Int) : Prop := ∃ l, line = some l ∧ 1 ≤ l

theorem IsLine.lineAfter {line : Option Int} (h : IsLine line) (tok : Token) :
    IsLine (tok.lineAfter line) := by
  obtain ⟨l, rfl, hl⟩ := h
  unfold Token.lineAfter
  split_ifs
  · exact ⟨l + 1, rfl, by omega⟩
  · exact ⟨l + tok.content.toList.count '\n', rfl, by omega⟩
  · exact ⟨l, rfl, hl⟩

theorem Token.Lined.isLine {tok : Token} (h : tok.Lined) (hkind : tok.kind = "inline") :
    IsLine (tok.map.map fun m => m.1 + 1) := by
  obtain ⟨⟨first, last⟩, hmap⟩ := Option.isSome_iff_exists.mp (h.inline hkind)
  have hfirst := h.counted first last hmap
  refine ⟨first + 1, by rw [hmap]; rfl, by omega⟩

/-- A token has a place if it has lines of its own, or if the line that is read is known. -/
theorem Token.Lined.charted_toNode {tok : Token} (h : tok.Lined) {line : Option Int}
    (hline : tok.map.isSome ∨ IsLine line) (inline : Bool) : (tok.toNode inline line).Charted := by
  unfold Node.Charted
  rw [Token.toNode_position, Token.nodePosition]
  cases hmap : tok.map with
  | some m =>
    obtain ⟨first, last⟩ := m
    have hfirst := h.counted first last hmap
    refine ⟨_, rfl, ?_, le_rfl⟩
    dsimp only
    split_ifs <;> omega
  | none =>
    rw [hmap] at hline
    obtain ⟨l, rfl, hl⟩ := hline.resolve_left (by simp)
    exact ⟨_, rfl, hl, le_rfl⟩

/-! ### What the walk can come to -/

namespace Forest

variable {t t' t'' : Forest} {kids kids' kids'' : NodeId → List NodeId} {i top : NodeId}
  {stack : List NodeId}

/-- A node that is not below an image. -/
inductive Seen (t : Forest) (kids : NodeId → List NodeId) : NodeId → Prop
  | root : Seen t kids 0
  | child {p c : NodeId} (hp : Seen t kids p) (hkind : (t.label p).kind ≠ "image")
      (hc : c ∈ kids p) : Seen t kids c

/-- Every node but the root has a position, unless it is below an image. -/
def Surveyed (t : Forest) (kids : NodeId → List NodeId) : Prop :=
  ∀ i, t.Seen kids i → i ≠ 0 → (t.label i).Charted

/-- What is added below a node is not seen. -/
def Hides (t : Forest) (kids : NodeId → List NodeId) (i : NodeId) : Prop :=
  t.Seen kids i → (t.label i).kind = "image"

/-- Nodes may have come below others, but none is seen now that was not before. -/
structure Shades (t : Forest) (kids : NodeId → List NodeId) (t' : Forest)
    (kids' : NodeId → List NodeId) : Prop where
  size_le : t.size ≤ t'.size
  container : ∀ i : Nat, i < t.size → (t'.label i).container = (t.label i).container
  kind : ∀ i : Nat, i < t.size → (t'.label i).kind = (t.label i).kind
  seen : ∀ i : Nat, i < t.size → t'.Seen kids' i → t.Seen kids i

theorem Shades.refl (t : Forest) (kids : NodeId → List NodeId) : Shades t kids t kids :=
  ⟨le_rfl, fun _ _ => rfl, fun _ _ => rfl, fun _ _ => id⟩

theorem Shades.trans (h : Shades t kids t' kids') (h' : Shades t' kids' t'' kids'') :
    Shades t kids t'' kids'' := by
  have hlt : ∀ i : Nat, i < t.size → i < t'.size := fun i hi => hi.trans_le h.size_le
  refine ⟨h.size_le.trans h'.size_le, fun i hi => ?_, fun i hi => ?_, fun i hi hseen => ?_⟩
  · rw [h'.container i (hlt i hi), h.container i hi]
  · rw [h'.kind i (hlt i hi), h.kind i hi]
  · exact h.seen i hi (h'.seen i (hlt i hi) hseen)

/-- The nodes on a stack are containers of the table. -/
def Holds (t : Forest) (stack : List NodeId) : Prop :=
  ∀ s : Nat, s ∈ stack → s < t.size ∧ (t.label s).container = true

theorem Holds.mono (h : t.Holds stack) (hshades : Shades t kids t' kids') : t'.Holds stack := by
  intro s hs
  obtain ⟨hsize, hc⟩ := h s hs
  exact ⟨hsize.trans_le hshades.size_le, (hshades.container s hsize).trans hc⟩

/-- Every token that is read next gets a position, or is put where it is not seen. -/
def Guided (t : Forest) (kids : NodeId → List NodeId) (stack : List NodeId) (tokens : List Token)
    (line : Option Int) : Prop :=
  IsLine line ∨ (∀ tok ∈ tokens, tok.nesting ≠ .closes → tok.map.isSome) ∨
    ∀ s ∈ stack, t.Hides kids s

/-- The next tokens are read below nodes that were there before, or below new ones that are not
seen. -/
theorem Guided.next {tok : Token} {rest : List Token} {line line' : Option Int}
    {stack' : List NodeId} (h : t.Guided kids stack (tok :: rest) line)
    (hline : IsLine line → IsLine line')
    (hstack : (∀ s ∈ stack, t.Hides kids s) → ∀ s ∈ stack', t'.Hides kids' s) :
    t'.Guided kids' stack' rest line' := by
  rcases h with h | h | h
  · exact .inl (hline h)
  · exact .inr (.inl fun tok' htok' => h tok' (List.mem_cons_of_mem _ htok'))
  · exact .inr (.inr (hstack h))

theorem Shades.hides (h : Shades t kids t' kids') (hsize : i < t.size) (hi : t.Hides kids i) :
    t'.Hides kids' i := fun hseen => (h.kind i hsize).trans (hi (h.seen i hsize hseen))

theorem Shades.hides_stack (h : Shades t kids t' kids') (hstack : t.Holds stack)
    (hhides : ∀ s ∈ stack, t.Hides kids s) : ∀ s ∈ stack, t'.Hides kids' s :=
  fun s hs => h.hides (hstack s hs).1 (hhides s hs)

/-- Where labels are of the same kind and no child is new, nothing new is seen. -/
theorem Seen.mono (hkind : ∀ i, (t'.label i).kind = (t.label i).kind)
    (hkids : ∀ p, ∀ c ∈ kids' p, c ∈ kids p) (h : t'.Seen kids' i) : t.Seen kids i := by
  induction h with
  | root => exact .root
  | @child p c _ hp hc ih => exact .child ih (hkind p ▸ hp) (hkids p c hc)

theorem Surveyed.mono (h : t.Surveyed kids) (hkind : ∀ i, (t'.label i).kind = (t.label i).kind)
    (hposition : ∀ i, (t'.label i).position = (t.label i).position)
    (hkids : ∀ p, ∀ c ∈ kids' p, c ∈ kids p) : t'.Surveyed kids' :=
  fun i hseen hi => (h i (hseen.mono hkind hkids) hi).congr (hposition i)

/-- Joining texts leaves the positions of what is left. -/
theorem Surveyed.thinned (h : t.Surveyed kids) (hthin : Thinned t kids t' kids') :
    t'.Surveyed kids' :=
  h.mono (fun i => (congrArg Node.kind (hthin.label i) :))
    (fun i => (congrArg Node.position (hthin.label i) :)) fun p _ hc => (hthin.kids p).subset hc

/-! ### Reading a stream -/

theorem shades_close (t : Forest) (kids : NodeId → List NodeId) (top : NodeId) (tok : Token) :
    Shades t kids (t.modify top fun n => { n with closing := some tok }) kids := by
  have hopened := fun i => t.opened_close top i tok
  refine ⟨by simp, fun i _ => (congrArg Node.container (hopened i) :),
    fun i _ => (congrArg Node.kind (hopened i) :), fun i _ hseen => ?_⟩
  exact hseen.mono (fun i => (congrArg Node.kind (hopened i) :)) fun _ _ => id

theorem Surveyed.close (h : t.Surveyed kids) (top : NodeId) (tok : Token) :
    (t.modify top fun n => { n with closing := some tok }).Surveyed kids := by
  have hopened := fun i => t.opened_close top i tok
  exact h.mono (fun i => (congrArg Node.kind (hopened i) :))
    (fun i => (congrArg Node.position (hopened i) :)) fun _ _ => id

section Hang

variable {tok : Token} {inline : Bool} {line : Option Int}

/-- A node that is hung in is seen only if the one above it is seen and no image. -/
theorem seen_hang (hd : t.Document kids) (hsize : top < t.size)
    (h : (t.hang top tok inline line).Seen (Function.update kids top (kids top ++ [t.size])) i) :
    (i ≠ t.size → t.Seen kids i) ∧
      (i = t.size → t.Seen kids top ∧ (t.label top).kind ≠ "image") := by
  induction h with
  | root => exact ⟨fun _ => .root, fun h => absurd h hd.size_pos.ne⟩
  | @child p c _ hkind hc ih =>
    have hold : p < t.size → t.Seen kids p ∧ (t.label p).kind ≠ "image" := by
      intro hp
      rw [hang, label_hang, if_neg hp.ne] at hkind
      exact ⟨ih.1 hp.ne, hkind⟩
    by_cases hp : p = top
    · subst hp
      obtain ⟨hseen, hkind⟩ := hold hsize
      rw [Function.update_self, List.mem_append, List.mem_singleton] at hc
      exact ⟨fun hne => .child hseen hkind (hc.resolve_right hne), fun _ => ⟨hseen, hkind⟩⟩
    · rw [Function.update_of_ne hp] at hc
      obtain ⟨hlater, hlt⟩ := hd.linked.later p c hc
      obtain ⟨hseen, hkind⟩ := hold (hlater.trans hlt)
      exact ⟨fun _ => .child hseen hkind hc, fun h => absurd h hlt.ne⟩

theorem shades_hang (hd : t.Document kids) (hsize : top < t.size) :
    Shades t kids (t.hang top tok inline line)
      (Function.update kids top (kids top ++ [t.size])) := by
  have hlabel : ∀ i : Nat, i < t.size → (t.hang top tok inline line).label i = t.label i :=
    fun i hi => (t.label_hang top tok inline line i).trans (if_neg hi.ne)
  refine ⟨by simp [hang], fun i hi => ?_, fun i hi => ?_, fun i hi h => (seen_hang hd hsize h).1 hi.ne⟩
  · rw [hlabel i hi]
  · rw [hlabel i hi]

/-- Below a node that hides what is below it, a new node does so too. -/
theorem hides_hang (hd : t.Document kids) (hsize : top < t.size) (h : t.Hides kids top) :
    (t.hang top tok inline line).Hides (Function.update kids top (kids top ++ [t.size])) t.size := by
  intro hseen
  obtain ⟨htop, hkind⟩ := (seen_hang hd hsize hseen).2 rfl
  exact absurd (h htop) hkind

theorem Surveyed.hang (h : t.Surveyed kids) (hd : t.Document kids) (hsize : top < t.size)
    (hnew : t.Hides kids top ∨ (tok.toNode inline line).Charted) :
    (t.hang top tok inline line).Surveyed (Function.update kids top (kids top ++ [t.size])) := by
  intro i hseen hi
  obtain ⟨hold, hlast⟩ := seen_hang hd hsize hseen
  rw [Forest.hang, label_hang]
  split_ifs with heq
  · obtain ⟨htop, hkind⟩ := hlast heq
    exact hnew.resolve_left fun hhides => hkind (hhides htop)
  · exact h i (hold heq) hi

/-- What is read next is guided: the token has a place, or it is not seen. -/
theorem Guided.hides_or_charted {rest : List Token} {below : List NodeId}
    (h : t.Guided kids (top :: below) (tok :: rest) line) (htok : tok.Lined)
    (hnesting : tok.nesting ≠ .closes) (inline : Bool) :
    t.Hides kids top ∨ (tok.toNode inline line).Charted := by
  rcases h with h | h | h
  · exact .inr (htok.charted_toNode (.inr h) inline)
  · exact .inr (htok.charted_toNode (.inl (h tok List.mem_cons_self hnesting)) inline)
  · exact .inl (h top List.mem_cons_self)

/-- A new container can be on a stack. -/
theorem holds_hang (h : tok.nesting = .opens ∨ tok.kind = "image") :
    (t.hang top tok inline line).Holds [t.size] := by
  intro s hs
  obtain rfl := List.mem_singleton.mp hs
  exact ⟨by simp [hang], t.label_hang_container top line h⟩

theorem hang_surveyed {rest : List Token} {below : List NodeId} (hd : t.Document kids)
    (hstack : t.Holds (top :: below)) (hsurveyed : t.Surveyed kids)
    (hlined : ∀ within tok', Stands inline (tok :: rest) within tok' → tok'.Lined)
    (hguided : t.Guided kids (top :: below) (tok :: rest) line) (hnesting : tok.nesting ≠ .closes) :
    ∃ kids', (t.hang top tok inline line).Document kids' ∧
      (t.hang top tok inline line).Surveyed kids' ∧
      Shades t kids (t.hang top tok inline line) kids' ∧
      (t.Hides kids top → (t.hang top tok inline line).Hides kids' t.size) := by
  obtain ⟨hsize, hc⟩ := hstack top List.mem_cons_self
  have htok := hlined inline tok (.here List.mem_cons_self)
  refine ⟨_, hd.hang hsize hc tok inline line, ?_, shades_hang hd hsize, hides_hang hd hsize⟩
  exact hsurveyed.hang hd hsize (hguided.hides_or_charted htok hnesting inline)

end Hang

/-- Reading a stream gives every node that is seen a position. -/
theorem attach_surveyed {tokens : List Token} {inline : Bool} {line : Option Int}
    (h : t.attach stack tokens inline line = .ok t') (hd : t.Document kids)
    (hstack : t.Holds stack) (hsurveyed : t.Surveyed kids)
    (hlined : ∀ within tok, Stands inline tokens within tok → tok.Lined)
    (hguided : t.Guided kids stack tokens line) :
    ∃ kids', t'.Document kids' ∧ t'.Surveyed kids' ∧ Shades t kids t' kids' := by
  fun_induction Forest.attach t stack tokens inline line generalizing t' kids with
  | case1 t =>
    obtain rfl := Except.ok.inj h
    exact ⟨kids, hd, hsurveyed, .refl t kids⟩
  | case2 => cases h
  | case3 t inline line tok rest hcloses top below ih =>
    have hshades := shades_close t kids top tok
    have hbelow : t.Holds below := fun s hs => hstack s (List.mem_cons_of_mem top hs)
    obtain ⟨kids', hd', hsurveyed', hshades'⟩ := ih h
      (hd.modify top (fun _ => rfl) ⟨rfl, rfl, fun _ => id⟩) (hbelow.mono hshades)
      (hsurveyed.close top tok) (fun w x hx => hlined w x hx.tail)
      (hguided.next id fun hhides => hshades.hides_stack hbelow fun s hs =>
        hhides s (List.mem_cons_of_mem top hs))
    exact ⟨kids', hd', hsurveyed', hshades.trans hshades'⟩
  | case4 => cases h
  | case5 t inline line tok rest hcloses hkind top below ihkids ihrest =>
    have hkind : tok.kind = "inline" := by simpa using hkind
    obtain ⟨t₁, hkids, hrest⟩ := exists_of_bind_ok h
    have htop : t.Holds [top] := fun s hs =>
      hstack s (by rw [List.mem_singleton.mp hs]; exact List.mem_cons_self)
    obtain ⟨kids₁, hd₁, hsurveyed₁, hshades₁⟩ := ihkids hkids hd htop hsurveyed
      (fun w x hx => hlined w x (.head_kids (.inl hkind) hx))
      (.inl ((hlined inline tok (.here List.mem_cons_self)).isLine hkind))
    obtain ⟨kids', hd', hsurveyed', hshades'⟩ := ihrest t₁ hrest hd₁ (hstack.mono hshades₁)
      hsurveyed₁ (fun w x hx => hlined w x hx.tail) (hguided.next id (hshades₁.hides_stack hstack))
    exact ⟨kids', hd', hsurveyed', hshades₁.trans hshades'⟩
  | case6 => cases h
  | case7 t inline line tok rest hcloses hkind top below =>
    rename_i t₁ i hadd t₂ next hopens ih
    obtain ⟨rfl, rfl⟩ := Prod.mk.inj hadd
    obtain ⟨kids₂, hd₂, hsurveyed₂, hshades₂, hhides₂⟩ :=
      hang_surveyed hd hstack hsurveyed hlined hguided hcloses
    have hstack₂ : t₂.Holds (t.size :: top :: below) := List.forall_mem_cons.mpr
      ⟨holds_hang (.inl hopens) _ List.mem_cons_self, hstack.mono hshades₂⟩
    obtain ⟨kids', hd', hsurveyed', hshades'⟩ := ih h hd₂ hstack₂ hsurveyed₂
      (fun w x hx => hlined w x hx.tail)
      (hguided.next (fun hline => hline.lineAfter tok) fun hhides => List.forall_mem_cons.mpr
        ⟨hhides₂ (hhides top List.mem_cons_self), hshades₂.hides_stack hstack hhides⟩)
    exact ⟨kids', hd', hsurveyed', hshades₂.trans hshades'⟩
  | case8 t inline line tok rest hcloses hkind top below =>
    rename_i t₁ i hadd t₂ next hopens himage ihkids ihrest
    obtain ⟨rfl, rfl⟩ := Prod.mk.inj hadd
    have himage : tok.kind = "image" := by simpa using himage
    obtain ⟨t₃, hkids, hrest⟩ := exists_of_bind_ok h
    obtain ⟨kids₂, hd₂, hsurveyed₂, hshades₂, -⟩ :=
      hang_surveyed hd hstack hsurveyed hlined hguided hcloses
    -- Whatever has no line inside of the image is not seen.
    have hhides : t₂.Hides kids₂ t.size := by
      intro _
      show ((t.hang top tok inline line).label t.size).kind = "image"
      rw [hang, label_hang, if_pos rfl, tok.toNode_kind, Token.nodeKind, if_neg hopens, himage]
      rfl
    obtain ⟨kids₃, hd₃, hsurveyed₃, hshades₃⟩ := ihkids hkids hd₂ (holds_hang (.inr himage))
      hsurveyed₂ (fun w x hx => hlined w x (.head_kids (.inr himage) hx))
      (.inr (.inr fun s hs => List.mem_singleton.mp hs ▸ hhides))
    have hshades := hshades₂.trans hshades₃
    obtain ⟨kids', hd', hsurveyed', hshades'⟩ := ihrest t₃ hrest hd₃ (hstack.mono hshades)
      hsurveyed₃ (fun w x hx => hlined w x hx.tail)
      (hguided.next (fun hline => hline.lineAfter tok) (hshades.hides_stack hstack))
    exact ⟨kids', hd', hsurveyed', hshades.trans hshades'⟩
  | case9 t inline line tok rest hcloses hkind top below =>
    rename_i t₁ i hadd t₂ next hopens himage ih
    obtain ⟨rfl, rfl⟩ := Prod.mk.inj hadd
    obtain ⟨kids₂, hd₂, hsurveyed₂, hshades₂, -⟩ :=
      hang_surveyed hd hstack hsurveyed hlined hguided hcloses
    obtain ⟨kids', hd', hsurveyed', hshades'⟩ := ih h hd₂ (hstack.mono hshades₂) hsurveyed₂
      (fun w x hx => hlined w x hx.tail)
      (hguided.next (fun hline => hline.lineAfter tok) (hshades₂.hides_stack hstack))
    exact ⟨kids', hd', hsurveyed', hshades₂.trans hshades'⟩

/-- Every node of a row has a position, unless it is below an image. -/
inductive SurveyedRow : List (Tree Node) → Prop
  | nil : SurveyedRow []
  | cons {n : Node} {cs rest : List (Tree Node)} (hn : n.Charted)
      (below : n.kind ≠ "image" → SurveyedRow cs) (after : SurveyedRow rest) :
      SurveyedRow (.node n cs :: rest)

theorem Surveyed.row (h : t.Surveyed kids) (hlinked : t.Linked kids) {row : List (Tree NodeId)}
    (hrow : Follows kids row) (htop : ∀ x ∈ row, t.Seen kids x.value ∧ x.value ≠ 0) :
    SurveyedRow (mapAll t.label row) := by
  induction hrow with
  | nil =>
    rw [mapAll_nil]
    exact .nil
  | @cons i cs rest hkids _ _ ihbelow ihafter =>
    obtain ⟨⟨hseen, hi⟩, hrest⟩ := List.forall_mem_cons.mp htop
    rw [mapAll_cons, map_node]
    refine .cons (h i hseen hi) (fun hkind => ihbelow fun x hx => ?_) (ihafter hrest)
    have hmem : x.value ∈ kids i := hkids ▸ List.mem_map_of_mem hx
    exact ⟨.child hseen hkind hmem, Nat.ne_zero_of_lt (hlinked.later i x.value hmem).1⟩

end Forest

/-- The joined tree of a stream whose lines are known. -/
theorem Mapped.surveyedRow {tokens : List Token} {t : Forest} (h : Mapped tokens)
    (hjoins : Compiler.Joins tokens t) : Forest.SurveyedRow (t.tree 0).row := by
  obtain ⟨raw, hraw, hmerge⟩ := hjoins
  have hroot : Forest.Surveyed (Forest.add {} { kind := "document", container := true }).1
      fun _ => [] := by
    intro i hseen hi
    cases hseen with
    | root => exact absurd rfl hi
    | child _ _ hc => cases hc
  have hstack : (Forest.add {} { kind := "document", container := true }).1.Holds [0] := by
    intro s hs
    obtain rfl := List.mem_singleton.mp hs
    exact ⟨by simp, rfl⟩
  obtain ⟨kids, hd, hsurveyed, -⟩ := Forest.attach_surveyed hraw Forest.document_root hstack hroot
    (fun within tok htok => h.lined htok) (.inr (.inl h.block))
  obtain ⟨kids', hd', hthin⟩ := Forest.mergeText_document hd hmerge
  have hsurveyed' := hsurveyed.thinned hthin
  obtain ⟨cs, hvalues, hcs⟩ := hd'.linked.exists_row (kids' 0)
  rw [hd'.linked.tree_eq (.cons hvalues.symm hcs .nil), row_node]
  refine hsurveyed'.row hd'.linked hcs fun x hx => ?_
  have hmem : x.value ∈ kids' 0 := hvalues ▸ List.mem_map_of_mem hx
  refine ⟨.child .root ?_ hmem, Nat.ne_zero_of_lt (hd'.linked.later 0 x.value hmem).1⟩
  rw [hd'.rootKind]
  decide

/-! ### Replacing directives -/

/-- A problem is reported with a path and a position in the document. -/
def Pinned (path : String) (d : Diagnostic) : Prop :=
  ∃ p : Position, p.Counted ∧ d.path = some path ∧ d.line = some p.line ∧ d.column = some p.column

/-- What takes the place of a row has positions, and a problem in it is pinned. -/
def Traced (path : String) : Except Failure (List (Tree Node)) → Prop
  | .ok out => ∀ x ∈ out, x.value.Charted
  | .error (.problem d) => Pinned path d
  | .error (.fault _) => True

section Replacing

variable {path : String} {n : Node} {row : List (Tree Node)}

theorem traced_problemAt (hn : n.Charted) (path : String) (lines columns : Nat) (cause : Cause) :
    Traced path (.error (problemAt path n lines columns cause)) := by
  obtain ⟨p, hp, hcounted⟩ := hn
  rw [problemAt_eq, Offset.place, hp]
  exact ⟨_, hcounted.shift lines columns, rfl, rfl, rfl⟩

theorem Node.Charted.remainder (hn : n.Charted) (d : Directive) (o : Opening) :
    (Expansion.remainder n d o).Charted := by
  obtain ⟨p, hp, hcounted⟩ := hn
  refine ⟨_, ?_, hcounted.shift o.lines (o.columns + d.text.length)⟩
  rw [Expansion.remainder, hp]
  rfl

theorem Node.Charted.kept (hn : n.Charted) (d : Directive) :
    ∀ x ∈ Expansion.kept n d, x.value.Charted := by
  have hshortened : (Expansion.shortened n d).Charted := hn.congr rfl
  unfold Expansion.kept
  split_ifs
  · simp
  · simpa using hshortened

/-- However many directives a leaf has, what is left of it after each has a position. -/
theorem segments_traced (hn : n.Charted) (path : String) (place : Place) :
    Traced path (segments path place n) := by
  have hexpanded : ∀ {n : Node} (d : Directive) {rest : List (Tree Node)}, n.Charted →
      (∀ x ∈ rest, x.value.Charted) → Traced path (.ok (kept n d ++ expanded n d :: rest)) := by
    intro n d rest hn hrest
    exact List.forall_mem_append.mpr ⟨hn.kept d, List.forall_mem_cons.mpr ⟨hn.congr rfl, hrest⟩⟩
  fun_induction segments path place n with
  | case1 place n hfind => simpa [Traced] using hn
  | case2 place n o hfind e hscan => exact traced_problemAt hn path _ _ _
  | case3 place n o hfind d hscan hbegin => exact traced_problemAt hn path _ _ _
  | case4 place n o hfind d hscan hbegin hrest => exact hexpanded d hn (by simp)
  | case5 place n o hfind d hscan hbegin hrest row hrow ih =>
    have hafter := ih (hn.remainder d o)
    rw [hrow] at hafter
    exact hexpanded d hn hafter
  | case6 place n o hfind d hscan hbegin hrest e herror ih =>
    have hafter := ih (hn.remainder d o)
    rwa [herror] at hafter

theorem expandImage_traced (hn : n.Charted) (path : String) (row : List (Tree Node)) :
    Traced path (expandImage path n row) := by
  unfold expandImage
  cases altOf row with
  | none => trivial
  | some alt =>
    dsimp only
    cases AttrValue.destination n.destination with
    | error f => trivial
    | ok destination =>
      dsimp only
      cases imageMarkup destination alt with
      | error cause => exact traced_problemAt hn path 0 0 cause
      | ok markup => exact List.forall_mem_singleton.mpr (hn.congr rfl)

/-- The problem of a link is reported where the link begins. -/
theorem anchorOf?_eq_error {e : Failure} (h : anchorOf? path n = .error e) :
    (∃ f, e = .fault f) ∨ ∃ cause, e = problemAt path n 0 0 cause := by
  unfold anchorOf? at h
  cases hdestination : AttrValue.destination n.destination with
  | error f =>
    rw [hdestination] at h
    exact .inl ⟨f, (Except.error.inj h).symm⟩
  | ok destination =>
    rw [hdestination] at h
    dsimp only at h
    right
    split_ifs at h
    split at h
    · exact ⟨_, (Except.error.inj h).symm⟩
    · split at h
      · split_ifs at h
        · split at h
          · exact ⟨_, (Except.error.inj h).symm⟩
          · exact ⟨_, (Except.error.inj h).symm⟩
          · cases h
        · exact ⟨_, (Except.error.inj h).symm⟩
      · cases h
      · cases h
      · exact ⟨_, (Except.error.inj h).symm⟩
      · exact ⟨_, (Except.error.inj h).symm⟩

theorem expandOver_traced (hn : n.Charted) (w : Wording) (path : String) (tally : Tally)
    (row : List (Tree Node)) : Traced path (expandOver w path tally n row).2 := by
  have hstays : Traced path (.ok [.node n row]) := List.forall_mem_singleton.mpr hn
  unfold expandOver
  split_ifs
  · unfold expandLink
    cases ha : anchorOf? path n with
    | error e =>
      rcases anchorOf?_eq_error ha with ⟨f, rfl⟩ | ⟨cause, rfl⟩
      · trivial
      · exact traced_problemAt hn path 0 0 cause
    | ok found =>
      cases found with
      | none => exact hstays
      | some a =>
        show Traced path (anchored n row (a.id? w tally) a.action a.target)
        unfold anchored
        cases inlineText row with
        | error f => trivial
        | ok text => exact List.forall_mem_singleton.mpr (hn.congr rfl)
  · exact hstays

theorem traced_andThen {x : Tally × Except Failure (List (Tree Node))}
    {g : Tally → List (Tree Node) → Tally × Except Failure (List (Tree Node))}
    (hx : Traced path x.2)
    (hg : ∀ tally out, (∀ y ∈ out, y.value.Charted) → Traced path (g tally out).2) :
    Traced path (andThen x g).2 := by
  obtain ⟨tally, result⟩ := x
  cases result with
  | error e => exact hx
  | ok out => exact hg tally out hx

/-- One node, over a row whose problems are pinned. The text of a declaration is the one node below
a paragraph, so it has a position too. -/
private theorem expand_traced_of_row (hn : n.Charted)
    (hbelow : n.kind ≠ "image" → Forest.SurveyedRow row) {w : Wording}
    (ih : n.kind ≠ "image" → ∀ (place : Place) (tally : Tally),
      Traced path (expandAll w path place tally row).2)
    (place : Place) (tally : Tally) : Traced path (expand w path place tally (.node n row)).2 := by
  cases shape place.parentKind n row with
  | image hkind =>
    rw [expand_image hkind]
    exact expandImage_traced hn path row
  | scanned hc hs =>
    rw [expand_scanned hc hs]
    exact segments_traced hn path place
  | plain hkind hc hs =>
    rw [expand_plain hkind hc hs]
    exact List.forall_mem_singleton.mpr hn
  | opening text d hdecl =>
    obtain ⟨⟨below, rfl⟩, -, hkind, -⟩ := declaration?_eq_some hdecl
    have htext : text.Charted := by
      cases hbelow (by rw [hkind]; decide) with
      | cons htext _ _ => exact htext
    rw [expand_section hdecl]
    unfold expandSection
    cases declarationProblem? place tally d with
    | some cause => exact traced_problemAt htext path 0 0 cause
    | none => exact List.forall_mem_singleton.mpr (hn.congr rfl)
  | container hkind hc hdecl =>
    rw [expand_container hkind hc hdecl]
    exact traced_andThen (ih hkind _ tally) fun tally₁ inner _ =>
      expandOver_traced hn w path tally₁ inner

/-- Every problem in a row is pinned, and what takes the place of its nodes has positions. -/
theorem expandAll_traced (hrow : Forest.SurveyedRow row) (w : Wording) (path : String)
    (place : Place) (tally : Tally) : Traced path (expandAll w path place tally row).2 := by
  induction hrow generalizing place tally with
  | nil =>
    rw [expandAll]
    simp [Traced]
  | cons hn hbelow _ ihbelow ihafter =>
    rw [expandAll_cons]
    exact traced_andThen (expand_traced_of_row hn hbelow ihbelow _ tally)
      fun tally₁ out₁ hout₁ => traced_andThen (ihafter _ tally₁)
        fun tally₂ out₂ hout₂ => List.forall_mem_append.mpr ⟨hout₁, hout₂⟩

end Replacing

/-! ### Compiling -/

theorem Pinned.describe {path : String} {d : Diagnostic} (h : Pinned path d) :
    ∃ line column : Int, 1 ≤ line ∧ 1 ≤ column ∧ d.path = some path ∧ d.line = some line ∧
      d.column = some column ∧
      d.describe =
        path ++ " (" ++ toString line ++ "," ++ toString column ++ "): " ++ d.what.message := by
  obtain ⟨p, hcounted, hpath, hline, hcolumn⟩ := h
  refine ⟨p.line, p.column, hcounted.line, hcounted.column, hpath, hline, hcolumn, ?_⟩
  rw [Diagnostic.describe, Located.describe, hpath, hline, hcolumn]
  rfl

namespace Compiler

variable {c : Compiler} {path : String} {tokens : List Token} {t : Forest} {problem : Diagnostic}

/-- The one problem that is found after the walk is reported where the first block stands. -/
theorem finish_pinned {kids : NodeId → List NodeId} (hd : t.Document kids)
    (hrow : ∀ x ∈ (t.tree 0).row, x.value.Charted)
    (h : (c.finish path t).outcome = .error (.problem problem)) : Pinned path problem := by
  cases htree : (t.tree 0).row with
  | nil =>
    rw [finish_of_nil hd htree] at h
    cases h
  | cons x rest =>
    by_cases hcount : c.sectionCount = 0
    · rw [finish_of_no_section hd htree hcount] at h
      obtain rfl := Failure.problem.inj (Except.error.inj h)
      obtain ⟨p, hp, hcounted⟩ := hrow x (by simp [htree])
      rw [hp]
      exact ⟨p, hcounted, rfl, rfl, rfl⟩
    · have houtcome : (c.finish path t).outcome = page (closed t) :=
        (finish_of_ne_nil hd (by simp [htree]) hcount).1
      rw [houtcome] at h
      exact absurd h (page_ne_problem _ problem)

/-- Where the lines of a stream are known, every problem that compiling it reports has the path of
the file, a line and a column of the document, and says so. -/
theorem compileTokens_problem_located (hmapped : Mapped tokens)
    (h : (c.compileTokens path tokens).outcome = .error (.problem problem)) :
    ∃ line column : Int, 1 ≤ line ∧ 1 ≤ column ∧ problem.path = some path ∧
      problem.line = some line ∧ problem.column = some column ∧
      problem.describe =
        path ++ " (" ++ toString line ++ "," ++ toString column ++ "): " ++
          problem.what.message := by
  refine Pinned.describe ?_
  rcases joins_or_fault c path tokens with ⟨t, hjoins⟩ | ⟨f, hfault, -⟩
  · obtain ⟨final, hall, herror, hok⟩ := hjoins.all_eq path c.tally
    have htraced := expandAll_traced (hmapped.surveyedRow hjoins) .standard path
      { parentKind := "document" } c.tally
    cases hresult : (expandAll .standard path { parentKind := "document" } c.tally
        (t.tree 0).row).2 with
    | error e =>
      rw [hresult] at htraced
      rw [herror e hresult] at hall
      obtain ⟨houtcome, -⟩ := compileTokens_of_error hjoins hall
      obtain rfl := Except.error.inj (houtcome.symm.trans h)
      exact htraced
    | ok out =>
      rw [hresult] at htraced
      obtain ⟨t', kids', rfl, hd', htree⟩ := hok out hresult
      obtain ⟨houtcome, -⟩ := compileTokens_of_ok hjoins hall
      rw [houtcome] at h
      exact finish_pinned hd' (by rw [htree]; exact htraced) h
  · rw [hfault] at h
    cases h

/-- A section whose text has two references on two lines, and then a directive that does not end. -/
def unendedStory : List Token :=
  paragraphTokens (textTokens "\x7b\x7bA\x7d\x7d") (some (0, 1)) ++
    paragraphTokens (textTokens "see \x7b@b\x7d" ++ { kind := "softbreak", tag := "br" } ::
      textTokens "and \x7b$c\x7d, not \x7bd") (some (2, 4))

theorem mapped_unendedStory : Mapped unendedStory :=
  mapped_of_flat (by decide) (by decide) (by decide)

theorem compileTokens_problem_located_unendedStory :
    Mapped unendedStory ∧
      ∃ problem : Diagnostic, problem.describe = "s.md (4,15): Unterminated macro near \"\x7bd\"" ∧
        (({} : Compiler).compileTokens "s.md" unendedStory).outcome = .error (.problem problem) ∧
        ∃ line column : Int, 1 ≤ line ∧ 1 ≤ column ∧ problem.path = some "s.md" ∧
          problem.line = some line ∧ problem.column = some column ∧
          problem.describe =
            "s.md" ++ " (" ++ toString line ++ "," ++ toString column ++ "): " ++
              problem.what.message := by
  have heval : (({} : Compiler).compileTokens "s.md" unendedStory).outcome =
      .error (.problem ⟨.unterminated "\x7bd", some "s.md", some 4, some 15⟩) := by
    decide +kernel
  exact ⟨mapped_unendedStory, _, by decide +kernel, heval,
    compileTokens_problem_located mapped_unendedStory heval⟩

end Compiler

end Hyperstory
