import Hyperstory.Markdown
import Hyperstory.Proofs.Built

/-! The containers that a source can open. -/
namespace Hyperstory.Markdown

/-- The kinds of tokens that open a container in inline content, or among blocks. -/
def openings : Bool → List String
  | true => ["link_open", "em_open", "strong_open"]
  | false =>
    ["heading_open", "paragraph_open", "blockquote_open", "ordered_list_open", "bullet_list_open",
      "list_item_open"]

/-- Every token that stands in a stream and opens a container is of a kind that may do so there. -/
def Emitted (inline : Bool) (tokens : List Token) : Prop :=
  ∀ within tok, Stands inline tokens within tok → tok.nesting = .opens →
    tok.kind ∈ openings within

namespace Emitted

variable {inline : Bool} {tok : Token} {tokens : List Token}

theorem nil (inline : Bool) : Emitted inline [] := by
  intro within tok h
  cases h with
  | here h => cases h
  | inside h => cases h

theorem cons_iff : Emitted inline (tok :: tokens) ↔
    (tok.nesting = .opens → tok.kind ∈ openings inline) ∧
      (tok.kind = "inline" ∨ tok.kind = "image" → Emitted true tok.kids) ∧
      Emitted inline tokens := by
  constructor
  · intro h
    exact ⟨h inline tok (.here (by simp)),
      fun hkind within t ht => h within t (.head_kids hkind ht),
      fun within t ht => h within t ht.tail⟩
  · rintro ⟨hopens, hkids, hrest⟩ within t ht
    cases ht with
    | here ht =>
      rcases List.mem_cons.mp ht with rfl | ht
      · exact hopens
      · exact hrest _ _ (.here ht)
    | inside ht hkind hinner =>
      rcases List.mem_cons.mp ht with rfl | ht
      · exact hkids hkind _ _ hinner
      · exact hrest _ _ (.inside ht hkind hinner)

theorem append_iff {others : List Token} :
    Emitted inline (tokens ++ others) ↔ Emitted inline tokens ∧ Emitted inline others := by
  induction tokens with
  | nil => simp [nil]
  | cons tok rest ih => rw [List.cons_append, cons_iff, cons_iff, ih, and_assoc, and_assoc]

theorem flatten {streams : List (List Token)} (h : ∀ s ∈ streams, Emitted inline s) :
    Emitted inline streams.flatten := by
  induction streams with
  | nil => exact nil inline
  | cons s rest ih =>
    rw [List.flatten_cons, append_iff]
    exact ⟨h s (by simp), ih fun s' hs' => h s' (List.mem_cons_of_mem s hs')⟩

/-- The first token may be one that differs in its texts and attributes only. -/
theorem head_congr {tok' : Token} (h : Emitted inline (tok :: tokens))
    (hkind : tok'.kind = tok.kind)
    (hnesting : tok'.nesting = tok.nesting) (hkids : tok'.children = tok.children) :
    Emitted inline (tok' :: tokens) := by
  rw [cons_iff] at h ⊢
  rwa [hkind, hnesting, Token.kids, hkids]

/-- A token alone that opens nothing and has nothing in it. -/
theorem leaf (hnesting : tok.nesting ≠ .opens) (hkids : tok.children = none) :
    Emitted inline [tok] := by
  refine cons_iff.mpr ⟨fun h => absurd h hnesting, fun _ => ?_, nil inline⟩
  rw [Token.kids, hkids]
  exact nil true

end Emitted

namespace Inline

theorem joinTexts_emitted {inline : Bool} {tokens : List Token} (h : Emitted inline tokens) :
    Emitted inline (joinTexts tokens) := by
  fun_induction joinTexts tokens with
  | case1 => exact h
  | case2 t ts u us hjoin hkinds ih =>
    obtain ⟨-, -, hrest⟩ := Emitted.cons_iff.mp h
    have hus := ih hrest
    rw [hjoin] at hus
    exact hus.head_congr rfl rfl rfl
  | case3 t ts u us hjoin hkinds ih =>
    obtain ⟨hopens, hkids, hrest⟩ := Emitted.cons_iff.mp h
    have hus := ih hrest
    rw [hjoin] at hus
    exact Emitted.cons_iff.mpr ⟨hopens, hkids, hus⟩
  | case4 t ts hjoin ih =>
    obtain ⟨hopens, hkids, -⟩ := Emitted.cons_iff.mp h
    exact Emitted.cons_iff.mpr ⟨hopens, hkids, .nil inline⟩

theorem emphasisToken_emitted (strong : Bool) (mark : Char) (nesting : Nesting) :
    Emitted true [emphasisToken strong mark nesting] := by
  refine Emitted.cons_iff.mpr ⟨fun h => ?_, fun _ => .nil true, .nil true⟩
  obtain rfl : nesting = .opens := h
  cases strong <;> simp [emphasisToken, openings]

/-- Every stream of an array of them is emitted by the reader of inline content. -/
def AllEmitted (out : Array (List Token)) : Prop := ∀ s ∈ out.toList, Emitted true s

theorem AllEmitted.set {out : Array (List Token)} (h : AllEmitted out) (i : Nat)
    {tokens : List Token} (htokens : Emitted true tokens) :
    AllEmitted (out.setIfInBounds i tokens) := by
  intro s hs
  rw [Array.toList_setIfInBounds] at hs
  rcases List.mem_or_eq_of_mem_set hs with hs | rfl
  · exact h s hs
  · exact htokens

theorem emphasize_emitted {ds : Array Delimiter} {n : Nat} {out : Array (List Token)}
    (h : AllEmitted out) : AllEmitted (emphasize ds n out) := by
  have htag (strong : Bool) (d : Delimiter) (e : Delimiter) {out : Array (List Token)}
      (h : AllEmitted out) :
      AllEmitted ((out.setIfInBounds d.place [emphasisToken strong d.mark .opens]).setIfInBounds
        e.place [emphasisToken strong d.mark .closes]) :=
    (h.set _ (emphasisToken_emitted _ _ _)).set _ (emphasisToken_emitted _ _ _)
  have hempty : Emitted true [emptyText] := .leaf (by simp [emptyText]) rfl
  fun_induction emphasize ds n out with
  | case1 => exact h
  | case2 n out d hcloser ih => exact ih h
  | case3 out c e d hcloser put => exact htag false d e h
  | case4 out d c hcloser e put m before after hpair ih =>
    exact ih (((htag true _ _ h).set _ hempty).set _ hempty)
  | case5 out d c hcloser e put m before after hpair ih => exact ih (htag false _ _ h)

/-- The tokens of a piece are emitted by the reader of inline content. -/
def Piece.Emitted : Piece → Prop
  | .tokens ts => Markdown.Emitted true ts
  | .mark _ => True

theorem textToken_emitted (cs : List Char) : Emitted true [textToken cs] :=
  .leaf (by simp [textToken]) rfl

theorem ofPieces_emitted {pieces : List Piece} (h : ∀ p ∈ pieces, p.Emitted) :
    Emitted true (ofPieces pieces) := by
  refine joinTexts_emitted (.flatten (emphasize_emitted ?_))
  intro s hs
  obtain ⟨p, hp, rfl⟩ := List.mem_map.mp hs
  cases p with
  | tokens ts => exact h _ hp
  | mark d => exact textToken_emitted [d.mark]

theorem linkTokens_emitted (attrs : Attrs) (mark info : String) {body : List Token}
    (h : Emitted true body) : Emitted true (linkTokens attrs mark info body) := by
  refine Emitted.cons_iff.mpr ⟨fun _ => by simp [openings], fun _ => .nil true, ?_⟩
  exact Emitted.append_iff.mpr ⟨h, .leaf (by simp) rfl⟩

theorem imageToken_emitted (target : Target) (content : List Char) {children : List Token}
    (h : Emitted true children) : Emitted true [imageToken target content children] := by
  refine Emitted.cons_iff.mpr ⟨fun h => (by cases h), fun _ => ?_, .nil true⟩
  unfold imageToken Token.kids
  split_ifs
  · exact .nil true
  · exact h

theorem leafTokens_emitted (written : List Char) (span : Span) :
    Emitted true (leafTokens written span) := by
  unfold leafTokens
  split
  case h_4 => exact linkTokens_emitted _ _ _ (.leaf (by simp) rfl)
  case h_7 => exact .nil true
  all_goals exact .leaf (by simp) rfl

theorem flush_emitted (pending : List Char) {pieces : List Piece} (h : ∀ p ∈ pieces, p.Emitted) :
    ∀ p ∈ flush pending pieces, p.Emitted := by
  unfold flush
  split_ifs
  · exact h
  · exact List.forall_mem_cons.mpr ⟨textToken_emitted _, h⟩

theorem marks_emitted (s : Inline) (c : Char) (i stop place : Nat) :
    ∀ p ∈ (s.marks c i stop place).1, p.Emitted := by
  intro p hp
  obtain ⟨k, -, rfl⟩ := List.mem_map.mp (List.mem_reverse.mp hp)
  trivial

theorem lineEnd_emitted (pending : List Char) : Emitted true [(lineEnd pending).2] := by
  unfold lineEnd
  split <;> exact .leaf (by simp) rfl

theorem pieces_emitted (s : Inline) (n depth stop : Nat) (m : Memory) (i : Nat)
    (pending : List Char) {out : List Piece} (h : ∀ p ∈ out, p.Emitted) :
    ∀ p ∈ (s.pieces n depth stop m i pending out).1, p.Emitted := by
  induction n generalizing s depth stop m i pending out with
  | zero => exact flush_emitted pending h
  | succ n ih =>
    -- One more piece on the pieces so far, for the constructs that make one.
    have hpiece {pending' : List Char} {ts : List Token} (hts : Emitted true ts) :
        ∀ p ∈ Piece.tokens ts :: flush pending' out, p.Emitted :=
      List.forall_mem_cons.mpr ⟨hts, flush_emitted pending' h⟩
    unfold pieces
    split
    · exact flush_emitted pending h
    · next c hc =>
      split_ifs
      · exact flush_emitted pending h
      · refine ih _ _ _ _ _ _ fun p hp => ?_
        rcases List.mem_append.mp hp with hp | hp
        · exact marks_emitted s c i stop _ p hp
        · exact flush_emitted pending h p hp
      · split
        · exact ih _ _ _ _ _ _ h
        · next r m' hmatch =>
          dsimp only
          split
          · exact ih _ _ _ _ _ _ h
          · exact ih _ _ _ _ _ _ (hpiece (lineEnd_emitted pending))
          · refine ih _ _ _ _ _ _ (hpiece (linkTokens_emitted _ _ _ (ofPieces_emitted ?_)))
            exact fun p hp => ih _ _ _ _ _ _ (by simp) p (List.mem_reverse.mp hp)
          · refine ih _ _ _ _ _ _ (hpiece (imageToken_emitted _ _ (ofPieces_emitted ?_)))
            exact fun p hp => ih _ _ _ _ _ _ (by simp) p (List.mem_reverse.mp hp)
          · exact ih _ _ _ _ _ _ (hpiece (leafTokens_emitted _ _))

theorem read_emitted (ds : Definitions) (text : String) : Emitted true (read ds text) :=
  ofPieces_emitted fun p hp => pieces_emitted _ _ _ _ _ _ _ (by simp) p (List.mem_reverse.mp hp)

end Inline

namespace Block

theorem wrap_emitted {kind : String} (hkind : kind ++ "_open" ∈ openings false)
    (tag mark : String) (lines : Extent) (hidden : Bool) {body : List Token}
    (h : Emitted false body) : Emitted false (wrap kind tag mark lines hidden body) := by
  refine Emitted.cons_iff.mpr ⟨fun _ => hkind, fun _ => .nil true, ?_⟩
  exact Emitted.append_iff.mpr ⟨h, .leaf (by simp) rfl⟩

theorem withAttrs_emitted (attrs : Attrs) {tokens : List Token} (h : Emitted false tokens) :
    Emitted false (withAttrs attrs tokens) := by
  cases tokens with
  | nil => exact h
  | cons t ts => exact h.head_congr rfl rfl rfl

variable {inlines : String → List Token}

theorem inlineToken_emitted (hinlines : ∀ text, Emitted true (inlines text)) (lines : Extent)
    (text : String) :
    Emitted false [inlineToken inlines lines text] :=
  Emitted.cons_iff.mpr ⟨fun h => (by cases h), fun _ => hinlines text, .nil false⟩

mutual

theorem tokens_emitted (hinlines : ∀ text, Emitted true (inlines text)) (tight : Bool) :
    ∀ b : Block, Emitted false (b.tokens inlines tight)
  | code .. | fence .. | rule .. | html .. => by
    rw [tokens]
    exact .leaf (by simp [leafToken]) rfl
  | cut .. => by
    rw [tokens]
    exact .nil false
  | heading .. => by
    rw [tokens]
    exact wrap_emitted (by decide) _ _ _ _ (inlineToken_emitted hinlines _ _)
  | paragraph .. => by
    rw [tokens]
    exact wrap_emitted (by decide) _ _ _ _ (inlineToken_emitted hinlines _ _)
  | quote _ body => by
    rw [tokens]
    exact wrap_emitted (by decide) _ _ _ _ (tokensOf_emitted hinlines false body)
  | list _ first _ tight items => by
    have hitems := tokensOf_emitted hinlines tight items
    cases first with
    | some n =>
      rw [tokens]
      exact withAttrs_emitted _ (wrap_emitted (by decide) _ _ _ _ hitems)
    | none =>
      rw [tokens]
      exact wrap_emitted (by decide) _ _ _ _ hitems
  | item lines mark number body => by
    rw [tokens]
    have hkind : "list_item" ++ "_open" ∈ openings false := by decide
    have hitem := wrap_emitted hkind "li" (String.singleton mark) lines false
      (tokensOf_emitted hinlines tight body)
    exact hitem.head_congr rfl rfl rfl

theorem tokensOf_emitted (hinlines : ∀ text, Emitted true (inlines text)) (tight : Bool) :
    ∀ bs : List Block, Emitted false (tokensOf inlines tight bs)
  | [] => by
    rw [tokensOf]
    exact .nil false
  | b :: bs => by
    rw [tokensOf, Emitted.append_iff]
    exact ⟨tokens_emitted hinlines tight b, tokensOf_emitted hinlines tight bs⟩

end

end Block

/-- A source opens only what its blocks and its inline content may open. -/
theorem parse_emitted {source : String} {tokens : List Token} (h : parse source = .ok tokens) :
    Emitted false tokens := by
  unfold parse at h
  dsimp only at h
  split_ifs at h
  obtain rfl := Except.ok.inj h
  exact Block.tokensOf_emitted (Inline.read_emitted _) false _

end Hyperstory.Markdown
