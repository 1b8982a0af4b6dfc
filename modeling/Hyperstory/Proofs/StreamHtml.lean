import Hyperstory.Proofs.InlineIds
import Hyperstory.Proofs.Streams

/-!
The HTML of a stream that has gone through a tree. The renderer looks at neighbouring tokens, but
neither the data of an inline token nor its absence between two tags of one element shows.
-/
namespace Hyperstory

namespace Slot

/-- Places of one token that are shown alike: an image by the plain text of its children. -/
inductive ShownAs : Slot → Slot → Prop where
  | same (tok : Token) (children : Option (List Slot)) :
      ShownAs (.filled tok children) (.filled tok children)
  | image {tok : Token} {children children' : Option (List Slot)} (hkind : tok.kind = "image")
      (h : plainTexts? children = plainTexts? children') :
      ShownAs (.filled tok children) (.filled tok children')

theorem plainTexts_of_shownAs {slots slots' : List Slot} (h : List.Forall₂ ShownAs slots slots') :
    plainTexts slots = plainTexts slots' := by
  induction h with
  | nil => rfl
  | cons hs _ ih =>
    rw [plainTexts, plainTexts, ih]
    cases hs with
    | same => rfl
    | image hkind h => rw [plainText, plainText, h]

theorem ShownAs.element_eq {tok : Token} {children children' : Option (List Slot)}
    (h : ShownAs (.filled tok children) (.filled tok children')) (previous next : Option Token) :
    element previous tok children next = element previous tok children' next := by
  cases h with
  | same => rfl
  | image hkind h => simp only [element, h]

theorem ShownAs.exists_token {s s' : Slot} (h : ShownAs s s') :
    ∃ tok children children', s = .filled tok children ∧ s' = .filled tok children' := by
  cases h with
  | same tok children => exact ⟨tok, children, children, rfl, rfl⟩
  | image => exact ⟨_, _, _, rfl, rfl⟩

theorem renderInlineAfter_of_shownAs {slots slots' : List Slot}
    (h : List.Forall₂ ShownAs slots slots') (previous : Option Token) :
    renderInlineAfter previous slots = renderInlineAfter previous slots' := by
  induction h generalizing previous with
  | nil => rfl
  | @cons s s' rest rest' hs hrest ih =>
    obtain ⟨tok, children, children', rfl, rfl⟩ := hs.exists_token
    have hnext : rest.head?.bind token? = rest'.head?.bind token? := by
      cases hrest with
      | nil => rfl
      | cons hs _ =>
        obtain ⟨tok, children, children', rfl, rfl⟩ := hs.exists_token
        rfl
    rw [renderInlineAfter, renderInlineAfter, hs.element_eq, hnext, ih]

/-- Streams that differ in the data of inline tokens, in whether an empty one is there, and in
images that are shown alike. -/
inductive RenderedAs : List Slot → List Slot → Prop where
  | nil : RenderedAs [] []
  | cons {s s' : Slot} {rest rest' : List Slot} (head : ShownAs s s')
      (after : RenderedAs rest rest') : RenderedAs (s :: rest) (s' :: rest')
  | run {opening closing tok tok' : Token} {inner inner' : Option (List Slot)}
      {rest rest' : List Slot} (hopening : opening.OpensContainer)
      (hclosing : closing.nesting = .closes) (hkind : tok.kind = "inline")
      (hkind' : tok'.kind = "inline")
      (within : List.Forall₂ ShownAs (inner.getD []) (inner'.getD []))
      (after : RenderedAs rest rest') :
      RenderedAs (ofToken opening :: .filled tok inner :: ofToken closing :: rest)
        (ofToken opening :: .filled tok' inner' :: ofToken closing :: rest')
  | empty {opening closing tok : Token} {inner : Option (List Slot)} {rest rest' : List Slot}
      (hopening : opening.OpensContainer) (hclosing : closing.nesting = .closes)
      (htag : closing.tag = opening.tag) (hkind : tok.kind = "inline")
      (hinner : inner.getD [] = []) (after : RenderedAs rest rest') :
      RenderedAs (ofToken opening :: ofToken closing :: rest)
        (ofToken opening :: .filled tok inner :: ofToken closing :: rest')

/-- No new line follows an opening tag before inline content or its own closing tag. -/
theorem element_opens {opening next next' : Token} (h : opening.nesting = .opens)
    (hnext : next.kind = "inline" ∨ next.nesting = .closes ∧ next.tag = opening.tag)
    (hnext' : next'.kind = "inline" ∨ next'.nesting = .closes ∧ next'.tag = opening.tag)
    (previous : Option Token) (children : Option (List Slot)) :
    element previous opening children (some next) =
      element previous opening children (some next') := by
  have hline {n : Token} (hn : n.kind = "inline" ∨ n.nesting = .closes ∧ n.tag = opening.tag) :
      lineFollows opening (some n) = false := by
    rcases hn with hn | ⟨hn, htag⟩ <;> simp [lineFollows, *]
  simp only [element, tag, hline hnext, hline hnext']

/-- What stands before a closing tag does not show. -/
theorem renderAfter_closes {tok : Token} (h : tok.nesting = .closes)
    (previous previous' : Option Token) (rest : List Slot) :
    renderAfter previous (ofToken tok :: rest) = renderAfter previous' (ofToken tok :: rest) := by
  rw [ofToken_eq, renderAfter, renderAfter]
  simp [element, tag, h]

section Cons

variable (previous : Option Token) {tok : Token} (children : Option (List Slot)) (rest : List Slot)

theorem renderAfter_cons_of_ne (h : tok.kind ≠ "inline") :
    renderAfter previous (.filled tok children :: rest) = (do
      let head ← element previous tok children (rest.head?.bind token?)
      let tail ← renderAfter (some tok) rest
      .ok (head ++ tail)) := by
  rw [renderAfter, if_neg (by simpa using h)]

theorem renderAfter_cons_inline (h : tok.kind = "inline") :
    renderAfter previous (.filled tok children :: rest) = (do
      let head ← renderInline (children.getD [])
      let tail ← renderAfter (some tok) rest
      .ok (head ++ tail)) := by
  rw [renderAfter, if_pos (by simpa using h)]

end Cons

namespace RenderedAs

variable {slots slots' more more' : List Slot}

theorem append (h : RenderedAs slots slots') (h' : RenderedAs more more') :
    RenderedAs (slots ++ more) (slots' ++ more') := by
  induction h with
  | nil => exact h'
  | cons head _ ih => exact .cons head ih
  | run hopening hclosing hkind hkind' within _ ih =>
    exact .run hopening hclosing hkind hkind' within ih
  | empty hopening hclosing htag hkind hinner _ ih =>
    exact .empty hopening hclosing htag hkind hinner ih

theorem head_token? (h : RenderedAs slots slots') :
    slots.head?.bind token? = slots'.head?.bind token? := by
  cases h with
  | nil => rfl
  | cons head _ =>
    obtain ⟨tok, children, children', rfl, rfl⟩ := head.exists_token
    rfl
  | run => rfl
  | empty => rfl

private theorem renderAfter_closing {closing : Token} (h : closing.nesting = .closes)
    (hafter : RenderedAs more more')
    (hrender : ∀ previous, renderAfter previous more = renderAfter previous more')
    (previous previous' : Option Token) :
    renderAfter previous (ofToken closing :: more) =
      renderAfter previous' (ofToken closing :: more') := by
  rw [renderAfter_closes h previous previous', ofToken_eq, renderAfter, renderAfter,
    hafter.head_token?, hrender]

theorem renderAfter_eq (h : RenderedAs slots slots') (previous : Option Token) :
    renderAfter previous slots = renderAfter previous slots' := by
  induction h generalizing previous with
  | nil => rfl
  | cons head hafter ih =>
    cases head with
    | same tok children => rw [renderAfter, renderAfter, hafter.head_token?, ih]
    | @image tok children children' hkind h =>
      have hne : tok.kind ≠ "inline" := by simp [hkind]
      rw [renderAfter_cons_of_ne _ _ _ hne, renderAfter_cons_of_ne _ _ _ hne, hafter.head_token?,
        ih, (ShownAs.image hkind h).element_eq]
  | @run opening closing tok tok' inner inner' rest rest' hopening hclosing hkind hkind' hwithin
      hafter ih =>
    have hne := hopening.kind_ne_inline
    have hopens := element_opens hopening.nesting (Or.inl hkind) (Or.inl hkind') previous
    have hinner : renderInline (inner.getD []) = renderInline (inner'.getD []) :=
      renderInlineAfter_of_shownAs hwithin none
    rw [ofToken_eq opening, renderAfter_cons_of_ne _ _ _ hne, renderAfter_cons_of_ne _ _ _ hne,
      renderAfter_cons_inline _ _ _ hkind, renderAfter_cons_inline _ _ _ hkind', hinner,
      renderAfter_closing hclosing hafter ih (some tok) (some tok')]
    exact congrArg (· >>= _) (hopens _)
  | @empty opening closing tok inner rest rest' hopening hclosing htag hkind hinner hafter ih =>
    have hne := hopening.kind_ne_inline
    have hopens := element_opens hopening.nesting (Or.inr ⟨hclosing, htag⟩) (Or.inl hkind) previous
    -- the empty token gives no text, and the closing tag does not look at what stands before it
    have hnothing : renderAfter (some opening) (.filled tok inner :: ofToken closing :: rest') =
        renderAfter (some opening) (ofToken closing :: rest) := by
      rw [renderAfter_cons_inline _ _ _ hkind, hinner,
        renderAfter_closing hclosing hafter ih (some opening) (some tok)]
      cases renderAfter (some tok) (ofToken closing :: rest') with
      | error f => rfl
      | ok tail => exact congrArg Except.ok (String.empty_append)
    rw [ofToken_eq opening, renderAfter_cons_of_ne _ _ _ hne, renderAfter_cons_of_ne _ _ _ hne,
      hnothing, List.head?_cons, Option.bind_some, ofToken_eq closing]
    exact congrArg (· >>= _) (hopens _)

end RenderedAs

end Slot

/-- No escaped text and no named character stands in the stream. -/
def NoSpecial (inline : Bool) (tokens : List Token) : Prop :=
  ∀ within tok, Stands inline tokens within tok → tok.kind ≠ "text_special"

namespace NoSpecial

variable {inline : Bool} {tok : Token} {tokens tokens' : List Token}

theorem mono (h : NoSpecial inline tokens') (hsub : tokens ⊆ tokens') : NoSpecial inline tokens :=
  fun within tok htok => h within tok (htok.mono hsub)

theorem kids (h : NoSpecial inline tokens) (htok : tok ∈ tokens)
    (hkind : tok.kind = "inline" ∨ tok.kind = "image") : NoSpecial true tok.kids :=
  fun within inner hinner => h within inner (.inside htok hkind hinner)

end NoSpecial

theorem noSpecial_nil {inline : Bool} : NoSpecial inline [] := by
  intro within tok h
  cases h with
  | here h => cases h
  | inside h => cases h

theorem noSpecial_cons {inline : Bool} {tok : Token} {rest : List Token} :
    NoSpecial inline (tok :: rest) ↔ tok.kind ≠ "text_special" ∧
      (tok.kind = "inline" ∨ tok.kind = "image" → NoSpecial true tok.kids) ∧
      NoSpecial inline rest := by
  constructor
  · intro h
    exact ⟨h inline tok (.here (by simp)), h.kids (by simp), h.mono (by simp)⟩
  · rintro ⟨hkind, hkids, hrest⟩ within inner hinner
    cases hinner with
    | here hmem =>
      rcases List.mem_cons.mp hmem with rfl | hmem
      · exact hkind
      · exact hrest _ _ (.here hmem)
    | inside hmem houter hinner =>
      rcases List.mem_cons.mp hmem with rfl | hmem
      · exact hkids houter _ _ hinner
      · exact hrest _ _ (.inside hmem houter hinner)

namespace Slot

theorem shownAs_ofToken (tok : Token) : ShownAs (ofToken tok) (ofToken tok) := by
  rw [ofToken_eq]
  exact .same tok _

theorem getD_children_ofToken (tok : Token) :
    (tok.children.map fun _ => tok.kids.map ofToken).getD [] = tok.kids.map ofToken := by
  cases h : tok.children <;> simp [Token.kids, h]

theorem shownAs_image {tok : Token} (hkind : tok.kind = "image") {slots : List Slot}
    (h : List.Forall₂ ShownAs slots (tok.kids.map ofToken)) :
    ShownAs (.filled tok (some slots)) (ofToken tok) := by
  have htexts : ∀ children, plainTexts? children = plainTexts (children.getD []) := by
    intro children
    cases children <;> rfl
  rw [ofToken_eq]
  refine .image hkind ?_
  rw [htexts (tok.children.map _), getD_children_ofToken, ← plainTexts_of_shownAs h]
  rfl

end Slot

/-- A well-nested stream without escaped texts comes back as one that is rendered alike. -/
theorem WellNested.renderedAs {inline : Bool} {tokens : List Token} (h : WellNested inline tokens)
    (hplain : NoSpecial inline tokens) :
    Slot.RenderedAs (tokens.flatMap Slot.restored) (tokens.map Slot.ofToken) ∧
      (inline = true →
        List.Forall₂ Slot.ShownAs (tokens.flatMap Slot.restored) (tokens.map Slot.ofToken)) := by
  induction h with
  | nil => exact ⟨.nil, fun _ => .nil⟩
  | @leaf inline tok rest hnesting hinline himage _ ih =>
    have hspecial : tok.kind ≠ "text_special" := hplain inline tok (.here (by simp))
    obtain ⟨hrendered, hshown⟩ := ih (hplain.mono (by simp))
    have htok := Slot.shownAs_ofToken tok
    rw [List.flatMap_cons, Slot.restored_leaf hspecial himage hinline]
    exact ⟨.cons htok hrendered, fun htrue => .cons htok (hshown htrue)⟩
  | @image inline tok rest hnesting hkind _ _ ihinside ihafter =>
    obtain ⟨hrendered, hshown⟩ := ihafter (hplain.mono (by simp))
    have hkids := (ihinside (hplain.kids (by simp) (Or.inr hkind))).2 rfl
    have htok := Slot.shownAs_image hkind hkids
    rw [List.flatMap_cons, Slot.restored_image hnesting hkind]
    exact ⟨.cons htok hrendered, fun htrue => .cons htok (hshown htrue)⟩
  | @container inline opening closing content rest hopening hclosing _ _ ihinside ihafter =>
    obtain ⟨hcontent, hcontent'⟩ := ihinside (hplain.mono fun x hx => by simp [hx])
    obtain ⟨hrest, hrest'⟩ := ihafter (hplain.mono fun x hx => by simp [hx])
    have ho := Slot.shownAs_ofToken opening
    have hc := Slot.shownAs_ofToken closing
    have hopening : opening.nesting ≠ .alone := by simp [hopening.nesting]
    have hclosing : closing.nesting ≠ .alone := by simp [hclosing]
    simp only [List.flatMap_cons, List.flatMap_append, List.map_cons, List.map_append,
      Slot.restored_of_ne_alone hopening, Slot.restored_of_ne_alone hclosing,
      List.singleton_append]
    refine ⟨.cons ho (hcontent.append (.cons hc hrest)), fun htrue => .cons ho ?_⟩
    exact List.rel_append (hcontent' htrue) (.cons hc (hrest' htrue))
  | @filled opening tok closing rest hopening hclosing htag hnesting hkind hinside _ ihinside
      ihafter =>
    obtain ⟨hrest, -⟩ := ihafter (hplain.mono fun x hx => by simp [hx])
    have hkids := (ihinside (hplain.kids (by simp) (Or.inl hkind))).2 rfl
    have ho : opening.nesting ≠ .alone := by simp [hopening.nesting]
    have hc : closing.nesting ≠ .alone := by simp [hclosing]
    refine ⟨?_, fun htrue => by cases htrue⟩
    simp only [List.flatMap_cons, List.map_cons, Slot.restored_of_ne_alone ho,
      Slot.restored_of_ne_alone hc, Slot.restored_inline hnesting hkind, List.singleton_append,
      Slot.ofToken_eq tok]
    split_ifs with hempty
    · refine .empty hopening hclosing htag hkind ?_ hrest
      rw [Slot.getD_children_ofToken, List.isEmpty_iff.mp hempty, List.map_nil]
    · refine .run hopening hclosing rfl hkind ?_ hrest
      rwa [Slot.getD_children_ofToken]

/-- A well-nested stream comes back from its tree: each inline token without its own data, or not
at all if it is empty, each image with a list of children, and each escaped text as it was written.
If there is no escaped text, what comes back is rendered as the stream is. -/
theorem toTokens_ofTokens {tokens : List Token} (h : WellNested false tokens) :
    ∃ t, Forest.ofTokens tokens = .ok t ∧ t.toTokens 0 = .ok (tokens.flatMap Slot.restored) ∧
      (NoSpecial false tokens →
        Slot.render (tokens.flatMap Slot.restored) = Slot.render (tokens.map Slot.ofToken)) := by
  obtain ⟨t, ht, hslots⟩ := h.toTokens_eq
  refine ⟨t, ht, hslots, fun hplain => ?_⟩
  exact (h.renderedAs hplain).1.renderAfter_eq none

theorem WellNested.paragraph {content rest : List Token} (h : WellNested true content)
    (hrest : WellNested false rest) : WellNested false (paragraphTokens content ++ rest) :=
  .filled ⟨rfl, by simp, by simp, by decide⟩ rfl rfl rfl rfl h hrest

/-- An image without a list of children. -/
def childlessImage : Token := { kind := "image", tag := "img", attrs := [("src", "x")] }

theorem wellNested_childlessImage : WellNested true [childlessImage] := .image rfl rfl .nil .nil

/-- An image that has no list of children comes back with an empty one, so it is not the same. -/
theorem childlessImage_not_same :
    WellNested false (paragraphTokens [childlessImage]) ∧
      ∃ t, Forest.ofTokens (paragraphTokens [childlessImage]) = .ok t ∧
        t.toTokens 0 ≠ .ok
          [.ofToken { kind := "paragraph_open", tag := "p", nesting := .opens, block := true },
            .filled { kind := "inline" } (some [.ofToken childlessImage]),
            .ofToken
              { kind := "paragraph_close", tag := "p", nesting := .closes, block := true }] := by
  have hnested : WellNested false (paragraphTokens [childlessImage] ++ []) :=
    wellNested_childlessImage.paragraph .nil
  obtain ⟨t, ht, hslots⟩ := hnested.toTokens_eq
  refine ⟨hnested, t, ht, fun h => ?_⟩
  rw [h] at hslots
  simp [paragraphTokens, childlessImage, Slot.restored_of_ne_alone, Slot.restored_inline,
    Slot.restored_image, Slot.ofToken_eq, Token.kids] at hslots

/-- A paragraph that begins with `text` and has an image in a link and another image, and an empty
paragraph. -/
def illustrated (text : Token) : List Token :=
  paragraphTokens [text, { kind := "link_open", tag := "a", nesting := .opens },
    { kind := "image", tag := "img", children := some (textTokens "a") },
    { kind := "link_close", tag := "a", nesting := .closes }, childlessImage] ++ paragraphTokens []

theorem wellNested_illustrated (text : Token) (hnesting : text.nesting = .alone)
    (hinline : text.kind ≠ "inline") (himage : text.kind ≠ "image") :
    WellNested false (illustrated text) := by
  have halt : WellNested true (textTokens "a") := .leaf rfl (by simp) (by simp) .nil
  have himages : WellNested true
      ({ kind := "link_open", tag := "a", nesting := .opens } ::
        ([{ kind := "image", tag := "img", children := some (textTokens "a") }] ++
          { kind := "link_close", tag := "a", nesting := .closes } :: [childlessImage])) :=
    .container ⟨rfl, by simp, by simp, by decide⟩ rfl (.image rfl rfl halt .nil)
      wellNested_childlessImage
  exact (WellNested.leaf hnesting hinline himage himages).paragraph (WellNested.nil.paragraph .nil)

theorem toTokens_ofTokens_illustrated :
    (∃ t, Forest.ofTokens (illustrated
        { kind := "text_special", content := "*", markup := "\\*", info := "escape" }) = .ok t ∧
      t.toTokens 0 = .ok
        [.ofToken { kind := "paragraph_open", tag := "p", nesting := .opens, block := true },
          .filled { kind := "inline" } (some
            [.filled { kind := "text", content := "\\*" } none,
              .ofToken { kind := "link_open", tag := "a", nesting := .opens },
              .filled { kind := "image", tag := "img", children := some (textTokens "a") }
                (some [.filled { kind := "text", content := "a" } none]),
              .ofToken { kind := "link_close", tag := "a", nesting := .closes },
              .filled childlessImage (some [])]),
          .ofToken { kind := "paragraph_close", tag := "p", nesting := .closes, block := true },
          .ofToken { kind := "paragraph_open", tag := "p", nesting := .opens, block := true },
          .ofToken { kind := "paragraph_close", tag := "p", nesting := .closes, block := true }]) ∧
    NoSpecial false (illustrated { kind := "text", content := "*" }) ∧
    Slot.render ((illustrated { kind := "text", content := "*" }).flatMap Slot.restored) =
      Slot.render ((illustrated { kind := "text", content := "*" }).map Slot.ofToken) := by
  have hplain : NoSpecial false (illustrated { kind := "text", content := "*" }) := by
    simp [illustrated, paragraphTokens, textTokens, childlessImage, Token.kids, noSpecial_cons,
      noSpecial_nil]
  refine ⟨?_, hplain, ?_⟩
  · obtain ⟨t, ht, hslots, -⟩ := toTokens_ofTokens (wellNested_illustrated
      { kind := "text_special", content := "*", markup := "\\*", info := "escape" }
      rfl (by simp) (by simp))
    refine ⟨t, ht, hslots.trans ?_⟩
    simp [illustrated, paragraphTokens, textTokens, childlessImage, Slot.restored_of_ne_alone,
      Slot.restored_inline, Slot.restored_image, Slot.restored_special, Slot.restored_leaf,
      Slot.ofToken_eq, Token.kids, Token.writtenText]
  · obtain ⟨-, -, -, hrender⟩ := toTokens_ofTokens (wellNested_illustrated
      { kind := "text", content := "*" } rfl (by simp) (by simp))
    exact hrender hplain

end Hyperstory
