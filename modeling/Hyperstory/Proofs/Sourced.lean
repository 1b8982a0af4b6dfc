import Hyperstory.Proofs.CommonMark

/-!
Streams that a source can give: what they are put together from, and that joining the texts in one
leaves it such a stream.
-/
namespace Hyperstory.Markdown

namespace Stream

variable {tok tok' : Token} {tokens others : List Token}

theorem append (h : Stream tokens) (h' : Stream others) : Stream (tokens ++ others) := by
  induction h with
  | nil => exact h'
  | leaf hnesting hkind _ ih => exact .leaf hnesting hkind ih
  | image hnesting hkind hsource inside _ _ ih => exact .image hnesting hkind hsource inside ih
  | inline hnesting hkind inside _ _ ih => exact .inline hnesting hkind inside ih
  | container hopens hopening href hcloses hclosing inside _ _ ih =>
    rw [List.cons_append, List.append_assoc, List.cons_append]
    exact .container hopens hopening href hcloses hclosing inside ih

/-- The first token may be one with other words. -/
theorem head_congr (h : Stream (tok :: tokens)) (hkind : tok'.kind = tok.kind)
    (hnesting : tok'.nesting = tok.nesting) (hattrs : tok'.attrs = tok.attrs)
    (hkids : tok'.children = tok.children) : Stream (tok' :: tokens) := by
  have hattr (name : String) : tok'.attr? name = tok.attr? name := by
    unfold Token.attr?
    rw [hattrs]
  have hkids : tok'.kids = tok.kids := congrArg (Option.getD · []) hkids
  cases h with
  | leaf hn hk after => exact .leaf (hnesting.trans hn) (hkind ▸ hk) after
  | image hn hk hsource inside after =>
    exact .image (hnesting.trans hn) (hkind.trans hk) (hattr "src" ▸ hsource) (hkids ▸ inside) after
  | inline hn hk inside after =>
    exact .inline (hnesting.trans hn) (hkind.trans hk) (hkids ▸ inside) after
  | container hn hk href hcloses hclosing inside after =>
    exact .container (hnesting.trans hn) (hkind ▸ hk)
      (fun h => hattr "href" ▸ href (hkind.symm.trans h)) hcloses hclosing inside after

end Stream

/-- A stream that a source can give: besides, no fence in it has attributes. -/
structure Sourced (tokens : List Token) : Prop where
  stream : Stream tokens
  plain : ∀ inline within tok, Stands inline tokens within tok → tok.kind = "fence" →
    tok.attrs = []

namespace Sourced

variable {tok opening closing : Token} {tokens others : List Token}

theorem nil : Sourced [] := by
  refine ⟨.nil, fun inline within tok h => ?_⟩
  cases h with
  | here h => cases h
  | inside h => cases h

theorem append (h : Sourced tokens) (h' : Sourced others) : Sourced (tokens ++ others) := by
  refine ⟨h.stream.append h'.stream, fun inline within tok hstands => ?_⟩
  cases hstands with
  | here hmem =>
    rcases List.mem_append.mp hmem with hmem | hmem
    · exact h.plain inline inline tok (.here hmem)
    · exact h'.plain inline inline tok (.here hmem)
  | inside hmem hkind hkids =>
    rcases List.mem_append.mp hmem with hmem | hmem
    · exact h.plain inline within tok (.inside hmem hkind hkids)
    · exact h'.plain inline within tok (.inside hmem hkind hkids)

theorem singleton (hstream : Stream [tok]) (hplain : tok.kind = "fence" → tok.attrs = [])
    (hkids : tok.kind = "inline" ∨ tok.kind = "image" → Sourced tok.kids) : Sourced [tok] := by
  refine ⟨hstream, fun inline within t hstands => ?_⟩
  cases hstands with
  | here hmem =>
    obtain rfl := List.mem_singleton.mp hmem
    exact hplain
  | inside hmem hkind hin =>
    obtain rfl := List.mem_singleton.mp hmem
    exact (hkids hkind).plain true within t hin

theorem leaf (hnesting : tok.nesting = .alone) (hkind : tok.kind ∈ leaves)
    (hattrs : tok.attrs = []) : Sourced [tok] := by
  have hkinds : ∀ kind ∈ leaves, kind ≠ "inline" ∧ kind ≠ "image" := by decide
  obtain ⟨hinline, himage⟩ := hkinds _ hkind
  exact .singleton (.leaf hnesting hkind .nil) (fun _ => hattrs) fun h =>
    absurd h (not_or.mpr ⟨hinline, himage⟩)

theorem image (hnesting : tok.nesting = .alone) (hkind : tok.kind = "image")
    (hsource : AttrValue.IsText (tok.attr? "src")) (hkids : Sourced tok.kids) : Sourced [tok] :=
  .singleton (.image hnesting hkind hsource hkids.stream .nil)
    (fun h => absurd (hkind.symm.trans h) (by decide)) fun _ => hkids

theorem inline (hnesting : tok.nesting = .alone) (hkind : tok.kind = "inline")
    (hkids : Sourced tok.kids) : Sourced [tok] :=
  .singleton (.inline hnesting hkind hkids.stream .nil)
    (fun h => absurd (hkind.symm.trans h) (by decide)) fun _ => hkids

theorem container {within : Bool} (hopens : opening.nesting = .opens)
    (hopening : opening.kind ∈ openings within)
    (href : opening.kind = "link_open" → AttrValue.IsText (opening.attr? "href"))
    (hcloses : closing.nesting = .closes) (hclosing : closing.kind ∈ closings)
    (h : Sourced tokens) : Sourced (opening :: (tokens ++ [closing])) := by
  refine ⟨.container hopens hopening href hcloses hclosing h.stream .nil, ?_⟩
  have hkinds : (∀ within, ∀ kind ∈ openings within,
      kind ≠ "fence" ∧ kind ≠ "inline" ∧ kind ≠ "image") ∧
      ∀ kind ∈ closings, kind ≠ "fence" ∧ kind ≠ "inline" ∧ kind ≠ "image" := by decide
  have htags : ∀ t ∈ opening :: (tokens ++ [closing]), t ∈ tokens ∨
      t.kind ≠ "fence" ∧ t.kind ≠ "inline" ∧ t.kind ≠ "image" := by
    intro t ht
    rcases List.mem_cons.mp ht with rfl | ht
    · exact .inr (hkinds.1 within _ hopening)
    · rcases List.mem_append.mp ht with ht | ht
      · exact .inl ht
      · obtain rfl := List.mem_singleton.mp ht
        exact .inr (hkinds.2 _ hclosing)
  intro inline within' t hstands hfence
  cases hstands with
  | here hmem =>
    rcases htags t hmem with hmem | ⟨hne, -⟩
    · exact h.plain inline inline t (.here hmem) hfence
    · exact absurd hfence hne
  | inside hmem hkind hkids =>
    rcases htags _ hmem with hmem | ⟨-, hinline, himage⟩
    · exact h.plain inline within' t (.inside hmem hkind hkids) hfence
    · exact absurd hkind (not_or.mpr ⟨hinline, himage⟩)

end Sourced

namespace Inline

theorem joinTexts_cons {tok : Token} (hkind : tok.kind ≠ "text") (tokens : List Token) :
    joinTexts (tok :: tokens) = tok :: joinTexts tokens := by
  rw [joinTexts]
  cases joinTexts tokens with
  | nil => rfl
  | cons u us => simp [hkind]

end Inline

end Hyperstory.Markdown
