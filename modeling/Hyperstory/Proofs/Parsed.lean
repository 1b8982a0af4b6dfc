import Hyperstory.Proofs.Emphasis
import Hyperstory.Proofs.Sourced
import Hyperstory.Story.Source

/-!
A source is read to a well-nested stream over the tokens of CommonMark. Blocks are nested by the way
they are read, and so are links and images; the tags of emphasis are, since the pairs of marks that
they stand for are nested.
-/
namespace Hyperstory.Markdown

/-! ### Tags of emphasis -/

/-- What stands at each place: the tags of the pairs, and content at all other places. -/
structure Tagged (R : Nat → Nat → Prop) (content : Nat → List Token) : Prop where
  opening : ∀ o c, R o c → ∃ strong mark, content o = [emphasisToken strong mark .opens]
  closing : ∀ o c, R o c → ∃ strong mark, content c = [emphasisToken strong mark .closes]
  other : ∀ i, (∀ o c, R o c → i ≠ o ∧ i ≠ c) → Sourced (content i)

/-- The `n` places from `start` on hold both ends of each pair or none. -/
def Unbroken (R : Nat → Nat → Prop) (start n : Nat) : Prop :=
  ∀ o c, R o c → (start ≤ o ∧ o < start + n ↔ start ≤ c ∧ c < start + n)

namespace Unbroken

variable {R : Nat → Nat → Prop} {start n inner after : Nat}

/-- No pair reaches out of what another encloses. -/
theorem inside (h : Unbroken R start (inner + (1 + after) + 1)) (hR : NestedPairs R)
    (hpair : R start (start + 1 + inner)) : Unbroken R (start + 1) inner := by
  intro a b hab
  have hlt := hR.lt a b hab
  have hboth := h a b hab
  constructor
  · intro ha
    have hwithin := hR.within start (start + 1 + inner) a b hpair hab (by omega) (by omega)
    omega
  · intro hb
    have hne : a ≠ start := by
      rintro rfl
      have hend := hR.closer_unique a b (a + 1 + inner) hab hpair
      omega
    omega

/-- No pair reaches into what follows another. -/
theorem beyond (h : Unbroken R start (inner + (1 + after) + 1)) (hR : NestedPairs R)
    (hpair : R start (start + 1 + inner)) : Unbroken R (start + 1 + inner + 1) after := by
  intro a b hab
  have hlt := hR.lt a b hab
  have hboth := h a b hab
  constructor
  · intro ha
    omega
  · intro hb
    have hstart : a ≠ start := by
      rintro rfl
      have hend := hR.closer_unique a b (a + 1 + inner) hab hpair
      omega
    have hcloser : a ≠ start + 1 + inner := by
      rintro rfl
      exact hR.closer_not_opener start _ b hpair hab
    have hwithin := hR.within start (start + 1 + inner) a b hpair hab
    omega

/-- No pair ends at the first place. -/
theorem not_closed (h : Unbroken R start (n + 1)) (hR : NestedPairs R) (o : Nat) : ¬ R o start := by
  intro hpair
  have hlt := hR.lt o start hpair
  have hboth := (h o start hpair).mpr (by omega)
  omega

/-- A place where no pair begins can be left out. -/
theorem tail (h : Unbroken R start (n + 1)) (hR : NestedPairs R) (hopener : ∀ c, ¬ R start c) :
    Unbroken R (start + 1) n := by
  intro a b hab
  have hboth := h a b hab
  have ha : a ≠ start := by
    rintro rfl
    exact hopener b hab
  have hb : b ≠ start := by
    rintro rfl
    exact h.not_closed hR a hab
  omega

end Unbroken

namespace Tagged

variable {R S : Nat → Nat → Prop} {content : Nat → List Token} {tokens : List Token}

theorem update_other (h : Tagged S content) {i : Nat} (hi : ∀ o c, S o c → i ≠ o ∧ i ≠ c)
    (htokens : Sourced tokens) : Tagged S (Function.update content i tokens) where
  opening o c hoc := by
    rw [Function.update_of_ne (hi o c hoc).1.symm]
    exact h.opening o c hoc
  closing o c hoc := by
    rw [Function.update_of_ne (hi o c hoc).2.symm]
    exact h.closing o c hoc
  other j hj := by
    by_cases hij : j = i
    · rw [hij, Function.update_self]
      exact htokens
    · rw [Function.update_of_ne hij]
      exact h.other j hj

theorem update_pair (h : Tagged S content) {a b : Nat} (hab : a ≠ b)
    (ha : ∀ o c, S o c → a ≠ o ∧ a ≠ c) (hb : ∀ o c, S o c → b ≠ o ∧ b ≠ c) (strong : Bool)
    (mark : Char) :
    Tagged (fun o c => S o c ∨ o = a ∧ c = b)
      (Function.update (Function.update content a [emphasisToken strong mark .opens]) b
        [emphasisToken strong mark .closes]) where
  opening o c hoc := by
    rcases hoc with hoc | ⟨rfl, rfl⟩
    · rw [Function.update_of_ne (hb o c hoc).1.symm, Function.update_of_ne (ha o c hoc).1.symm]
      exact h.opening o c hoc
    · rw [Function.update_of_ne hab, Function.update_self]
      exact ⟨strong, mark, rfl⟩
  closing o c hoc := by
    rcases hoc with hoc | ⟨rfl, rfl⟩
    · rw [Function.update_of_ne (hb o c hoc).2.symm, Function.update_of_ne (ha o c hoc).2.symm]
      exact h.closing o c hoc
    · rw [Function.update_self]
      exact ⟨strong, mark, rfl⟩
  other i hi := by
    obtain ⟨hia, hib⟩ := hi a b (.inr ⟨rfl, rfl⟩)
    rw [Function.update_of_ne hib, Function.update_of_ne hia]
    exact h.other i fun o c hoc => hi o c (.inl hoc)

end Tagged

namespace NestedPairs

variable {R S : Nat → Nat → Prop}

theorem mono (h : NestedPairs R) (hsub : ∀ o c, S o c → R o c) : NestedPairs S where
  lt o c hoc := h.lt o c (hsub o c hoc)
  opener_unique o o' c hoc hoc' := h.opener_unique o o' c (hsub o c hoc) (hsub o' c hoc')
  closer_unique o c c' hoc hoc' := h.closer_unique o c c' (hsub o c hoc) (hsub o c' hoc')
  closer_not_opener o c c' hoc hoc' := h.closer_not_opener o c c' (hsub o c hoc) (hsub c c' hoc')
  within o c o' c' hoc hoc' := h.within o c o' c' (hsub o c hoc) (hsub o' c' hoc')

/-- Different pairs have different ends. -/
theorem ends_ne (h : NestedPairs R) {a b a' b' : Nat} (hab : R a b) (hab' : R a' b') (hne : a ≠ a') :
    (a ≠ a' ∧ a ≠ b') ∧ b ≠ a' ∧ b ≠ b' := by
  refine ⟨⟨hne, ?_⟩, ?_, ?_⟩
  · rintro rfl
    exact h.closer_not_opener a' a b hab' hab
  · rintro rfl
    exact h.closer_not_opener a b b' hab hab'
  · rintro rfl
    exact hne (h.opener_unique a a' b hab hab')

end NestedPairs

/-- The pairs, by the places of their marks. -/
def JoinedAt (ds : Array Delimiter) (a b : Nat) : Prop :=
  ∃ o c, Joined ds o c ∧ a = (ds.getD o default).place ∧ b = (ds.getD c default).place

/-- Marks that stand one after another before the place `n`. -/
structure Ordered (ds : Array Delimiter) (n : Nat) : Prop where
  lt : ∀ i j, i < j → j < ds.size → (ds.getD i default).place < (ds.getD j default).place
  bound : ∀ i < ds.size, (ds.getD i default).place < n

/-- What stands at each place of an array of streams. -/
def contentAt (out : Array (List Token)) (i : Nat) : List Token := out.getD i []

theorem contentAt_setIfInBounds {out : Array (List Token)} {i : Nat} (hi : i < out.size)
    (tokens : List Token) :
    contentAt (out.setIfInBounds i tokens) = Function.update (contentAt out) i tokens := by
  funext j
  unfold contentAt Function.update
  simp only [Array.getD_eq_getD_getElem?, Array.getElem?_setIfInBounds]
  grind

/-- Tags stand at the places of some pairs, none of them opened by one of the first `n` marks. -/
structure TaggedFrom (ds : Array Delimiter) (size n : Nat) (S : Nat → Nat → Prop)
    (out : Array (List Token)) : Prop where
  size_eq : out.size = size
  joined : ∀ a b, S a b → JoinedAt ds a b
  later : ∀ a b, S a b → ∀ i < n, (ds.getD i default).place ≠ a
  tagged : Tagged S (contentAt out)

namespace TaggedFrom

variable {ds : Array Delimiter} {size n c : Nat} {S : Nat → Nat → Prop}
  {out : Array (List Token)}

theorem pred (h : TaggedFrom ds size (n + 1) S out) : TaggedFrom ds size n S out :=
  ⟨h.size_eq, h.joined, fun a b hab i hi => h.later a b hab i (by omega), h.tagged⟩

/-- No tag stands yet at the ends of a pair that comes before. -/
theorem ends_ne (h : TaggedFrom ds size (n + 1) S out) (hR : NestedPairs (JoinedAt ds))
    (hpair : Joined ds n c) {a b : Nat} (hab : S a b) :
    ((ds.getD n default).place ≠ a ∧ (ds.getD n default).place ≠ b) ∧
      (ds.getD c default).place ≠ a ∧ (ds.getD c default).place ≠ b :=
  hR.ends_ne ⟨n, c, hpair, rfl, rfl⟩ (h.joined a b hab) (h.later a b hab n n.lt_succ_self)

variable (hR : NestedPairs (JoinedAt ds)) (hds : Ordered ds size) (hc : c < ds.size) (hn : n < c)
  (hpair : Joined ds n c)

include hR hds hc hn hpair

theorem put (h : TaggedFrom ds size (n + 1) S out) (strong : Bool) (mark : Char) :
    ∃ S', TaggedFrom ds size n S'
      ((out.setIfInBounds (ds.getD n default).place [emphasisToken strong mark .opens]).setIfInBounds
        (ds.getD c default).place [emphasisToken strong mark .closes]) := by
  have hplace := hds.lt n c hn hc
  have hbound := hds.bound c hc
  have hsize := h.size_eq
  have htagged := h.tagged.update_pair hplace.ne (fun a b hab => (h.ends_ne hR hpair hab).1)
    (fun a b hab => (h.ends_ne hR hpair hab).2) strong mark
  rw [← contentAt_setIfInBounds (by omega),
    ← contentAt_setIfInBounds (by rw [Array.size_setIfInBounds]; omega)] at htagged
  refine ⟨_, ⟨?_, ?_, ?_, htagged⟩⟩
  · rw [Array.size_setIfInBounds, Array.size_setIfInBounds, hsize]
  · rintro a b (hab | ⟨rfl, rfl⟩)
    · exact h.joined a b hab
    · exact ⟨n, c, hpair, rfl, rfl⟩
  · rintro a b (hab | ⟨rfl, rfl⟩) i hi
    · exact h.later a b hab i (by omega)
    · exact (hds.lt i n hi (by omega)).ne

theorem blank (h : TaggedFrom ds size (n + 1) S out) :
    TaggedFrom ds size n S
      ((out.setIfInBounds (ds.getD n default).place [emptyText]).setIfInBounds
        (ds.getD c default).place [emptyText]) := by
  have hplace := hds.lt n c hn hc
  have hbound := hds.bound c hc
  have hsize := h.size_eq
  have hempty : Sourced [emptyText] := .leaf rfl (by decide) rfl
  refine ⟨by simp [hsize], h.joined, h.pred.later, ?_⟩
  rw [contentAt_setIfInBounds (by rw [Array.size_setIfInBounds]; omega),
    contentAt_setIfInBounds (by omega)]
  exact (h.tagged.update_other (fun a b hab => (h.ends_ne hR hpair hab).1) hempty).update_other
    (fun a b hab => (h.ends_ne hR hpair hab).2) hempty

end TaggedFrom

namespace Inline

def Piece.mark? : Piece → Option Delimiter
  | .mark d => some d
  | .tokens _ => none

def Piece.content : Piece → List Token
  | .mark d => [textToken [d.mark]]
  | .tokens ts => ts

/-- A piece that stands at a place: its tokens are a stream, its mark knows the place. -/
def Piece.Fits (place : Nat) : Piece → Prop
  | .mark d => d.place = place ∧ d.closer = none
  | .tokens ts => Sourced ts

/-- Pieces in reverse, each at its place. -/
def Stacked : List Piece → Prop
  | [] => True
  | p :: below => p.Fits below.length ∧ Stacked below

theorem textToken_sourced (cs : List Char) : Sourced [textToken cs] :=
  .leaf rfl (by simp [textToken, leaves]) rfl

theorem Piece.Fits.content {place : Nat} {p : Piece} (h : p.Fits place) : Sourced p.content := by
  cases p with
  | mark d => exact textToken_sourced [d.mark]
  | tokens ts => exact h

namespace Stacked

variable {out : List Piece}

theorem content (h : Stacked out) : ∀ p ∈ out, Sourced p.content := by
  induction out with
  | nil => exact fun p hp => absurd hp List.not_mem_nil
  | cons p below ih => exact List.forall_mem_cons.mpr ⟨h.1.content, ih h.2⟩

theorem marks (h : Stacked out) :
    (∀ d ∈ out.reverse.filterMap Piece.mark?, d.place < out.length ∧ d.closer = none) ∧
      (out.reverse.filterMap Piece.mark?).Pairwise (·.place < ·.place) := by
  induction out with
  | nil => simp
  | cons p below ih =>
    obtain ⟨hfits, hbelow⟩ := h
    obtain ⟨hmarks, hsorted⟩ := ih hbelow
    rw [List.reverse_cons, List.filterMap_append, List.length_cons]
    have hearlier : ∀ d ∈ below.reverse.filterMap Piece.mark?,
        d.place < below.length + 1 ∧ d.closer = none :=
      fun d hd => ⟨(hmarks d hd).1.trans (Nat.lt_succ_self _), (hmarks d hd).2⟩
    cases p with
    | tokens ts =>
      have hnone : [Piece.tokens ts].filterMap Piece.mark? = [] := rfl
      rw [hnone, List.append_nil]
      exact ⟨hearlier, hsorted⟩
    | mark d =>
      have hsome : [Piece.mark d].filterMap Piece.mark? = [d] := rfl
      obtain ⟨hplace, hcloser⟩ := hfits
      rw [hsome]
      constructor
      · intro e he
        rcases List.mem_append.mp he with he | he
        · exact hearlier e he
        · obtain rfl := List.mem_singleton.mp he
          exact ⟨by omega, hcloser⟩
      · refine List.pairwise_append.mpr ⟨hsorted, List.pairwise_singleton _ _, fun e he e' he' => ?_⟩
        obtain rfl := List.mem_singleton.mp he'
        rw [hplace]
        exact (hmarks e he).1

theorem ordered (h : Stacked out) :
    Ordered (out.reverse.filterMap Piece.mark?).toArray out.length := by
  obtain ⟨hmarks, hsorted⟩ := h.marks
  generalize out.reverse.filterMap Piece.mark? = ds at hmarks hsorted
  have hget (i : Nat) (hi : i < ds.length) : ds.toArray.getD i default = ds.get ⟨i, hi⟩ := by
    simp [Array.getD_eq_getD_getElem?, List.getElem?_eq_getElem hi]
  constructor
  · intro i j hij hj
    rw [List.size_toArray] at hj
    rw [hget i (hij.trans hj), hget j hj]
    exact List.pairwise_iff_get.mp hsorted ⟨i, hij.trans hj⟩ ⟨j, hj⟩ hij
  · intro i hi
    rw [List.size_toArray] at hi
    rw [hget i hi]
    exact (hmarks _ (List.get_mem _ _)).1

end Stacked

end Inline

namespace Block

/-- The tags of a block around its content; the opening one may have more than `wrap` gives it. -/
theorem tags_sourced (kind : String) {opening closing : Token} {body : List Token}
    (hkind : kind ++ "_open" ∈ openings false ∧ kind ++ "_close" ∈ closings)
    (hopening : opening.kind = kind ++ "_open" ∧ opening.nesting = .opens)
    (hclosing : closing.kind = kind ++ "_close" ∧ closing.nesting = .closes) (h : Sourced body) :
    Sourced (opening :: (body ++ [closing])) := by
  rw [← hopening.1, ← hclosing.1] at hkind
  have hkinds : ∀ kind ∈ openings false, kind ≠ "link_open" := by decide
  exact .container hopening.2 hkind.1 (fun hlink => absurd hlink (hkinds _ hkind.1)) hclosing.2
    hkind.2 h

variable {inlines : String → List Token}

theorem inlineToken_sourced (hinlines : ∀ text, Sourced (inlines text)) (lines : Extent)
    (text : String) : Sourced [inlineToken inlines lines text] :=
  .inline rfl rfl (hinlines text)

mutual

theorem tokens_sourced (hinlines : ∀ text, Sourced (inlines text)) (tight : Bool) :
    ∀ b : Block, Sourced (b.tokens inlines tight)
  | code .. | fence .. | rule .. | html .. => by
    rw [tokens]
    exact .leaf rfl (by simp [leafToken, leaves]) rfl
  | cut .. => by
    rw [tokens]
    exact .nil
  | heading .. => by
    rw [tokens]
    exact tags_sourced "heading" (by decide) ⟨rfl, rfl⟩ ⟨rfl, rfl⟩
      (inlineToken_sourced hinlines _ _)
  | paragraph .. => by
    rw [tokens]
    exact tags_sourced "paragraph" (by decide) ⟨rfl, rfl⟩ ⟨rfl, rfl⟩
      (inlineToken_sourced hinlines _ _)
  | quote _ body => by
    rw [tokens]
    exact tags_sourced "blockquote" (by decide) ⟨rfl, rfl⟩ ⟨rfl, rfl⟩
      (tokensOf_sourced hinlines false body)
  | list _ first _ tight items => by
    have hitems := tokensOf_sourced hinlines tight items
    cases first with
    | some n =>
      rw [tokens]
      exact tags_sourced "ordered_list" (by decide) ⟨rfl, rfl⟩ ⟨rfl, rfl⟩ hitems
    | none =>
      rw [tokens]
      exact tags_sourced "bullet_list" (by decide) ⟨rfl, rfl⟩ ⟨rfl, rfl⟩ hitems
  | item _ _ _ body => by
    rw [tokens]
    exact tags_sourced "list_item" (by decide) ⟨rfl, rfl⟩ ⟨rfl, rfl⟩
      (tokensOf_sourced hinlines tight body)

theorem tokensOf_sourced (hinlines : ∀ text, Sourced (inlines text)) (tight : Bool) :
    ∀ bs : List Block, Sourced (tokensOf inlines tight bs)
  | [] => by
    rw [tokensOf]
    exact .nil
  | b :: bs => by
    rw [tokensOf]
    exact (tokens_sourced hinlines tight b).append (tokensOf_sourced hinlines tight bs)

end

end Block

end Hyperstory.Markdown

namespace Hyperstory.Compiler

variable {c : Compiler} {path source : String}

end Hyperstory.Compiler
