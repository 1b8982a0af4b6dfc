import Hyperstory.Proofs.Streams

/-!
What can go wrong with a tree, other than a problem that is reported to the author. Which faults are
allowed is a parameter: tokens that fail only in an allowed way make trees in which replacing and
writing fail only in an allowed way.
-/
namespace Hyperstory

open Hyperstory.Tree Expansion

namespace Slot

/-- The token of a leaf, or at an end of a container: writing it fails only in a way that `P` allows. -/
structure Plain (P : Fault → Prop) (t : Token) : Prop where
  image : t.kind ≠ "image"
  inline : t.kind ≠ "inline"
  fence : t.kind = "fence" → ∀ f, fenceAttrs t = .error f → P f

/-- A place whose token is plain, or a run of such places. -/
inductive Safe (P : Fault → Prop) : Slot → Prop where
  | token {t : Token} {children : Option (List Slot)} (h : Plain P t) : Safe P (.filled t children)
  | run {slots : List Slot} (h : ∀ s ∈ slots, Safe P s) :
      Safe P (.filled { kind := "inline" } (some slots))

variable {P : Fault → Prop} {f : Fault} {previous next : Option Token} {t : Token}
  {children : Option (List Slot)} {slots : List Slot}

theorem fault_of_join {x y : Except Fault String}
    (h : (do let a ← x; let b ← y; .ok (a ++ b) : Except Fault String) = .error f) :
    x = .error f ∨ y = .error f := by
  cases x with
  | error e => exact .inl h
  | ok a =>
    cases y with
    | error e => exact .inr h
    | ok b => cases h

theorem Plain.of_element (h : Plain P t) (hf : element previous t children next = .error f) : P f := by
  unfold element at hf
  split_ifs at hf with htext hhtml hbreak hcode hblock hfence himage
  · cases hattrs : fenceAttrs t with
    | error e =>
      rw [hattrs] at hf
      cases hf
      exact h.fence (by simpa using hfence) _ hattrs
    | ok attrs =>
      rw [hattrs] at hf
      cases hf
  · exact absurd (by simpa using himage) h.image

theorem element_inline (previous next : Option Token) (slots : List Slot) :
    element previous { kind := "inline" } (some slots) next ≠ .error f := by
  intro h
  cases h

theorem fault_of_renderInlineAfter (hslots : ∀ s ∈ slots, Safe P s)
    (h : renderInlineAfter previous slots = .error f) : P f := by
  induction slots generalizing previous with
  | nil => cases h
  | cons s rest ih =>
    obtain ⟨hs, hrest⟩ := List.forall_mem_cons.mp hslots
    cases hs with
    | token hplain =>
      rw [renderInlineAfter] at h
      rcases fault_of_join h with h | h
      · exact hplain.of_element h
      · exact ih hrest h
    | run hrun =>
      rw [renderInlineAfter] at h
      rcases fault_of_join h with h | h
      · exact absurd h (element_inline _ _ _)
      · exact ih hrest h

theorem fault_of_renderAfter (hslots : ∀ s ∈ slots, Safe P s)
    (h : renderAfter previous slots = .error f) : P f := by
  induction slots generalizing previous with
  | nil => cases h
  | cons s rest ih =>
    obtain ⟨hs, hrest⟩ := List.forall_mem_cons.mp hslots
    cases hs with
    | token hplain =>
      rw [renderAfter, if_neg (by simpa using hplain.inline)] at h
      rcases fault_of_join h with h | h
      · exact hplain.of_element h
      · exact ih hrest h
    | run hrun =>
      rw [renderAfter, if_pos (beq_self_eq_true "inline")] at h
      rcases fault_of_join h with h | h
      · exact fault_of_renderInlineAfter hrun h
      · exact ih hrest h

end Slot

/-! ### Trees that can be written -/

/-- A node that is no image, with plain tokens: a leaf has one or is markup, a container has two. -/
structure Ready (P : Fault → Prop) (n : Node) : Prop where
  image : n.kind ≠ "image"
  leaf : n.container = false →
    (n.token = none ∧ n.kind = "html_inline") ∨ ∃ tok, n.token = some tok ∧ Slot.Plain P tok
  container : n.container = true → ∃ opening closing, n.token = some opening ∧
    n.closing = some closing ∧ Slot.Plain P opening ∧ Slot.Plain P closing

section Writing

variable {P : Fault → Prop} {f : Fault} {n : Node} {row : List (Tree Node)}
  {parts : List (Bool × List Slot)} {run : List Slot}

theorem Slot.Plain.withContent {tok : Token} (h : Slot.Plain P tok) (content : String) :
    Slot.Plain P { tok with content } := ⟨h.image, h.inline, h.fence⟩

theorem Slot.Plain.safe {tok : Token} (h : Slot.Plain P tok) : Slot.Safe P (Slot.ofToken tok) := by
  rw [Slot.ofToken_eq]
  exact .token h

theorem Ready.markup (n : Node) (markup : String) : Ready P (markupNode n markup) :=
  ⟨by simp [markupNode], fun _ => .inl ⟨rfl, rfl⟩, fun h => by cases h⟩

theorem Ready.unescaped (h : Ready P n) : Ready P (Expansion.unescaped n) := by
  unfold Expansion.unescaped
  split_ifs
  · exact ⟨h.image, h.leaf, h.container⟩
  · exact h

theorem Ready.leafSlot (h : Ready P n) (hc : n.container = false) :
    Slot.Safe P (Forest.leafSlot n) := by
  unfold Forest.leafSlot
  rcases h.leaf hc with ⟨htoken, hkind⟩ | ⟨tok, htoken, hplain⟩
  · rw [htoken, hkind]
    exact .token ⟨by simp, by simp, by simp⟩
  · rw [htoken]
    cases n.literal with
    | none => exact hplain.safe
    | some literal => exact (hplain.withContent literal).safe

theorem safe_flatten (h : ∀ p ∈ parts, ∀ s ∈ p.2, Slot.Safe P s) :
    ∀ s ∈ parts.flatMap (·.2), Slot.Safe P s := by
  intro s hs
  obtain ⟨p, hp, hs⟩ := List.mem_flatMap.mp hs
  exact h p hp s hs

theorem safe_groupRuns (hrun : ∀ s ∈ run, Slot.Safe P s)
    (h : ∀ p ∈ parts, ∀ s ∈ p.2, Slot.Safe P s) :
    ∀ s ∈ Forest.groupRuns run parts, Slot.Safe P s := by
  fun_induction Forest.groupRuns run parts with
  | case1 => simp
  | case2 run hne => simpa using Slot.Safe.run hrun
  | case3 run slots rest ih =>
    obtain ⟨hslots, hrest⟩ := List.forall_mem_cons.mp h
    exact ih (List.forall_mem_append.mpr ⟨hrun, hslots⟩) hrest
  | case4 slots rest ih =>
    obtain ⟨hslots, hrest⟩ := List.forall_mem_cons.mp h
    exact List.forall_mem_append.mpr ⟨hslots, ih (by simp) hrest⟩
  | case5 run slots rest hne ih =>
    obtain ⟨hslots, hrest⟩ := List.forall_mem_cons.mp h
    exact List.forall_mem_cons.mpr
      ⟨.run hrun, List.forall_mem_append.mpr ⟨hslots, ih (by simp) hrest⟩⟩

/-- A row of such nodes has a stream, and all of it is safe. -/
theorem exists_streamsOf (h : ∀ n ∈ valuesAll row, Ready P n) :
    ∃ parts, streamsOf row = .ok parts ∧ ∀ p ∈ parts, ∀ s ∈ p.2, Slot.Safe P s := by
  induction row using row_induction with
  | nil => exact ⟨[], by rw [streamsOf], by simp⟩
  | cons n cs rest ihcs ihrest =>
    rw [valuesAll_cons, values_node, List.forall_mem_append, List.forall_mem_cons] at h
    obtain ⟨⟨hn, hcs⟩, hrest⟩ := h
    obtain ⟨others, hothers, hsafe⟩ := ihrest hrest
    have hfirst : ∃ slots, streamOf (.node n cs) = .ok (n.inline, slots) ∧
        ∀ s ∈ slots, Slot.Safe P s := by
      cases hc : n.container with
      | false => exact ⟨_, Sketch.streamOf_leaf hn.image hc, by simpa using hn.leafSlot hc⟩
      | true =>
        obtain ⟨inner, hinner, hinside⟩ := ihcs hcs
        obtain ⟨opening, closing, hopening, hclosing, hplain, hplain'⟩ := hn.container hc
        have hbetween : ∀ s ∈ (if n.inline then inner.flatMap (·.2) else Forest.groupRuns [] inner),
            Slot.Safe P s := by
          split_ifs
          · exact safe_flatten hinside
          · exact safe_groupRuns (by simp) hinside
        have hstream : streamOf (.node n cs) = _ := Alike.streamOf_container hn.image hc
        rw [hinner, hopening, hclosing] at hstream
        refine ⟨_, hstream, ?_⟩
        rw [List.cons_append, List.forall_mem_cons, List.forall_mem_append]
        exact ⟨hplain.safe, hbetween, by simpa [Slot.ofToken?] using hplain'.safe⟩
    obtain ⟨slots, hslots, hsafe'⟩ := hfirst
    exact ⟨_, Sketch.streamsOf_cons hslots hothers, List.forall_mem_cons.mpr ⟨hsafe', hsafe⟩⟩

theorem ready_mapAll_unescaped (h : ∀ n ∈ valuesAll row, Ready P n) :
    ∀ n ∈ valuesAll (mapAll Expansion.unescaped row), Ready P n := by
  rw [valuesAll_mapAll]
  intro m hm
  obtain ⟨n, hn, rfl⟩ := List.mem_map.mp hm
  exact (h n hn).unescaped

theorem fault_of_inlineText (h : ∀ n ∈ valuesAll row, Ready P n)
    (hf : inlineText row = .error f) : P f := by
  obtain ⟨parts, hparts, hsafe⟩ := exists_streamsOf (ready_mapAll_unescaped h)
  unfold inlineText at hf
  rw [hparts] at hf
  exact Slot.fault_of_renderInlineAfter (safe_flatten hsafe) hf

end Writing

/-! ### Trees in which everything is replaced -/

/-- The value of an attribute is a text, if there is one. -/
def AttrValue.IsText (value : Option AttrValue) : Prop := ∀ v, value = some v → ∃ s, v = .text s

theorem AttrValue.IsText.exists_destination {value : Option AttrValue} (h : IsText value) :
    ∃ s, destination value = .ok s := by
  cases value with
  | none => exact ⟨"", rfl⟩
  | some v =>
    obtain ⟨s, rfl⟩ := h v rfl
    exact ⟨s, rfl⟩

/-- A node as a stream over the tokens of CommonMark gives it: texts have words, the destinations
of links and images are texts, and all but an image can be written. -/
structure Sound (P : Fault → Prop) (n : Node) : Prop where
  text : n.kind = "text" → n.literal.isSome = true
  destination : n.kind = "link" ∨ n.kind = "image" → AttrValue.IsText n.destination
  ready : n.kind ≠ "image" → Ready P n

section Replacing

variable {P : Fault → Prop} {f : Fault} {w : Wording} {path : String} {place : Place}
  {tally tally' : Tally} {n m : Node} {row out : List (Tree Node)}

/-- The ways in which replacing everything in a row may end: with nodes that can be written, with a
problem, or with a fault that `P` allows. -/
def Ends (P : Fault → Prop) : Except Failure (List (Tree Node)) → Prop
  | .ok out => ∀ n ∈ valuesAll out, Ready P n
  | .error (.problem _) => True
  | .error (.fault f) => P f

theorem ends_markup (n : Node) (markup : String) :
    Ends P (.ok [.node (markupNode n markup) []]) := by
  simpa [Ends] using Ready.markup n markup

theorem ends_append {l r : List (Tree Node)} (hl : ∀ n ∈ valuesAll l, Ready P n)
    (hr : ∀ n ∈ valuesAll r, Ready P n) : Ends P (.ok (l ++ r)) := by
  show ∀ n ∈ valuesAll (l ++ r), Ready P n
  rw [valuesAll_append]
  exact List.forall_mem_append.mpr ⟨hl, hr⟩

theorem Ready.shortened (h : Ready P n) (d : Directive) : Ready P (Expansion.shortened n d) :=
  ⟨h.image, h.leaf, h.container⟩

theorem Ready.remainder (h : Ready P n) (hc : n.container = false) (d : Directive) (o : Opening) :
    Ready P (Expansion.remainder n d o) :=
  ⟨h.image, fun _ => h.leaf hc, fun h => by cases h⟩

theorem Ready.kept (h : Ready P n) (d : Directive) :
    ∀ m ∈ valuesAll (Expansion.kept n d), Ready P m := by
  unfold Expansion.kept
  split_ifs
  · simp
  · simpa using h.shortened d

theorem segments_ends (hn : Ready P n) (hc : n.container = false) (path : String) (place : Place) :
    Ends P (segments path place n) := by
  have hexpanded : ∀ (n : Node) (d : Directive) {rest : List (Tree Node)},
      (∀ m ∈ valuesAll rest, Ready P m) → ∀ m ∈ valuesAll (expanded n d :: rest), Ready P m := by
    intro n d rest hrest
    rw [valuesAll_cons]
    exact List.forall_mem_append.mpr ⟨by simpa [expanded] using Ready.markup n _, hrest⟩
  fun_induction segments path place n with
  | case1 place n hfind => simpa [Ends] using hn
  | case2 => exact trivial
  | case3 => exact trivial
  | case4 place n o hfind d hscan hbegin hrest =>
    exact ends_append (hn.kept d) (hexpanded n d (by simp))
  | case5 place n o hfind d hscan hbegin hrest row hrow ih =>
    have hafter := ih (hn.remainder hc d o) rfl
    rw [hrow] at hafter
    exact ends_append (hn.kept d) (hexpanded n d hafter)
  | case6 place n o hfind d hscan hbegin hrest e herror ih =>
    have hafter := ih (hn.remainder hc d o) rfl
    rwa [herror] at hafter

theorem exists_altOf (hrow : ∀ m ∈ valuesAll row, Sound P m) : ∃ alt, altOf row = some alt := by
  unfold altOf
  cases row with
  | nil => exact ⟨"", rfl⟩
  | cons x rest =>
    obtain ⟨n, cs⟩ := x
    show ∃ alt, (if n.kind == "text" then
      n.literal.map fun s => String.ofList (unescape s.toList) else some "") = some alt
    by_cases hkind : n.kind = "text"
    · have hn : Sound P n := hrow n (by simp)
      obtain ⟨s, hs⟩ := Option.isSome_iff_exists.mp (hn.text hkind)
      rw [if_pos (by simpa using hkind), hs]
      exact ⟨_, rfl⟩
    · rw [if_neg (by simpa using hkind)]
      exact ⟨"", rfl⟩

/-- A link whose destination is a text has an anchor, or has none, or has a problem. -/
theorem exists_problem_of_anchorOf? {destination : String} {e : Failure}
    (hdestination : AttrValue.destination n.destination = .ok destination)
    (h : anchorOf? path n = .error e) : ∃ d, e = .problem d := by
  unfold anchorOf? at h
  rw [hdestination] at h
  dsimp only at h
  split_ifs at h
  split at h
  · cases h
    exact ⟨_, rfl⟩
  · split at h
    · split_ifs at h
      · split at h
        · cases h
          exact ⟨_, rfl⟩
        · cases h
          exact ⟨_, rfl⟩
        · cases h
      · cases h
        exact ⟨_, rfl⟩
    · cases h
    · cases h
    · cases h
      exact ⟨_, rfl⟩
    · cases h
      exact ⟨_, rfl⟩

theorem expandImage_ends (hn : Sound P n) (hkind : n.kind = "image")
    (hrow : ∀ m ∈ valuesAll row, Sound P m) (path : String) :
    Ends P (expandImage path n row) := by
  obtain ⟨alt, halt⟩ := exists_altOf hrow
  obtain ⟨destination, hdestination⟩ := (hn.destination (.inr hkind)).exists_destination
  unfold expandImage
  rw [halt, hdestination]
  dsimp only
  cases imageMarkup destination alt with
  | error cause => exact trivial
  | ok markup => exact ends_markup n markup

theorem expandOver_ends (hn : Sound P n) (hkind : n.kind ≠ "image")
    (hrow : ∀ m ∈ valuesAll row, Ready P m) (path : String) (tally : Tally) :
    Ends P (expandOver w path tally n row).2 := by
  have hstays : Ends P (.ok [.node n row]) := by
    intro m hm
    rw [valuesAll_cons, values_node, valuesAll_nil, List.append_nil] at hm
    rcases List.mem_cons.mp hm with rfl | hm
    · exact hn.ready hkind
    · exact hrow m hm
  unfold expandOver
  split_ifs with hlink
  · obtain ⟨destination, hdestination⟩ :=
      (hn.destination (.inl (by simpa using hlink))).exists_destination
    unfold expandLink
    cases ha : anchorOf? path n with
    | error e =>
      obtain ⟨d, rfl⟩ := exists_problem_of_anchorOf? hdestination ha
      exact trivial
    | ok found =>
      cases found with
      | none => exact hstays
      | some a =>
        show Ends P (anchored n row (a.id? w tally) a.action a.target)
        unfold anchored
        cases htext : inlineText row with
        | error f => exact fault_of_inlineText hrow htext
        | ok text => exact ends_markup n _
  · exact hstays

theorem ends_andThen {x : Tally × Except Failure (List (Tree Node))}
    {g : Tally → List (Tree Node) → Tally × Except Failure (List (Tree Node))} (hx : Ends P x.2)
    (hg : ∀ tally out, (∀ n ∈ valuesAll out, Ready P n) → Ends P (g tally out).2) :
    Ends P (andThen x g).2 := by
  obtain ⟨tally, result⟩ := x
  cases result with
  | error e => exact hx
  | ok out => exact hg tally out hx

private theorem expand_ends_of_row (hn : Sound P n) (hleaf : n.container = false → row = [])
    (hrow : ∀ m ∈ valuesAll row, Sound P m)
    (ih : ∀ (place : Place) (tally : Tally), Ends P (expandAll w path place tally row).2)
    (place : Place) (tally : Tally) : Ends P (expand w path place tally (.node n row)).2 := by
  cases shape place.parentKind n row with
  | image hkind =>
    rw [expand_image hkind]
    exact expandImage_ends hn hkind hrow path
  | scanned hc hs =>
    rw [expand_scanned hc hs]
    exact segments_ends (hn.ready (ne_of_isScanned hs).2) hc path place
  | plain hkind hc hs =>
    rw [expand_plain hkind hc hs, hleaf hc]
    simpa [Ends] using hn.ready hkind
  | opening text d hdecl =>
    rw [expand_section hdecl]
    unfold expandSection
    cases declarationProblem? place tally d with
    | some cause => exact trivial
    | none =>
      have hnode : Ready P (sectionNode w tally n d) :=
        ⟨by simp [sectionNode], fun _ => .inl ⟨rfl, rfl⟩, fun h => by cases h⟩
      simpa [Ends] using hnode
  | container hkind hc hdecl =>
    rw [expand_container hkind hc hdecl]
    exact ends_andThen (ih _ tally) fun tally₁ inner hinner =>
      expandOver_ends hn hkind hinner path tally₁

/-- Replacing everything in a row of sound nodes ends well. -/
theorem expandAll_ends (hformed : Formed row) (hrow : ∀ m ∈ valuesAll row, Sound P m)
    (path : String) (place : Place) (tally : Tally) :
    Ends P (expandAll w path place tally row).2 := by
  induction hformed generalizing place tally with
  | nil =>
    rw [expandAll]
    simp [Ends]
  | @cons n cs rest hleaf _ _ _ ihbelow ihafter =>
    rw [valuesAll_cons, values_node, List.forall_mem_append, List.forall_mem_cons] at hrow
    obtain ⟨⟨hn, hcs⟩, hrest⟩ := hrow
    rw [expandAll_cons]
    exact ends_andThen (expand_ends_of_row hn hleaf hcs (ihbelow hcs) _ tally)
      fun tally₁ out₁ hout₁ => ends_andThen (ihafter hrest _ tally₁)
        fun tally₂ out₂ hout₂ => ends_append hout₁ hout₂

end Replacing

end Hyperstory
