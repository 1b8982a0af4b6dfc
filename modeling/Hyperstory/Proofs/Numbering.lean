import Hyperstory.Proofs.Compiling
import Hyperstory.Proofs.Declarations
import Hyperstory.Proofs.Drafts

/-! The numbers of links: in which order links get them, and that each is written once. -/
namespace Hyperstory.Expansion

open Hyperstory.Tree Sketch

/-- The container itself, if it is a numbered link. -/
def ownLink (path : String) (n : Node) : List Anchor :=
  if n.kind == "link" then
    match anchorOf? path n with
    | .ok (some a) => if a.numbered then [a] else []
    | _ => []
  else []

def links (path parentKind : String) (x : Tree Node) : List Anchor :=
  gather (fun _ => []) (ownLink path) parentKind x

def linksAll (path parentKind : String) (row : List (Tree Node)) : List Anchor :=
  gatherAll (fun _ => []) (ownLink path) parentKind row

theorem linksAll_cons (path parentKind : String) (x : Tree Node) (rest : List (Tree Node)) :
    linksAll path parentKind (x :: rest) =
      links path parentKind x ++ linksAll path parentKind rest :=
  gatherAll_cons x rest

theorem links_container {path parentKind : String} {n : Node} {cs : List (Tree Node)}
    (hkind : n.kind ≠ "image") (hc : n.container = true)
    (hdecl : declaration? parentKind (.node n cs) = none) :
    links path parentKind (.node n cs) = linksAll path n.kind cs ++ ownLink path n :=
  gather_container hkind hc hdecl

/-- A step numbers some of the given links, and all of them if it goes well. -/
structure Counts {α : Type} (tally : Tally) (r : Tally × Except Failure α) (as : List Anchor) :
    Prop where
  le : tally.nextInline ≤ r.1.nextInline
  bound : r.1.nextInline ≤ tally.nextInline + as.length
  all : ∀ a, r.2 = .ok a → r.1.nextInline = tally.nextInline + as.length

namespace Counts

variable {α β : Type} {tally : Tally}

theorem none (tally : Tally) (r : Except Failure α) : Counts tally (tally, r) [] :=
  ⟨le_rfl, le_rfl, fun _ _ => rfl⟩

theorem nextInline_eq {r : Tally × Except Failure α} {tally' : Tally} {as : List Anchor} {a : α}
    (h : Counts tally r as) (hr : r = (tally', .ok a)) :
    tally'.nextInline = tally.nextInline + as.length := by
  subst hr
  exact h.all a rfl

theorem andThen {x : Tally × Except Failure α} {f : Tally → α → Tally × Except Failure β}
    {as bs : List Anchor} (hx : Counts tally x as)
    (hf : ∀ tally₁ a, x = (tally₁, .ok a) → Counts tally₁ (f tally₁ a) bs) :
    Counts tally (Expansion.andThen x f) (as ++ bs) := by
  obtain ⟨tally₁, result⟩ := x
  cases result with
  | error e =>
    have hbound := hx.bound
    refine ⟨hx.le, ?_, fun a h => by cases h⟩
    rw [List.length_append]
    show tally₁.nextInline ≤ _
    dsimp only at hbound
    omega
  | ok a =>
    have hrest := hf tally₁ a rfl
    have hall := hx.all a rfl
    have hle := hrest.le
    have hbound := hrest.bound
    dsimp only at hall
    rw [andThen_ok]
    refine ⟨by omega, by rw [List.length_append]; omega, fun b hb => ?_⟩
    have := hrest.all b hb
    rw [List.length_append]
    omega

end Counts

section

variable (w : Wording) (path : String)

theorem expandOver_counts (tally : Tally) (n : Node) (row : List (Tree Node)) :
    Counts tally (expandOver w path tally n row) (ownLink path n) := by
  unfold expandOver ownLink
  split_ifs
  · unfold expandLink
    cases anchorOf? path n with
    | error e => exact .none tally _
    | ok a? =>
      cases a? with
      | none => exact .none tally _
      | some a =>
        dsimp only
        unfold Tally.link
        cases a.numbered with
        | false => exact .none tally _
        | true => exact ⟨Nat.le_succ _, le_rfl, fun _ _ => rfl⟩
  · exact .none tally _

private theorem expand_counts_of_row {row : List (Tree Node)}
    (ih : ∀ (place : Place) (tally : Tally),
      Counts tally (expandAll w path place tally row) (linksAll path place.parentKind row))
    (place : Place) (tally : Tally) (n : Node) :
    Counts tally (expand w path place tally (.node n row))
      (links path place.parentKind (.node n row)) := by
  cases shape place.parentKind n row with
  | image hkind =>
    rw [expand_image hkind, links, gather_image hkind]
    exact .none tally _
  | scanned hc hs =>
    rw [expand_scanned hc hs, links, gather_leaf hc]
    exact .none tally _
  | plain hkind hc hs =>
    rw [expand_plain hkind hc hs, links, gather_leaf hc]
    exact .none tally _
  | opening text d hdecl =>
    rw [expand_section hdecl, links, gather_section hdecl]
    unfold expandSection
    cases declarationProblem? place tally d with
    | some cause => exact .none tally _
    | none => exact ⟨le_rfl, le_rfl, fun _ _ => rfl⟩
  | container hkind hc hdecl =>
    rw [expand_container hkind hc hdecl, links_container hkind hc hdecl]
    exact (ih { parentKind := n.kind } tally).andThen fun tally₁ out _ =>
      expandOver_counts w path tally₁ n out

theorem expandAll_counts (place : Place) (tally : Tally) (row : List (Tree Node)) :
    Counts tally (expandAll w path place tally row) (linksAll path place.parentKind row) := by
  induction row using row_induction generalizing place tally with
  | nil =>
    rw [expandAll, linksAll, gatherAll_nil]
    exact .none tally _
  | cons n cs rest ihcs ihrest =>
    rw [expandAll_cons, linksAll_cons]
    refine (expand_counts_of_row w path ihcs { place with after := !rest.isEmpty } tally n).andThen
      fun tally₁ out₁ _ => ?_
    have hrest := (ihrest { place with before := true } tally₁).andThen
      (f := fun tally out₂ => (tally, .ok (out₁ ++ out₂))) fun tally₂ out₂ _ => .none tally₂ _
    rwa [List.append_nil] at hrest

theorem expand_counts (place : Place) (tally : Tally) (x : Tree Node) :
    Counts tally (expand w path place tally x) (links path place.parentKind x) := by
  obtain ⟨n, row⟩ := x
  exact expand_counts_of_row w path (fun place tally => expandAll_counts w path place tally row)
    place tally n

end

/-- Below every link there is only inline content. -/
inductive Flows : List (Tree Node) → Prop where
  | nil : Flows []
  | cons {n : Node} {cs rest : List (Tree Node)}
      (link : n.kind = "link" → n.container = true → ∀ m ∈ valuesAll cs, m.inline = true)
      (below : Flows cs) (after : Flows rest) : Flows (.node n cs :: rest)

theorem segments_flowing {path : String} {place : Place} {n : Node} {out : List (Tree Node)}
    (h : segments path place n = .ok out) (hkind : n.kind ≠ "image") (hc : n.container = false) :
    Flowing (mapAll .fixed out) := by
  have hkept (n : Node) (d : Directive) (hkind : n.kind ≠ "image") (hc : n.container = false)
      {rest : List (Tree Node)} (hrest : Flowing (mapAll .fixed rest)) :
      Flowing (mapAll .fixed (kept n d ++ rest)) := by
    unfold kept
    split_ifs
    · exact hrest
    · rw [List.singleton_append, mapAll_cons, map_node, mapAll_nil]
      exact .leaf hkind hc anchorsOf_nil hrest
  have hexpanded (n : Node) (d : Directive) {rest : List (Tree Node)}
      (hrest : Flowing (mapAll .fixed rest)) : Flowing (mapAll .fixed (expanded n d :: rest)) := by
    rw [mapAll_cons, expanded, map_node, mapAll_nil]
    exact .leaf (by simp [markupNode]) rfl anchorsOf_nil hrest
  have hnil : Flowing (mapAll Sketch.fixed []) := by rw [mapAll_nil]; exact .nil
  fun_induction segments path place n generalizing out with
  | case1 place n hfind =>
    cases h
    exact .leaf hkind hc anchorsOf_nil .nil
  | case2 => cases h
  | case3 => cases h
  | case4 place n o hfind d hscan hbegin hrest =>
    cases h
    exact hkept n d hkind hc (hexpanded n d hnil)
  | case5 place n o hfind d hscan hbegin hrest row hrow ih =>
    cases h
    exact hkept n d hkind hc (hexpanded n d (ih hrow hkind rfl))
  | case6 => cases h

/-- A sketch of what a step gives. It is the same for all names, it has the given numbered links,
and it flows if what it comes from is inline content. -/
structure Sketches (f : (Nat → String) → Tally × Except Failure (List (Tree Node)))
    (tally' : Tally) (as : List (Anchor × Nat)) (inline : Prop) (sketch : List (Tree Sketch)) :
    Prop where
  gives : ∀ ids, f ids = (tally', .ok (mapAll (label ids) sketch))
  numbers : (anchorsOf sketch).Perm as
  flowing : inline → Flowing sketch

theorem Sketches.eq_label {f : (Nat → String) → Tally × Except Failure (List (Tree Node))}
    {tally' tally'' : Tally} {as : List (Anchor × Nat)} {inline : Prop}
    {sketch : List (Tree Sketch)} {ids : Nat → String} {out : List (Tree Node)}
    (h : Sketches f tally' as inline sketch) (hf : f ids = (tally'', .ok out)) :
    out = mapAll (label ids) sketch :=
  Except.ok.inj (Prod.mk.inj (hf.symm.trans (h.gives ids))).2

/-- Below every inline container there is only inline content. -/
inductive Nested : List (Tree Node) → Prop where
  | nil : Nested []
  | cons {n : Node} {cs rest : List (Tree Node)}
      (inline : n.inline = true → ∀ m ∈ valuesAll cs, m.inline = true)
      (below : Nested cs) (after : Nested rest) : Nested (.node n cs :: rest)

/-- A sketch that can stand on a page if what it comes from is nested. -/
structure Draws (f : (Nat → String) → Tally × Except Failure (List (Tree Node)))
    (tally' : Tally) (as : List (Anchor × Nat)) (inline nested : Prop)
    (sketch : List (Tree Sketch)) : Prop extends Sketches f tally' as inline sketch where
  laid : nested → Laid sketch

/-- What a step gives does not depend on names: it fails in one way for all of them, or gives one
sketch. -/
def Uniform (f : (Nat → String) → Tally × Except Failure (List (Tree Node)))
    (as : List (Anchor × Nat)) (inline nested : Prop) : Prop :=
  ∃ tally', (∃ e, ∀ ids, f ids = (tally', .error e)) ∨
    ∃ sketch, Draws f tally' as inline nested sketch

namespace Uniform

variable {inline nested : Prop}

theorem failed (tally' : Tally) (e : Failure) (as : List (Anchor × Nat)) :
    Uniform (fun _ => (tally', .error e)) as inline nested := ⟨tally', .inl ⟨e, fun _ => rfl⟩⟩

/-- What has no names is its own sketch. -/
theorem fixed (tally' : Tally) {out : List (Tree Node)} (hflowing : Flowing (mapAll .fixed out)) :
    Uniform (fun _ => (tally', .ok out)) [] inline nested :=
  ⟨tally', .inr ⟨mapAll .fixed out, ⟨fun ids => by rw [mapAll_label_fixed],
    by rw [anchorsOf_fixed], fun _ => hflowing⟩, fun _ => hflowing.laid⟩⟩

theorem imp {f : (Nat → String) → Tally × Except Failure (List (Tree Node))}
    {as bs : List (Anchor × Nat)} {inline' nested' : Prop} (h : Uniform f as inline nested)
    (hperm : as.Perm bs) (hinline : inline' → inline) (hnested : nested' → nested) :
    Uniform f bs inline' nested' := by
  obtain ⟨tally, hfails | ⟨sketch, hsketch⟩⟩ := h
  · exact ⟨tally, .inl hfails⟩
  · exact ⟨tally, .inr ⟨sketch, ⟨hsketch.gives, hsketch.numbers.trans hperm,
      hsketch.flowing ∘ hinline⟩, hsketch.laid ∘ hnested⟩⟩

theorem andThen {f : (Nat → String) → Tally × Except Failure (List (Tree Node))}
    {g : (Nat → String) → Tally → List (Tree Node) → Tally × Except Failure (List (Tree Node))}
    {as bs : List (Anchor × Nat)} {inline' nested' : Prop} (hf : Uniform f as inline nested)
    (hg : ∀ tally sketch, Draws f tally as inline nested sketch →
      Uniform (fun ids => g ids tally (mapAll (label ids) sketch)) bs inline' nested') :
    Uniform (fun ids => Expansion.andThen (f ids) (g ids)) bs inline' nested' := by
  obtain ⟨tally, ⟨e, hfails⟩ | ⟨sketch, hsketch⟩⟩ := hf
  · simp only [hfails, andThen_error]
    exact .failed tally e bs
  · simp only [hsketch.gives, andThen_ok]
    exact hg tally sketch hsketch

end Uniform

section

variable {path : String} {words : Bool → String → String} {names : Nat → String}
  {tally tally' : Tally} {n : Node} {row out : List (Tree Node)} {sketch : List (Tree Sketch)}

/-- A container that stays over a row. -/
private theorem stays_draws (tally : Tally) (sketch : List (Tree Sketch))
    (hkind : n.kind ≠ "image") (hc : n.container = true) :
    Draws (fun ids => (tally, .ok [.node n (mapAll (label ids) sketch)])) tally
      (anchorsOf sketch) (n.inline = true ∧ Flowing sketch)
      ((n.inline = true → Flowing sketch) ∧ Laid sketch) [.node (.fixed n) sketch] := by
  refine ⟨⟨fun ids => ?_, by simp [Sketch.anchors], fun h => .container hkind hc h.1 h.2 .nil⟩,
    fun h => ?_⟩
  · rw [mapAll_cons, map_node, mapAll_nil]
    rfl
  · cases hinline : n.inline with
    | true => exact .inline hkind hc hinline (h.1 hinline) .nil
    | false => exact .block hkind hc hinline h.2 .nil

/-- An anchor over a row. Its text has the numbered links of the row. -/
private theorem anchored_uniform {a : Anchor} (inline nested : Prop) (hflowing : Flowing sketch) :
    Uniform
      (fun ids => (tally.link a, anchored n (mapAll (label ids) sketch)
        (a.id? ⟨ids, words⟩ tally) a.action a.target))
      (anchorsOf sketch ++ (if a.numbered then [a] else []).zipIdx tally.nextInline) inline
      nested := by
  refine ⟨tally.link a, ?_⟩
  rcases hflowing.inlineText_writes with ⟨e, he⟩ | ⟨d, hd, htext⟩
  · dsimp only at he
    exact .inl ⟨.fault e, fun ids => by simp only [anchored, he]⟩
  · dsimp only at htext
    have hlink : Flowing [.node (.markup n (Draft.link a tally.nextInline d)) []] := .markup .nil
    refine .inr ⟨_, ⟨fun ids => ?_, ?_, fun _ => hlink⟩, fun _ => hlink.laid⟩
    · rw [anchored, htext, mapAll_cons, map_node, mapAll_nil, label,
        Draft.write_link ⟨ids, words⟩ a tally d]
    · -- The anchor begins before its text, and its number comes after those in it.
      have hown : (if a.numbered then [a] else []).zipIdx tally.nextInline =
          if a.numbered then [(a, tally.nextInline)] else [] := by
        split_ifs <;> rfl
      rw [anchorsOf_cons, Sketch.anchors, Draft.anchors_link, hd, anchorsOf_nil,
        List.append_nil, List.append_nil, hown]
      exact List.perm_append_comm

private theorem expandOver_uniform (hkind : n.kind ≠ "image") (hc : n.container = true)
    (hlink : n.kind = "link" → Flowing sketch) :
    Uniform (fun ids => expandOver ⟨ids, words⟩ path tally n (mapAll (label ids) sketch))
      (anchorsOf sketch ++ (ownLink path n).zipIdx tally.nextInline)
      (n.inline = true ∧ Flowing sketch)
      ((n.inline = true → Flowing sketch) ∧ Laid sketch) := by
  have hstays : Uniform (fun ids => (tally, .ok [.node n (mapAll (label ids) sketch)]))
      (anchorsOf sketch ++ ([] : List Anchor).zipIdx tally.nextInline)
      (n.inline = true ∧ Flowing sketch) ((n.inline = true → Flowing sketch) ∧ Laid sketch) := by
    rw [List.zipIdx_nil, List.append_nil]
    exact ⟨tally, .inr ⟨_, stays_draws tally sketch hkind hc⟩⟩
  unfold expandOver ownLink
  by_cases hk : (n.kind == "link") = true
  · simp only [hk, if_true]
    unfold expandLink
    cases anchorOf? path n with
    | error e => exact .failed tally e _
    | ok a? =>
      cases a? with
      | none => exact hstays
      | some a => exact anchored_uniform _ _ (hlink (by simpa using hk))
  · simp only [hk, Bool.false_eq_true, if_false]
    exact hstays

private theorem expand_uniform_of_row
    (ih : ∀ (place : Place) (tally : Tally),
      Uniform (fun ids => expandAll ⟨ids, words⟩ path place tally row)
        ((linksAll path place.parentKind row).zipIdx tally.nextInline)
        (∀ m ∈ valuesAll row, m.inline = true) (Nested row))
    (place : Place) (tally : Tally)
    (hlink : n.kind = "link" → n.container = true → ∀ m ∈ valuesAll row, m.inline = true) :
    Uniform (fun ids => expand ⟨ids, words⟩ path place tally (.node n row))
      ((links path place.parentKind (.node n row)).zipIdx tally.nextInline)
      (∀ m ∈ (Tree.node n row).values, m.inline = true) (Nested [.node n row]) := by
  cases shape place.parentKind n row with
  | image hkind =>
    simp only [expand_image hkind]
    rw [links, gather_image hkind]
    cases himage : expandImage path n row with
    | error e => exact .failed tally e _
    | ok out =>
      obtain ⟨markup, rfl⟩ := expandImage_eq_ok himage
      exact .fixed tally (.leaf (by simp [markupNode]) rfl anchorsOf_nil .nil)
  | scanned hc hs =>
    simp only [expand_scanned hc hs]
    rw [links, gather_leaf hc]
    obtain ⟨-, hkind⟩ := ne_of_isScanned hs
    cases hsegments : segments path place n with
    | error e => exact .failed tally e _
    | ok out => exact .fixed tally (segments_flowing hsegments hkind hc)
  | plain hkind hc hs =>
    simp only [expand_plain hkind hc hs]
    rw [links, gather_leaf hc]
    refine .fixed tally ?_
    rw [mapAll_cons, map_node, mapAll_nil]
    exact .leaf hkind hc (anchorsOf_fixed row) .nil
  | opening text d hdecl =>
    simp only [expand_section hdecl]
    rw [links, gather_section hdecl]
    unfold expandSection
    cases declarationProblem? place tally d with
    | some cause => exact .failed tally _ _
    | none =>
      have hmarkup : Flowing
          (mapAll Sketch.fixed [.node (sectionNode ⟨Markup.inlineId, words⟩ tally n d) []]) :=
        .leaf (by simp [sectionNode]) rfl anchorsOf_nil .nil
      exact .fixed (tally.declare d.identifier) hmarkup
  | container hkind hc hdecl =>
    simp only [expand_container hkind hc hdecl]
    refine (ih { parentKind := n.kind } tally).andThen fun tally₁ sketch hsketch => ?_
    have hnext := (expandAll_counts ⟨Markup.inlineId, words⟩ path { parentKind := n.kind } tally
      row).nextInline_eq (hsketch.gives Markup.inlineId)
    rw [links_container hkind hc hdecl, List.zipIdx_append, ← hnext]
    refine (expandOver_uniform hkind hc fun hk => hsketch.flowing (hlink hk hc)).imp
      (hsketch.numbers.append_right _) (fun hinline => ?_) fun hnested => ?_
    · rw [values_node, List.forall_mem_cons] at hinline
      exact ⟨hinline.1, hsketch.flowing hinline.2⟩
    · cases hnested with
      | cons hinline hbelow _ =>
        exact ⟨fun hn => hsketch.flowing (hinline hn), hsketch.laid hbelow⟩

/-- Whatever names the numbered links get, a row fails in one way or gives one sketch, in which each
of them stands once. -/
theorem expandAll_uniform (words : Bool → String → String) (path : String) (hflows : Flows row)
    (place : Place) (tally : Tally) :
    Uniform (fun ids => expandAll ⟨ids, words⟩ path place tally row)
      ((linksAll path place.parentKind row).zipIdx tally.nextInline)
      (∀ m ∈ valuesAll row, m.inline = true) (Nested row) := by
  induction hflows generalizing place tally with
  | nil =>
    simp only [expandAll]
    rw [linksAll, gatherAll_nil]
    exact .fixed tally (by rw [mapAll_nil]; exact .nil)
  | @cons n cs rest hlink _ _ ihcs ihrest =>
    simp only [expandAll_cons]
    refine (expand_uniform_of_row ihcs { place with after := !rest.isEmpty } tally hlink).andThen
      fun tally₁ sketch₁ h₁ => ?_
    refine (ihrest { place with before := true } tally₁).andThen fun tally₂ sketch₂ h₂ => ?_
    have hnext := (expand_counts ⟨Markup.inlineId, words⟩ path
      { place with after := !rest.isEmpty } tally (.node n cs)).nextInline_eq
      (h₁.gives Markup.inlineId)
    refine ⟨tally₂, .inr ⟨sketch₁ ++ sketch₂, ⟨fun ids => by rw [mapAll_append], ?_,
      fun hinline => ?_⟩, fun hnested => ?_⟩⟩
    · rw [anchorsOf_append, linksAll_cons, List.zipIdx_append, ← hnext]
      exact h₁.numbers.append h₂.numbers
    · rw [valuesAll_cons, List.forall_mem_append] at hinline
      exact (h₁.flowing hinline.1).append (h₂.flowing hinline.2)
    · cases hnested with
      | cons hinline hbelow hafter =>
        exact (h₁.laid (.cons hinline hbelow .nil)).append (h₂.laid hafter)

/-- A row that something comes from for some names gives one sketch for all of them. -/
theorem expandAll_sketches {place : Place} (hflows : Flows row)
    (h : expandAll ⟨names, words⟩ path place tally row = (tally', .ok out)) :
    ∃ sketch, Sketches (fun ids => expandAll ⟨ids, words⟩ path place tally row) tally'
      ((linksAll path place.parentKind row).zipIdx tally.nextInline)
      (∀ m ∈ valuesAll row, m.inline = true) sketch := by
  obtain ⟨tally₁, ⟨e, hfails⟩ | ⟨sketch, hsketch⟩⟩ :=
    expandAll_uniform words path hflows place tally
  · cases (hfails names).symm.trans h
  · obtain ⟨rfl, -⟩ := Prod.mk.inj (h.symm.trans (hsketch.gives names))
    exact ⟨sketch, hsketch.toSketches⟩

end

end Hyperstory.Expansion
