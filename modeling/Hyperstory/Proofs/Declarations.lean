import Hyperstory.Proofs.Recursion

/-! The sections that a tree declares, and what the recursion counts of them. -/
namespace Hyperstory.Expansion

open Hyperstory.Tree

section Gather

variable {α : Type} (atSection : Directive → List α) (atContainer : Node → List α)

mutual

/-- What the recursion meets in a tree, in its order: something at every declaration of a section,
and at every other container after what stands below it. -/
def gather (parentKind : String) : Tree Node → List α
  | .node n row =>
    if n.kind == "image" || !n.container then []
    else
      match declaration? parentKind (.node n row) with
      | some (_, d) => atSection d
      | none => gatherAll n.kind row ++ atContainer n

/-- What the recursion meets in a row of trees. -/
def gatherAll (parentKind : String) : List (Tree Node) → List α
  | [] => []
  | x :: rest => gather parentKind x ++ gatherAll parentKind rest

end

variable {atSection atContainer} {parentKind : String} {n : Node} {row : List (Tree Node)}

theorem gather_image (hkind : n.kind = "image") :
    gather atSection atContainer parentKind (.node n row) = [] := by
  rw [gather, if_pos (by simp [hkind])]

theorem gather_leaf (hc : n.container = false) :
    gather atSection atContainer parentKind (.node n row) = [] := by
  rw [gather, if_pos (by simp [hc])]

theorem gather_section {text : Node} {d : Directive}
    (hdecl : declaration? parentKind (.node n row) = some (text, d)) :
    gather atSection atContainer parentKind (.node n row) = atSection d := by
  obtain ⟨-, hc, hkind, -⟩ := declaration?_eq_some hdecl
  rw [gather, if_neg (by simp [hkind, hc]), hdecl]

theorem gather_container (hkind : n.kind ≠ "image") (hc : n.container = true)
    (hdecl : declaration? parentKind (.node n row) = none) :
    gather atSection atContainer parentKind (.node n row) =
      gatherAll atSection atContainer n.kind row ++ atContainer n := by
  rw [gather, if_neg (by simp [hkind, hc]), hdecl]

@[simp]
theorem gatherAll_nil : gatherAll atSection atContainer parentKind [] = [] := by rw [gatherAll]

@[simp]
theorem gatherAll_cons (x : Tree Node) (rest : List (Tree Node)) :
    gatherAll atSection atContainer parentKind (x :: rest) =
      gather atSection atContainer parentKind x ++
        gatherAll atSection atContainer parentKind rest := by
  rw [gatherAll]

end Gather

/-- The names of the sections that a tree declares, in order. -/
def declarations (parentKind : String) (x : Tree Node) : List String :=
  gather (fun d => [d.identifier]) (fun _ => []) parentKind x

def declarationsAll (parentKind : String) (row : List (Tree Node)) : List String :=
  gatherAll (fun d => [d.identifier]) (fun _ => []) parentKind row

theorem declarationsAll_cons (parentKind : String) (x : Tree Node) (rest : List (Tree Node)) :
    declarationsAll parentKind (x :: rest) =
      declarations parentKind x ++ declarationsAll parentKind rest :=
  gatherAll_cons x rest

/-- From one tally to the next the given sections were declared: their names are new, in this file
and in the files before it. -/
structure Declares (tally tally' : Tally) (names : List String) : Prop where
  taken : tally'.taken = tally.taken
  count : tally'.count = tally.count + names.length
  declared : tally'.declared = names.reverse ++ tally.declared
  nodup : tally.declared.Nodup → tally'.declared.Nodup
  fresh : (∀ x ∈ tally.declared, x ∉ tally.taken) → ∀ x ∈ tally'.declared, x ∉ tally.taken

namespace Declares

variable {tally tally₁ tally₂ : Tally} {names names' : List String}

/-- Nothing is declared where only links are counted. -/
theorem of_nextInline (tally : Tally) (next : Nat) :
    Declares tally { tally with nextInline := next } [] :=
  ⟨rfl, rfl, rfl, id, id⟩

theorem refl (tally : Tally) : Declares tally tally [] := of_nextInline tally tally.nextInline

theorem trans (h : Declares tally tally₁ names) (h' : Declares tally₁ tally₂ names') :
    Declares tally tally₂ (names ++ names') := by
  refine ⟨h'.taken.trans h.taken, ?_, ?_, fun hnd => h'.nodup (h.nodup hnd), fun hfresh => ?_⟩
  · rw [h'.count, h.count, List.length_append, Nat.add_assoc]
  · rw [h'.declared, h.declared, List.reverse_append, List.append_assoc]
  · rw [← h.taken]
    exact h'.fresh (by rw [h.taken]; exact h.fresh hfresh)

end Declares

variable {w : Wording} {path : String} {place : Place} {tally tally' : Tally} {n text : Node}
  {d : Directive} {row out : List (Tree Node)}

theorem expandSection_declares
    (h : expandSection w path place tally n text d = (tally', .ok out)) :
    Declares tally tally' [d.identifier] := by
  obtain ⟨hproblem, rfl, -⟩ := expandSection_eq_ok h
  have hnew : d.identifier ∉ tally.taken ∧ d.identifier ∉ tally.declared := by
    unfold declarationProblem? at hproblem
    split_ifs at hproblem with _ _ hused
    simpa using hused
  refine ⟨rfl, rfl, rfl, fun hnd => ?_, fun hfresh x hx => ?_⟩
  · exact List.nodup_cons.mpr ⟨hnew.2, hnd⟩
  · rcases List.mem_cons.mp hx with rfl | hx
    · exact hnew.1
    · exact hfresh x hx

theorem declares_link (tally : Tally) (a : Anchor) : Declares tally (tally.link a) [] := by
  unfold Tally.link
  split_ifs
  · exact .of_nextInline tally _
  · exact .refl tally

private theorem expand_declares_of_row
    (ih : ∀ {place : Place} {tally tally' : Tally} {out : List (Tree Node)},
      expandAll w path place tally row = (tally', .ok out) →
        Declares tally tally' (declarationsAll place.parentKind row))
    (h : expand w path place tally (.node n row) = (tally', .ok out)) :
    Declares tally tally' (declarations place.parentKind (.node n row)) := by
  cases expand_eq_ok h with
  | image hkind =>
    rw [declarations, gather_image hkind]
    exact .refl tally
  | scanned hc =>
    rw [declarations, gather_leaf hc]
    exact .refl tally
  | plain _ hc =>
    rw [declarations, gather_leaf hc]
    exact .refl tally
  | opening hdecl =>
    rw [expand_section hdecl] at h
    rw [declarations, gather_section hdecl]
    exact expandSection_declares h
  | stays hkind hc hdecl _ hbelow =>
    rw [declarations, gather_container hkind hc hdecl, List.append_nil]
    exact ih hbelow
  | @anchor _ _ a _ hkind hc hdecl _ hbelow =>
    rw [declarations, gather_container (by rw [hkind]; decide) hc hdecl]
    exact (ih hbelow).trans (declares_link _ a)

/-- The recursion declares the sections of a row, and no name twice. -/
theorem expandAll_declares (h : expandAll w path place tally row = (tally', .ok out)) :
    Declares tally tally' (declarationsAll place.parentKind row) := by
  induction row using row_induction generalizing place tally tally' out with
  | nil =>
    rw [expandAll] at h
    cases h
    rw [declarationsAll, gatherAll_nil]
    exact .refl tally
  | cons n cs rest ihcs ihrest =>
    rw [expandAll_cons] at h
    obtain ⟨tally₁, out₁, hfirst, h⟩ := andThen_eq_ok h
    obtain ⟨tally₂, out₂, hothers, h⟩ := andThen_eq_ok h
    obtain ⟨rfl, -⟩ := Prod.mk.inj h
    have hfirst := expand_declares_of_row ihcs hfirst
    have hothers := ihrest hothers
    rw [declarationsAll_cons]
    exact hfirst.trans hothers

theorem expand_declares {x : Tree Node} (h : expand w path place tally x = (tally', .ok out)) :
    Declares tally tally' (declarations place.parentKind x) := by
  obtain ⟨n, row⟩ := x
  exact expand_declares_of_row expandAll_declares h

theorem expandOver_congr_wording {w' : Wording} (hw : w'.inlineId = w.inlineId) (tally : Tally)
    (n : Node) (row : List (Tree Node)) :
    expandOver w path tally n row = expandOver w' path tally n row := by
  have hid : ∀ a : Anchor, a.id? w tally = a.id? w' tally := by
    intro a
    rw [Anchor.id?, Anchor.id?, hw]
  unfold expandOver expandLink
  simp only [hid]

private theorem expand_congr_wording_of_row (place : Place) (tally : Tally) {w' : Wording}
    (hw : w'.inlineId = w.inlineId)
    (ih : ∀ {place : Place} {tally : Tally}, declarationsAll place.parentKind row = [] →
      expandAll w path place tally row = expandAll w' path place tally row)
    (h : declarations place.parentKind (.node n row) = []) :
    expand w path place tally (.node n row) = expand w' path place tally (.node n row) := by
  cases shape place.parentKind n row with
  | image hkind => rw [expand_image hkind, expand_image hkind]
  | scanned hc hs => rw [expand_scanned hc hs, expand_scanned hc hs]
  | plain hkind hc hs => rw [expand_plain hkind hc hs, expand_plain hkind hc hs]
  | opening text d hdecl =>
    rw [declarations, gather_section hdecl] at h
    cases h
  | container hkind hc hdecl =>
    rw [declarations, gather_container hkind hc hdecl, List.append_nil] at h
    have hrow : expandAll w path { parentKind := n.kind } tally row =
        expandAll w' path { parentKind := n.kind } tally row := ih h
    rw [expand_container hkind hc hdecl, expand_container hkind hc hdecl, hrow]
    simp only [expandOver_congr_wording hw]

/-- The words that begin a section are not used for a tree without declarations. -/
theorem expandAll_congr_wording {w' : Wording} (hw : w'.inlineId = w.inlineId)
    (h : declarationsAll place.parentKind row = []) :
    expandAll w path place tally row = expandAll w' path place tally row := by
  induction row using row_induction generalizing place tally with
  | nil => rw [expandAll, expandAll]
  | cons n cs rest ihcs ihrest =>
    rw [declarationsAll_cons, List.append_eq_nil_iff] at h
    have hfirst :=
      expand_congr_wording_of_row { place with after := !rest.isEmpty } tally hw ihcs h.1
    have hothers : ∀ tally, expandAll w path { place with before := true } tally rest =
        expandAll w' path { place with before := true } tally rest := fun _ => ihrest h.2
    rw [expandAll_cons, expandAll_cons, hfirst]
    simp only [hothers]

theorem expand_congr_wording (place : Place) (tally : Tally) {w' : Wording}
    (hw : w'.inlineId = w.inlineId) {x : Tree Node} (h : declarations place.parentKind x = []) :
    expand w path place tally x = expand w' path place tally x := by
  obtain ⟨n, row⟩ := x
  exact expand_congr_wording_of_row place tally hw (expandAll_congr_wording hw) h

/-- Sections are declared in containers of kind `document` only. -/
theorem declarationsAll_eq_nil {parentKind : String} (hp : parentKind ≠ "document")
    (h : ∀ n ∈ valuesAll row, n.container = true → n.kind ≠ "document") :
    declarationsAll parentKind row = [] := by
  induction row using row_induction generalizing parentKind with
  | nil => exact gatherAll_nil
  | cons n cs rest ihcs ihrest =>
    simp only [valuesAll_cons, values_node, List.cons_append, List.mem_cons, List.mem_append] at h
    rw [declarationsAll_cons, ihrest hp fun m hm => h m (Or.inr (Or.inr hm)), List.append_nil]
    cases shape parentKind n cs with
    | image hkind => exact gather_image hkind
    | scanned hc hs => exact gather_leaf hc
    | plain hkind hc hs => exact gather_leaf hc
    | opening text d hdecl =>
      obtain ⟨-, -, -, hdoc, -⟩ := declaration?_eq_some hdecl
      exact absurd hdoc hp
    | container hkind hc hdecl =>
      rw [declarations, gather_container hkind hc hdecl, List.append_nil]
      exact ihcs (h n (Or.inl rfl) hc) fun m hm => h m (Or.inr (Or.inl hm))

theorem declarations_eq_nil {parentKind : String}
    (hdecl : declaration? parentKind (.node n row) = none)
    (h : ∀ m ∈ (Tree.node n row).values, m.container = true → m.kind ≠ "document") :
    declarations parentKind (.node n row) = [] := by
  rw [values_node] at h
  cases shape parentKind n row with
  | image hkind => exact gather_image hkind
  | scanned hc hs => exact gather_leaf hc
  | plain hkind hc hs => exact gather_leaf hc
  | opening text d hsome =>
    rw [hdecl] at hsome
    cases hsome
  | container hkind hc hnone =>
    rw [declarations, gather_container hkind hc hnone, List.append_nil]
    exact declarationsAll_eq_nil (h n (by simp) hc) fun m hm => h m (List.mem_cons_of_mem n hm)

end Hyperstory.Expansion
