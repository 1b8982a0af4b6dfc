import Hyperstory.Proofs.WellLinked

/-! The walk over a tree hands out the visits of the recursive traversal, wherever the tree
stands. -/
namespace Hyperstory

open Hyperstory.Tree

namespace Forest

/-- The visits of a recursive traversal of some nodes, one after the other. A leaf is entered. A
container is entered, its children are traversed in order, and it is left. -/
inductive Traversed (t : Forest) : List NodeId → List Visit → Prop where
  | nil : Traversed t [] []
  | leaf {i : NodeId} {l : List NodeId} {vs : List Visit} (hc : (t.label i).container = false)
      (rest : Traversed t l vs) : Traversed t (i :: l) (⟨i, true⟩ :: vs)
  | container {i : NodeId} {l : List NodeId} {inner vs : List Visit}
      (hc : (t.label i).container = true) (below : Traversed t (t.children i) inner)
      (rest : Traversed t l vs) : Traversed t (i :: l) (⟨i, true⟩ :: (inner ++ ⟨i, false⟩ :: vs))

/-- A walk comes from one position to another and hands out these visits on the way. -/
inductive Walks (t : Forest) : Cursor → List Visit → Cursor → Prop where
  | refl (c : Cursor) : Walks t c [] c
  | turn {c c' c'' : Cursor} {v : Visit} {vs : List Visit} (hnext : c.next? t = some (v, c'))
      (rest : Walks t c' vs c'') : Walks t c (v :: vs) c''

/-- From this position on a walk hands out these visits and stops. -/
def WalksOut (t : Forest) (c : Cursor) (vs : List Visit) : Prop :=
  ∃ c', t.Walks c vs c' ∧ c'.current = none

section Traversed

variable {t : Forest} {i root : NodeId} {l r : List NodeId} {vs vs' : List Visit}
  {row : List (Tree NodeId)}

theorem Traversed.unique (h : t.Traversed l vs) (h' : t.Traversed l vs') : vs = vs' := by
  induction h generalizing vs' with
  | nil =>
    cases h'
    rfl
  | leaf hc _ ih =>
    cases h' with
    | leaf _ rest => rw [ih rest]
    | container hc' _ _ => rw [hc] at hc'; cases hc'
  | container hc _ _ ihbelow ihrest =>
    cases h' with
    | leaf hc' _ => rw [hc] at hc'; cases hc'
    | container _ below rest => rw [ihbelow below, ihrest rest]

theorem nodup_bracketed {inner : List Visit} (hinner : inner.Nodup) (hvs : vs.Nodup)
    (hi : ∀ v ∈ inner, v.node ≠ i) (hi' : ∀ v ∈ vs, v.node ≠ i) (hdisjoint : ∀ v ∈ inner, v ∉ vs) :
    (⟨i, true⟩ :: (inner ++ ⟨i, false⟩ :: vs) : List Visit).Nodup := by
  have hnot : ∀ entering, (⟨i, entering⟩ : Visit) ∉ inner ++ vs := fun entering hv =>
    (List.mem_append.mp hv).elim (fun hv => hi _ hv rfl) fun hv => hi' _ hv rfl
  rw [List.nodup_cons, List.nodup_middle, List.nodup_cons, List.nodup_append',
    mem_middle_of_ne (by simp)]
  exact ⟨hnot true, hnot false, hinner, hvs, fun v hv hv' => hdisjoint v hv hv'⟩

/-- The trees that the links form are traversed: each place is visited, no other is, and no visit
comes twice where no place does. -/
theorem exists_traversed (hrow : Follows t.walked row) :
    ∃ vs, t.Traversed (row.map value) vs ∧ (∀ i, (∃ v ∈ vs, v.node = i) ↔ i ∈ valuesAll row) ∧
      ((valuesAll row).Nodup → vs.Nodup) ∧ vs.length ≤ 2 * (valuesAll row).length := by
  induction hrow with
  | nil => exact ⟨[], .nil, by simp, by simp, by simp⟩
  | @cons i cs rest htop hcs hrest ihcs ihrest =>
    obtain ⟨inner, hinner, hplaces, hnodup, hlen⟩ := ihcs
    obtain ⟨vs, hvs, hplaces', hnodup', hlen'⟩ := ihrest
    simp only [List.map_cons, value_node, valuesAll_cons, values_node, List.length_append,
      List.length_cons]
    cases hc : (t.label i).container with
    | false =>
      obtain rfl : cs = [] := by
        rw [walked_eq_nil hc] at htop
        exact List.map_eq_nil_iff.mp htop.symm
      refine ⟨⟨i, true⟩ :: vs, .leaf hc hvs, fun j => ?_, fun hnd => ?_, ?_⟩
      · simp [← hplaces', eq_comm]
      · simp only [valuesAll_nil, List.singleton_append, List.nodup_cons, ← hplaces'] at hnd
        exact List.nodup_cons.mpr ⟨fun hv => hnd.1 ⟨_, hv, rfl⟩, hnodup' hnd.2⟩
      · rw [List.length_cons]
        omega
    | true =>
      rw [walked_eq_children hc] at htop
      refine ⟨_, .container hc (htop ▸ hinner) hvs, fun j => ?_, fun hnd => ?_, ?_⟩
      · simp only [List.mem_cons, List.mem_append, List.cons_append, ← hplaces, ← hplaces']
        grind
      · rw [List.cons_append, List.nodup_cons, List.mem_append, not_or, ← hplaces, ← hplaces',
          List.nodup_append'] at hnd
        obtain ⟨⟨hi, hi'⟩, hcs, hrest, hdisjoint⟩ := hnd
        refine nodup_bracketed (hnodup hcs) (hnodup' hrest) (fun v hv he => hi ⟨v, hv, he⟩)
          (fun v hv he => hi' ⟨v, hv, he⟩) fun v hv hv' => ?_
        exact hdisjoint ((hplaces _).mp ⟨v, hv, rfl⟩) ((hplaces' _).mp ⟨v, hv', rfl⟩)
      · simp only [List.length_cons, List.length_append]
        omega

theorem Traversed.append (h : t.Traversed l vs) (h' : t.Traversed r vs') :
    t.Traversed (l ++ r) (vs ++ vs') := by
  induction h with
  | nil => exact h'
  | leaf hc _ ih => exact .leaf hc ih
  | container hc below _ _ ih =>
    rw [List.cons_append, List.cons_append, List.append_assoc, List.cons_append]
    exact .container hc below ih

end Traversed

namespace Walks

variable {t : Forest} {c c' c'' : Cursor} {v : Visit} {vs vs' : List Visit}

theorem visit {root i : NodeId} {entering : Bool}
    (hafter : Cursor.after t root ⟨i, entering⟩ = c) (rest : t.Walks c vs c') :
    t.Walks ⟨root, some i, entering⟩ (⟨i, entering⟩ :: vs) c' := by
  subst hafter
  exact .turn rfl rest

theorem append (h : t.Walks c vs c') (h' : t.Walks c' vs' c'') : t.Walks c (vs ++ vs') c'' := by
  induction h with
  | refl c => exact h'
  | turn hnext _ ih => exact .turn hnext (ih h')

/-- A walk stops in between where it has handed out part of its visits. -/
theorem exists_between (h : t.Walks c (vs ++ vs') c'') :
    ∃ c', t.Walks c vs c' ∧ t.Walks c' vs' c'' := by
  induction vs generalizing c with
  | nil => exact ⟨c, .refl c, h⟩
  | cons v vs ih =>
    obtain _ | ⟨hnext, hrest⟩ := h
    obtain ⟨c', hfirst, hsecond⟩ := ih hrest
    exact ⟨c', .turn hnext hfirst, hsecond⟩

theorem visitsUpTo (h : t.Walks c vs c') (hend : c'.current = none) (limit : Nat) :
    t.visitsUpTo limit c = if vs.length ≤ limit then some vs else none := by
  induction h generalizing limit with
  | refl c =>
    have hnext : c.next? t = none := by rw [Cursor.next?, hend]; rfl
    cases limit <;> simp [Forest.visitsUpTo, hnext]
  | turn hnext _ ih =>
    cases limit with
    | zero => simp [Forest.visitsUpTo, hnext]
    | succ limit =>
      simp only [Forest.visitsUpTo, hnext, ih hend, List.length_cons, Nat.add_le_add_iff_right]
      split_ifs <;> rfl

end Walks

section WellLinked

variable {t : Forest} {p root : NodeId} {k l r : List NodeId} {vs : List Visit}

/-- A walk goes over some children of a node as they are traversed. -/
theorem Traversed.walks (ht : t.Traversed l vs) (h : t.WellLinked)
    (hk : t.children p = k ++ (l ++ r)) (hroot : ∀ v ∈ vs, v.node ≠ root) :
    t.Walks (.ahead root p (l ++ r)) vs (.ahead root p r) := by
  induction ht generalizing p k r with
  | nil => exact .refl _
  | @leaf i l vs hc _ ih =>
    rw [List.forall_mem_cons] at hroot
    refine .visit (h.after_last hk hroot.1 fun _ => hc) ?_
    exact ih (k := k ++ [i]) (by simpa using hk) hroot.2
  | @container i l inner vs hc _ _ ihbelow ihrest =>
    simp only [List.forall_mem_cons, List.forall_mem_append] at hroot
    obtain ⟨hi, hbelow, -, hrest⟩ := hroot
    have hinner := ihbelow (p := i) (k := []) (r := []) (by simp) hbelow
    rw [List.append_nil] at hinner
    refine .visit (h.after_enter hc) (hinner.append (.visit (h.after_last hk hi (by simp)) ?_))
    exact ihrest (k := k ++ [i]) (by simpa using hk) hrest

namespace WellLinked

/-- The traversal of a tree visits its places, and none of them twice. -/
theorem exists_traversed (h : t.WellLinked) (root : NodeId) :
    ∃ vs, t.Traversed [root] vs ∧ vs.Nodup ∧ ∀ i, (∃ v ∈ vs, v.node = i) ↔ t.Within root i := by
  obtain ⟨cs, htop, hcs⟩ := h.exists_row root
  obtain ⟨vs, hvs, hplaces, hnodup, -⟩ := Forest.exists_traversed (.cons htop hcs .nil)
  simp only [valuesAll_cons, values_node, valuesAll_nil, List.append_nil] at hplaces hnodup
  refine ⟨vs, hvs, hnodup (h.nodup_below htop hcs), fun i => ?_⟩
  rw [hplaces, within_iff htop hcs]

theorem nodup_traversed (h : t.WellLinked) (ht : t.Traversed [root] vs) : vs.Nodup := by
  obtain ⟨vs', ht', hnodup, -⟩ := h.exists_traversed root
  exact ht.unique ht' ▸ hnodup

/-- A walk below a node is the traversal of the tree below it, and then it is over. -/
theorem walksOut (h : t.WellLinked) (ht : t.Traversed [root] vs) :
    t.WalksOut (.start root) vs := by
  have hnodup := h.nodup_traversed ht
  cases ht with
  | leaf hc rest =>
    cases rest
    have hafter : Cursor.after t root ⟨root, true⟩ = ⟨root, none, true⟩ := by
      have hc : (t.node root).container = false := hc
      simp [Cursor.after, hc]
    exact ⟨_, .visit hafter (.refl _), rfl⟩
  | @container _ _ inner _ hc below rest =>
    cases rest
    rw [List.nodup_cons, List.nodup_middle, List.nodup_cons, List.append_nil] at hnodup
    have hroot : ∀ v ∈ inner, v.node ≠ root := by
      rintro ⟨i, entering⟩ hv rfl
      cases entering with
      | true => exact hnodup.1 (List.mem_append_left _ hv)
      | false => exact hnodup.2.1 hv
    have hinner := below.walks (p := root) (k := []) (r := []) h (by simp) hroot
    rw [List.append_nil] at hinner
    exact ⟨_, .visit (h.after_enter hc) (hinner.append (.visit (Cursor.after_root t root)
      (.refl _))), rfl⟩

/-- Each node is entered once at most, and left once at most. -/
theorem length_traversed_le (h : t.WellLinked) (ht : t.Traversed [root] vs) :
    vs.length ≤ t.visitBound := by
  unfold visitBound
  cases ht with
  | leaf _ rest =>
    cases rest
    simp
  | container hc below rest =>
    cases rest
    obtain ⟨cs, htop, hcs⟩ := h.exists_row root
    obtain ⟨inner, hinner, -, -, hlen⟩ := Forest.exists_traversed hcs
    rw [← htop, walked_eq_children hc] at hinner
    obtain rfl := below.unique hinner
    have hroot : root < t.size := Nat.lt_of_not_le fun hle => by
      rw [label_of_size_le t hle] at hc
      cases hc
    have hplaces := h.length_places_lt hroot htop hcs
    simp only [List.length_cons, List.length_append, List.length_nil]
    omega

/-- The walk below any node of linked trees is over after exactly the visits of the recursive
traversal of the tree below that node, and visits no other place, also where the node has a parent
and siblings. -/
theorem visits?_traversed (h : t.WellLinked) (root : NodeId) :
    ∃ vs, t.Traversed [root] vs ∧ (∀ vs', t.Traversed [root] vs' → vs' = vs) ∧
      t.WalksOut (.start root) vs ∧ t.visits? root = some vs ∧ vs.Nodup ∧
      ∀ i, (∃ v ∈ vs, v.node = i) ↔ t.Within root i := by
  obtain ⟨vs, ht, hnodup, hplaces⟩ := h.exists_traversed root
  obtain ⟨c, hwalks, hend⟩ := h.walksOut ht
  refine ⟨vs, ht, fun vs' ht' => ht'.unique ht, ⟨c, hwalks, hend⟩, ?_, hnodup, hplaces⟩
  rw [visits?, hwalks.visitsUpTo hend, if_pos (h.length_traversed_le ht)]

end WellLinked

end WellLinked

/-- A quotation between a paragraph and a text; the paragraph in it ends with an empty link. -/
def quotation : Forest :=
  let holder (kind : String) : Node := { kind, container := true }
  let text (s : String) : Node := { kind := "text", literal := some s }
  let t : Forest := [holder "document", holder "paragraph", holder "blockquote", holder "paragraph",
    text "a", holder "link", text "b"].foldl (fun t n => (t.add n).1) {}
  (((((t.appendChild 3 4).appendChild 3 5).appendChild 2 3).appendChild 0 1).appendChild 0
    2).appendChild 0 6

theorem quotation_wellLinked : quotation.WellLinked := by
  refine Reached.wellLinked ?_
  unfold quotation
  refine .append (.append (.append (.append (.append (.append (.adds .empty ?_) ?_ ?_ ?_ ?_)
    ?_ ?_ ?_ ?_) ?_ ?_ ?_ ?_) ?_ ?_ ?_ ?_) ?_ ?_ ?_ ?_) ?_ ?_ ?_ ?_
  all_goals decide +kernel

theorem WellLinked.visits?_traversed_quotation :
    quotation.WellLinked ∧ quotation.around 2 = (some 0, some 1, some 6) ∧
      quotation.Traversed [2] [⟨2, true⟩, ⟨3, true⟩, ⟨4, true⟩, ⟨5, true⟩, ⟨5, false⟩, ⟨3, false⟩,
        ⟨2, false⟩] ∧ ¬ quotation.Within 2 6 := by
  have hlinked := quotation_wellLinked
  obtain ⟨vs, ht, -, -, hvisits, -, hplaces⟩ := hlinked.visits?_traversed 2
  have heval : quotation.visits? 2 = some [⟨2, true⟩, ⟨3, true⟩, ⟨4, true⟩, ⟨5, true⟩, ⟨5, false⟩,
      ⟨3, false⟩, ⟨2, false⟩] := by decide +kernel
  obtain rfl := Option.some.inj (heval.symm.trans hvisits)
  exact ⟨hlinked, by decide +kernel, ht, by rw [← hplaces]; decide⟩

end Forest

end Hyperstory
