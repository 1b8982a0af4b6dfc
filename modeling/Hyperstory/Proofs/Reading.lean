import Hyperstory.Proofs.ChildLists

/-! Linked nodes read as immutable trees. -/
namespace Hyperstory

/-- A finite tree with a value at every node. -/
inductive Tree (α : Type) where
  | node (value : α) (row : List (Tree α))

namespace Tree

variable {α β γ : Type}

def value : Tree α → α
  | node a _ => a

def row : Tree α → List (Tree α)
  | node _ cs => cs

@[simp]
theorem value_node (a : α) (cs : List (Tree α)) : (node a cs).value = a := rfl

@[simp]
theorem row_node (a : α) (cs : List (Tree α)) : (node a cs).row = cs := rfl

/-- Rows of trees are made by putting a tree over a row in front of a row. -/
@[elab_as_elim]
theorem row_induction {P : List (Tree α) → Prop} (nil : P [])
    (cons : ∀ a cs rest, P cs → P rest → P (node a cs :: rest)) (row : List (Tree α)) : P row :=
  @Tree.rec_1 α (fun x => ∀ rest, P rest → P (x :: rest)) P
    (fun a cs hcs rest hrest => cons a cs rest hcs hrest) nil (fun _ rest hx hrest => hx rest hrest)
    row

mutual

/-- The tree with `f` applied to every value. -/
def map (f : α → β) : Tree α → Tree β
  | node a cs => node (f a) (mapAll f cs)

/-- The trees with `f` applied to every value. -/
def mapAll (f : α → β) : List (Tree α) → List (Tree β)
  | [] => []
  | x :: rest => x.map f :: mapAll f rest

end

mutual

def values : Tree α → List α
  | node a cs => a :: valuesAll cs

/-- The values of all trees, in order. -/
def valuesAll : List (Tree α) → List α
  | [] => []
  | x :: rest => x.values ++ valuesAll rest

end

@[simp]
theorem map_node (f : α → β) (a : α) (cs : List (Tree α)) :
    (node a cs).map f = node (f a) (mapAll f cs) := by rw [map]

@[simp]
theorem mapAll_nil (f : α → β) : mapAll f [] = [] := by rw [mapAll]

@[simp]
theorem mapAll_cons (f : α → β) (x : Tree α) (rest : List (Tree α)) :
    mapAll f (x :: rest) = x.map f :: mapAll f rest := by rw [mapAll]

@[simp]
theorem values_node (a : α) (cs : List (Tree α)) : (node a cs).values = a :: valuesAll cs := by
  rw [values]

@[simp]
theorem valuesAll_nil : valuesAll ([] : List (Tree α)) = [] := by rw [valuesAll]

@[simp]
theorem valuesAll_cons (x : Tree α) (rest : List (Tree α)) :
    valuesAll (x :: rest) = x.values ++ valuesAll rest := by rw [valuesAll]

theorem mapAll_eq_map (f : α → β) (row : List (Tree α)) : mapAll f row = row.map (map f) := by
  induction row with
  | nil => simp
  | cons x rest ih => simp [ih]

theorem mapAll_eq_nil {f : α → β} {row : List (Tree α)} : mapAll f row = [] ↔ row = [] := by
  simp [mapAll_eq_map]

@[simp]
theorem mapAll_append (f : α → β) (l r : List (Tree α)) :
    mapAll f (l ++ r) = mapAll f l ++ mapAll f r := by
  simp [mapAll_eq_map]

@[simp]
theorem valuesAll_append (l r : List (Tree α)) :
    valuesAll (l ++ r) = valuesAll l ++ valuesAll r := by
  induction l with
  | nil => simp
  | cons x l ih => simp [ih]

theorem mapAll_congr {f g : α → β} {row : List (Tree α)} (h : ∀ a ∈ valuesAll row, f a = g a) :
    mapAll f row = mapAll g row := by
  induction row using row_induction with
  | nil => simp
  | cons a cs rest ihcs ihrest =>
    simp only [valuesAll_cons, values_node, List.cons_append, List.mem_cons, List.mem_append] at h
    have hcs := ihcs fun b hb => h b (Or.inr (Or.inl hb))
    have hrest := ihrest fun b hb => h b (Or.inr (Or.inr hb))
    simp [h a (Or.inl rfl), hcs, hrest]

theorem mapAll_mapAll (f : α → β) (g : β → γ) (row : List (Tree α)) :
    mapAll g (mapAll f row) = mapAll (fun a => g (f a)) row := by
  induction row using row_induction with
  | nil => simp
  | cons a cs rest ihcs ihrest => simp [ihcs, ihrest]

theorem valuesAll_mapAll (f : α → β) (row : List (Tree α)) :
    valuesAll (mapAll f row) = (valuesAll row).map f := by
  induction row using row_induction with
  | nil => simp
  | cons a cs rest ihcs ihrest => simp [ihcs, ihrest]

theorem mem_valuesAll {a : α} {row : List (Tree α)} :
    a ∈ valuesAll row ↔ ∃ x ∈ row, a ∈ x.values := by
  induction row with
  | nil => simp
  | cons x rest ih => simp [ih]

end Tree

/-- The places of a row of trees are such that `kids` of each place are the places below it. -/
inductive Follows (kids : NodeId → List NodeId) : List (Tree NodeId) → Prop where
  | nil : Follows kids []
  | cons {i : NodeId} {cs rest : List (Tree NodeId)} (top : kids i = cs.map Tree.value)
      (below : Follows kids cs) (after : Follows kids rest) : Follows kids (.node i cs :: rest)

namespace Follows

open Hyperstory.Tree

variable {kids kids' : NodeId → List NodeId} {l r row : List (Tree NodeId)}

theorem append_iff : Follows kids (l ++ r) ↔ Follows kids l ∧ Follows kids r := by
  induction l with
  | nil => simp [Follows.nil]
  | cons x l ih =>
    constructor
    · rintro (_ | ⟨htop, hbelow, hafter⟩)
      obtain ⟨hl, hr⟩ := ih.mp hafter
      exact ⟨.cons htop hbelow hl, hr⟩
    · rintro ⟨_ | ⟨htop, hbelow, hafter⟩, hr⟩
      exact .cons htop hbelow (ih.mpr ⟨hafter, hr⟩)

theorem congr (h : Follows kids row) (hk : ∀ j ∈ valuesAll row, kids' j = kids j) :
    Follows kids' row := by
  induction h with
  | nil => exact .nil
  | @cons i cs rest htop _ _ ihcs ihrest =>
    simp only [valuesAll_cons, values_node, List.cons_append, List.mem_cons, List.mem_append] at hk
    refine .cons ((hk i (Or.inl rfl)).trans htop) (ihcs fun j hj => ?_) (ihrest fun j hj => ?_)
    · exact hk j (Or.inr (Or.inl hj))
    · exact hk j (Or.inr (Or.inr hj))

/-- A place below the row is a child of a place of the row. -/
theorem exists_parent (h : Follows kids row) {j : NodeId} (hj : j ∈ valuesAll row) :
    j ∈ row.map value ∨ ∃ q ∈ valuesAll row, j ∈ kids q := by
  induction h with
  | nil => simp at hj
  | @cons i cs rest htop _ _ ihcs ihrest =>
    simp only [valuesAll_cons, values_node, List.cons_append, List.mem_cons, List.mem_append] at hj
    simp only [valuesAll_cons, values_node, List.cons_append, List.mem_cons, List.mem_append,
      List.map_cons, value_node]
    rcases hj with rfl | hj | hj
    · exact Or.inl (Or.inl rfl)
    · rcases ihcs hj with hj | ⟨q, hq, hjq⟩
      · exact Or.inr ⟨i, Or.inl rfl, htop ▸ hj⟩
      · exact Or.inr ⟨q, Or.inr (Or.inl hq), hjq⟩
    · rcases ihrest hj with hj | ⟨q, hq, hjq⟩
      · exact Or.inl (Or.inr hj)
      · exact Or.inr ⟨q, Or.inr (Or.inr hq), hjq⟩

/-- What holds of the places of a row and goes down to children holds below the row. -/
theorem forall_mem {P : NodeId → Prop} (hstep : ∀ p, ∀ c ∈ kids p, P p → P c)
    (h : Follows kids row) (htop : ∀ x ∈ row, P x.value) : ∀ i ∈ valuesAll row, P i := by
  induction h with
  | nil => simp
  | @cons i cs rest top _ _ ihbelow ihafter =>
    obtain ⟨hi, hrest⟩ := List.forall_mem_cons.mp htop
    have hcs : ∀ x ∈ cs, P x.value := fun x hx =>
      hstep i x.value (by rw [top]; exact List.mem_map_of_mem hx) hi
    simp only [valuesAll_cons, values_node, List.forall_mem_append, List.forall_mem_cons]
    exact ⟨⟨hi, ihbelow hcs⟩, ihafter hrest⟩

end Follows

namespace Forest

open Hyperstory.Tree

variable {t : Forest} {kids : NodeId → List NodeId} {row : List (Tree NodeId)}

/-- The tree below a node, down to the given depth. -/
def treeBelow (t : Forest) : Nat → NodeId → Tree Node
  | 0, i => .node (t.label i) []
  | depth + 1, i => .node (t.label i) ((t.children i).map (t.treeBelow depth))

def tree (t : Forest) (i : NodeId) : Tree Node := t.treeBelow t.size i

namespace Linked

theorem exists_row (h : t.Linked kids) (l : List NodeId) :
    ∃ row, row.map value = l ∧ Follows kids row := by
  -- Children come later than their parents, so the places from `t.size - n` on are enough.
  have hstep : ∀ n : Nat, ∀ l : List NodeId, (∀ i : Nat, i ∈ l → t.size - i ≤ n) →
      ∃ row, row.map value = l ∧ Follows kids row := by
    intro n
    induction n with
    | zero =>
      intro l hl
      induction l with
      | nil => exact ⟨[], rfl, .nil⟩
      | cons i l ih =>
        obtain ⟨row, hrow, hfollows⟩ := ih fun j hj => hl j (List.mem_cons_of_mem i hj)
        have hi : t.size ≤ i := by have := hl i (by simp); omega
        exact ⟨.node i [] :: row, by simp [hrow], .cons (h.kids_eq_nil hi) .nil hfollows⟩
    | succ n ih =>
      intro l hl
      induction l with
      | nil => exact ⟨[], rfl, .nil⟩
      | cons i l ihl =>
        obtain ⟨row, hrow, hfollows⟩ := ihl fun j hj => hl j (List.mem_cons_of_mem i hj)
        obtain ⟨below, hbelow, hfollows'⟩ := ih (kids i) fun c hc => by
          have hi := hl i (by simp)
          have hc := (h.later i c hc).1
          omega
        exact ⟨.node i below :: row, by simp [hrow], .cons hbelow.symm hfollows' hfollows⟩
  exact hstep t.size l fun i _ => Nat.sub_le _ _

/-- The places of a row below `p` come later than `p`. -/
theorem lt_of_mem_valuesAll (h : t.Linked kids) {p : Nat} (hrow : Follows kids row)
    (hsub : ∀ c : Nat, c ∈ row.map value → p < c) {j : Nat} (hj : j ∈ valuesAll row) : p < j := by
  induction hrow generalizing p with
  | nil => simp at hj
  | @cons i cs rest htop _ _ ihcs ihrest =>
    simp only [valuesAll_cons, values_node, List.cons_append, List.mem_cons, List.mem_append] at hj
    have hi : p < i := hsub i (by simp)
    rcases hj with rfl | hj | hj
    · exact hi
    · exact hi.trans (ihcs (fun c hc => (h.later i c (htop ▸ hc)).1) hj)
    · exact ihrest (fun c hc => hsub c (by simp [hc])) hj

theorem lt_size_of_mem_valuesAll (h : t.Linked kids) (hrow : Follows kids row)
    (hsize : ∀ c : Nat, c ∈ row.map value → c < t.size) {j : Nat} (hj : j ∈ valuesAll row) :
    j < t.size := by
  rcases hrow.exists_parent hj with hj | ⟨q, _, hjq⟩
  · exact hsize j hj
  · exact (h.later q j hjq).2

/-- Trees over different children of one node have no place in common. -/
theorem disjoint_of_siblings (h : t.Linked kids) {p : Nat} {l r : List (Tree NodeId)}
    (hl : Follows kids l) (hr : Follows kids r) (hlp : ∀ c ∈ l.map value, c ∈ kids p)
    (hrp : ∀ c ∈ r.map value, c ∈ kids p) (hlr : ∀ c ∈ l.map value, c ∉ r.map value) (j : Nat) :
    j ∈ valuesAll l → j ∉ valuesAll r := by
  -- Going up from a common place would lead to one of the tops, and from there to `p`.
  induction j using Nat.strong_induction_on with
  | _ j ih =>
    intro hjl hjr
    have hnot : ∀ {s : List (Tree NodeId)}, Follows kids s → (∀ c ∈ s.map value, c ∈ kids p) →
        p ∉ valuesAll s := fun hs hsp hp =>
      (h.lt_of_mem_valuesAll hs (fun c hc => (h.later p c (hsp c hc)).1) hp).ne rfl
    rcases hl.exists_parent hjl with hl' | ⟨q, hql, hjq⟩
    · rcases hr.exists_parent hjr with hr' | ⟨q, hqr, hjq⟩
      · exact hlr j hl' hr'
      · exact hnot hr hrp (h.parent_unique (hlp j hl') hjq ▸ hqr)
    · rcases hr.exists_parent hjr with hr' | ⟨q', hqr, hjq'⟩
      · exact hnot hl hlp (h.parent_unique (hrp j hr') hjq ▸ hql)
      · exact ih q (h.later q j hjq).1 hql (h.parent_unique hjq' hjq ▸ hqr)

/-- A place does not stand below itself. -/
theorem notMem_below (h : t.Linked kids) {i : Nat} {cs : List (Tree NodeId)}
    (htop : kids i = cs.map value) (hcs : Follows kids cs) : i ∉ valuesAll cs := fun hi =>
  (h.lt_of_mem_valuesAll hcs (fun c hc => (h.later i c (htop ▸ hc)).1) hi).ne rfl

/-- Two neighbouring rows of children have no place in common. -/
theorem disjoint_of_append (h : t.Linked kids) {p : Nat} {l r : List (Tree NodeId)}
    {u v : List NodeId} (hk : kids p = u ++ l.map value ++ r.map value ++ v)
    (hl : Follows kids l) (hr : Follows kids r) : ∀ j ∈ valuesAll l, j ∉ valuesAll r := by
  have hnd := h.nodup p
  rw [hk] at hnd
  have hlr : (l.map value ++ r.map value).Nodup :=
    hnd.sublist (by simp [List.append_assoc])
  refine h.disjoint_of_siblings (p := p) hl hr (fun c hc => ?_) (fun c hc => ?_) fun c hc hc' =>
    (List.nodup_append'.mp hlr).2.2 hc hc'
  · rw [hk]
    simp [List.mem_map.mp hc]
  · rw [hk]
    simp [List.mem_map.mp hc]

theorem nodup_valuesAll (h : t.Linked kids) (hrow : Follows kids row)
    (hp : ∃ p : Nat, ∀ c ∈ row.map value, c ∈ kids p) (hnd : (row.map value).Nodup) :
    (valuesAll row).Nodup := by
  induction hrow with
  | nil => simp
  | @cons i cs rest htop hcs hrest ihcs ihrest =>
    obtain ⟨p, hp⟩ := hp
    simp only [List.map_cons, value_node, List.nodup_cons] at hnd
    have hi := h.notMem_below htop hcs
    have hbelow := ihcs ⟨i, fun c hc => htop ▸ hc⟩ (htop ▸ h.nodup i)
    have hafter := ihrest ⟨p, fun c hc => hp c (by simp [hc])⟩ hnd.2
    have hdisj := h.disjoint_of_siblings (.cons htop hcs .nil) hrest
      (fun c hc => hp c (by simp at hc; simp [hc])) (fun c hc => hp c (by simp [hc]))
      (by simpa using hnd.1)
    simp only [valuesAll_cons, values_node, valuesAll_nil, List.append_nil] at hdisj ⊢
    exact List.nodup_append'.mpr
      ⟨List.nodup_cons.mpr ⟨hi, hbelow⟩, hafter, fun j hj => hdisj j hj⟩

private theorem treeBelow_eq (h : t.Linked kids) (hrow : Follows kids row) :
    ∀ depth : Nat, (∀ i : Nat, i ∈ row.map value → t.size - i ≤ depth) →
      row.map (fun x => t.treeBelow depth x.value) = mapAll t.label row := by
  induction hrow with
  | nil => simp
  | @cons i cs rest htop _ _ ihcs ihrest =>
    intro depth hdepth
    have hrest := ihrest depth fun j hj => hdepth j (by simp [hj])
    have hi := hdepth i (by simp)
    have htree : t.treeBelow depth i = .node (t.label i) (mapAll t.label cs) := by
      cases depth with
      | zero =>
        have hnil := h.kids_eq_nil (j := i) (by omega)
        rw [htop, List.map_eq_nil_iff] at hnil
        subst hnil
        simp [treeBelow]
      | succ depth =>
        have hcs := ihcs depth fun c hc => by
          have := (h.later i c (htop ▸ hc)).1
          omega
        rw [treeBelow, h.children_eq, htop, ← hcs, List.map_map]
        rfl
    simp [htree, hrest]

/-- The tree that is read along the links is the tree of the labels. -/
theorem tree_eq (h : t.Linked kids) {i : NodeId} {cs : List (Tree NodeId)}
    (hrow : Follows kids [.node i cs]) : t.tree i = .node (t.label i) (mapAll t.label cs) := by
  have := h.treeBelow_eq hrow t.size (by simp)
  simpa [tree] using this

end Linked

end Forest

end Hyperstory
