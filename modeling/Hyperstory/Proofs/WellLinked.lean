import Mathlib.Data.Fintype.EquivFin
import Hyperstory.Proofs.Edits
import Hyperstory.Proofs.Passes

/-!
Nodes linked into trees, in whatever order they were made, and the way a walk takes over them.
-/
namespace Hyperstory

open Hyperstory.Tree

namespace Tree

theorem top_subset {α : Type} {row : List (Tree α)} : row.map value ⊆ valuesAll row := by
  intro a ha
  obtain ⟨x, hx, rfl⟩ := List.mem_map.mp ha
  obtain ⟨a, cs⟩ := x
  exact mem_valuesAll.mpr ⟨_, hx, by simp⟩

end Tree

/-- The children of a place stand below it. -/
theorem Follows.kids_subset {kids : NodeId → List NodeId} {row : List (Tree NodeId)}
    (h : Follows kids row) {p : NodeId} (hp : p ∈ valuesAll row) : kids p ⊆ valuesAll row := by
  induction h with
  | nil => simp at hp
  | @cons i cs rest htop _ _ ihcs ihrest =>
    simp only [valuesAll_cons, values_node, List.cons_append, List.mem_cons, List.mem_append] at hp
    intro c hc
    simp only [valuesAll_cons, values_node, List.cons_append, List.mem_cons, List.mem_append]
    rcases hp with rfl | hp | hp
    · exact .inr (.inl (top_subset (htop ▸ hc)))
    · exact .inr (.inl (ihcs hp hc))
    · exact .inr (.inr (ihrest hp hc))

namespace Forest

/-- The links are those of ordered lists of siblings, and no node stands above itself. -/
structure WellLinked (t : Forest) : Prop where
  chained : ∃ rows, t.Chained rows
  acyclic : ∀ i, ¬ t.Above i i

theorem Reached.wellLinked {t : Forest} (h : Reached t) : t.WellLinked := by
  obtain ⟨⟨rows, hrows⟩, hloop⟩ := h.arranged
  exact ⟨⟨rows, hrows.toChained⟩, hloop⟩

theorem Reached.adds {t : Forest} (h : Reached t) {l : List Node} (hl : ∀ n ∈ l, n.links = {}) :
    Reached (l.foldl (fun t n => (t.add n).1) t) := by
  induction l generalizing t with
  | nil => exact h
  | cons n l ih =>
    rw [List.forall_mem_cons] at hl
    exact ih (h.make n hl.1) hl.2

theorem Reached.append {t : Forest} (h : Reached t) {i s : Nat} (hs : s < t.size) (hi : i < t.size)
    (hne : s ≠ i) (hparent : (t.links i).parent = none) : Reached (t.appendChild i s) := by
  refine h.edit (.append i s) ⟨hs, ?_⟩
  rintro j ⟨⟩
  exact ⟨hi, hne, not_above_of_parent hparent⟩

/-- The children that a walk goes to: only containers are entered. -/
def walked (t : Forest) (p : NodeId) : List NodeId :=
  if (t.label p).container then t.children p else []

/-- The places of the tree below `root`, with `root` itself. -/
inductive Within (t : Forest) (root : NodeId) : NodeId → Prop where
  | root : Within t root root
  | child {p c : NodeId} (hp : Within t root p) (hc : c ∈ t.walked p) : Within t root c

/-- Going from a node to its parent any number of times. -/
def Climbs (t : Forest) : NodeId → NodeId → Prop :=
  Relation.ReflTransGen fun c p => (t.links c).parent = some p

/-- What stands above a node and to both sides of it. -/
def around (t : Forest) (j : NodeId) : Option NodeId × Option NodeId × Option NodeId :=
  ((t.links j).parent, (t.links j).prev, (t.links j).next)

theorem mem_walked {t : Forest} {p c : NodeId} :
    c ∈ t.walked p ↔ (t.label p).container = true ∧ c ∈ t.children p := by
  unfold walked
  split_ifs with hc <;> simp [hc]

theorem walked_eq_children {t : Forest} {p : NodeId} (hc : (t.label p).container = true) :
    t.walked p = t.children p := if_pos hc

theorem walked_eq_nil {t : Forest} {p : NodeId} (hc : (t.label p).container = false) :
    t.walked p = [] := by
  rw [walked, hc]
  rfl

namespace WellLinked

variable {t t' : Forest} {p q i c root : NodeId} {l r : List NodeId} {row : List (Tree NodeId)}

theorem mem_children (h : t.WellLinked) : c ∈ t.children p ↔ (t.links c).parent = some p := by
  obtain ⟨rows, hrows⟩ := h.chained
  rw [hrows.children_eq, hrows.parent]

theorem nodup_children (h : t.WellLinked) (p : NodeId) : (t.children p).Nodup := by
  obtain ⟨rows, hrows⟩ := h.chained
  rw [hrows.children_eq]
  exact hrows.nodup _

theorem lt_size (h : t.WellLinked) {c : Nat} (hc : c ∈ t.children p) : c < t.size := by
  obtain ⟨rows, hrows⟩ := h.chained
  rw [hrows.children_eq] at hc
  exact hrows.lt_size _ c hc

theorem parent_unique (h : t.WellLinked) (hp : i ∈ t.children p) (hq : i ∈ t.children q) :
    p = q :=
  Option.some.inj ((h.mem_children.mp hp).symm.trans (h.mem_children.mp hq))

theorem firstChild_eq (h : t.WellLinked) (p : NodeId) :
    (t.links p).firstChild = (t.children p).head? := by
  obtain ⟨rows, hrows⟩ := h.chained
  rw [hrows.children_eq, hrows.firstChild]

theorem next_eq (h : t.WellLinked) (hk : t.children p = l ++ i :: r) :
    (t.links i).next = r.head? := by
  obtain ⟨rows, hrows⟩ := h.chained
  rw [hrows.children_eq] at hk
  exact hrows.next_eq hk

theorem parent_eq (h : t.WellLinked) (hk : t.children p = l ++ i :: r) :
    (t.links i).parent = some p :=
  h.mem_children.mp (by simp [hk])

theorem modify (h : t.WellLinked) (i : NodeId) {f : Node → Node}
    (hf : ∀ n, (f n).links = n.links) : (t.modify i f).WellLinked := by
  obtain ⟨rows, hrows⟩ := h.chained
  have hlinks : ∀ j, (t.modify i f).links j = t.links j := fun j => links_modify t i j hf
  refine ⟨⟨rows, hrows.congr_links (by simp) hlinks⟩, fun j => ?_⟩
  simpa only [Above, hlinks] using h.acyclic j

theorem children_modify (h : t.WellLinked) (i : NodeId) {f : Node → Node}
    (hf : ∀ n, (f n).links = n.links) (q : NodeId) : (t.modify i f).children q = t.children q := by
  obtain ⟨rows, hrows⟩ := h.chained
  have hlinks : ∀ j, (t.modify i f).links j = t.links j := fun j => links_modify t i j hf
  rw [hrows.children_eq, (hrows.congr_links (by simp) hlinks).children_eq]

theorem children_unlink (h : t.WellLinked) (hk : t.children p = l ++ i :: r) (q : NodeId) :
    (t.unlink i).children q = if q = p then l ++ r else t.children q := by
  obtain ⟨rows, hrows⟩ := h.chained
  rw [hrows.children_eq] at hk
  rw [(hrows.unlink hk).children_eq, hrows.children_eq, Function.update_apply]
  simp only [Holder.node.injEq]

theorem unlink (h : t.WellLinked) (hk : t.children p = l ++ i :: r) : (t.unlink i).WellLinked := by
  obtain ⟨rows, hrows⟩ := h.chained
  have hk' : rows (.node p) = l ++ i :: r := hrows.children_eq p ▸ hk
  have hchained := hrows.unlink hk'
  refine ⟨⟨_, hchained⟩, ?_⟩
  have hi : i ∉ l ++ r := (List.nodup_middle.mp (hrows.nodup_middle hk')).notMem
  have hmem : ∀ j q, ((t.unlink i).links j).parent = some q ↔
      j ∈ if q = p then l ++ r else t.children q := fun j q => by
    rw [← h.children_unlink hk, hchained.children_eq, hchained.parent]
  -- A node that is taken out gets no parent, and the others keep theirs.
  refine not_above_self (s := i) h.acyclic (fun j hj => ?_) fun q hq => ?_
  · ext q
    rw [hmem, ← h.mem_children]
    split_ifs with hqp
    · rw [hqp, hk, mem_middle_of_ne hj]
    · rfl
  · rw [hmem] at hq
    split_ifs at hq with hqp
    · exact absurd hq hi
    · exact absurd (h.parent_unique (by simp [hk]) hq).symm hqp

/-- Taking a node out concerns nothing but its siblings. -/
theorem around_unlink (h : t.WellLinked) (hk : t.children p = l ++ i :: r) {j : NodeId}
    (hj : j ∉ t.children p) : (t.unlink i).around j = t.around j := by
  obtain ⟨rows, hrows⟩ := h.chained
  have hk' : rows (.node p) = l ++ i :: r := hrows.children_eq p ▸ hk
  rw [hk] at hj
  have hij : i ≠ j := by
    rintro rfl
    simp at hj
  have hl : l.getLast? ≠ some j := fun he => hj (by simp [List.mem_of_getLast? he])
  have hr : r.head? ≠ some j := fun he => hj (by simp [List.mem_of_head? he])
  unfold around
  rw [links_unlink (hrows.apart hk'), hrows.prev_eq hk', hrows.next_eq hk', if_neg hij]
  simp only [hl, hr, if_false]

/-- Children have a smaller tree below them than their parent. -/
theorem wellFounded (h : t.WellLinked) : WellFounded fun c p => c ∈ t.children p := by
  let below : Fin t.size → Fin t.size → Prop := fun c p => t.Above p.1 c.1
  have htrans : IsTrans (Fin t.size) below := ⟨fun _ _ _ hab hbc => Relation.TransGen.trans hbc hab⟩
  have hirrefl : Std.Irrefl below := ⟨fun i => h.acyclic i.1⟩
  have hfinite : WellFounded below := Finite.wellFounded_of_trans_of_irrefl below
  have hacc : ∀ i : Fin t.size, Acc (fun c p => c ∈ t.children p) i.1 := by
    intro i
    induction i using hfinite.induction with
    | _ i ih =>
      exact .intro i.1 fun c hc => ih ⟨c, h.lt_size hc⟩ (.single (h.mem_children.mp hc))
  exact ⟨fun p => .intro p fun c hc => hacc ⟨c, h.lt_size hc⟩⟩

theorem exists_row_of_forall (hl : ∀ i ∈ l, ∃ cs, t.walked i = cs.map value ∧ Follows t.walked cs) :
    ∃ row, row.map value = l ∧ Follows t.walked row := by
  induction l with
  | nil => exact ⟨[], rfl, .nil⟩
  | cons i l ih =>
    obtain ⟨cs, htop, hcs⟩ := hl i List.mem_cons_self
    obtain ⟨row, rfl, hrow⟩ := ih fun j hj => hl j (List.mem_cons_of_mem i hj)
    exact ⟨.node i cs :: row, rfl, .cons htop hcs hrow⟩

/-- The places that a walk goes to below a node form a row of trees. -/
theorem exists_row (h : t.WellLinked) (i : NodeId) :
    ∃ cs, t.walked i = cs.map value ∧ Follows t.walked cs := by
  induction i using h.wellFounded.induction with
  | _ i ih =>
    obtain ⟨row, htop, hrow⟩ := exists_row_of_forall fun c hc => ih c (mem_walked.mp hc).2
    exact ⟨row, htop.symm, hrow⟩

theorem exists_climbs (h : t.WellLinked) (hrow : Follows t.walked row) {j : NodeId}
    (hj : j ∈ valuesAll row) : ∃ i ∈ row.map value, t.Climbs j i := by
  induction hrow with
  | nil => simp at hj
  | @cons i cs rest htop _ _ ihcs ihrest =>
    simp only [valuesAll_cons, values_node, List.cons_append, List.mem_cons, List.mem_append] at hj
    rcases hj with rfl | hj | hj
    · exact ⟨j, by simp, .refl⟩
    · obtain ⟨c, hc, hclimb⟩ := ihcs hj
      have hparent := h.mem_children.mp (mem_walked.mp (htop ▸ hc)).2
      exact ⟨i, by simp, hclimb.tail hparent⟩
    · obtain ⟨k, hk, hclimb⟩ := ihrest hj
      exact ⟨k, List.mem_cons_of_mem _ hk, hclimb⟩

theorem not_climbs_of_parent (h : t.WellLinked) (hc : (t.links c).parent = some p) :
    ¬ t.Climbs p c := by
  intro hclimb
  have hloop := Relation.TransGen.tail' hclimb hc
  exact h.acyclic p (Relation.transGen_swap.mp hloop)

/-- Only one child of a node is reached by going up from one place. -/
theorem siblings_eq (h : t.WellLinked) {j k : NodeId} (hi : (t.links i).parent = some p)
    (hk : (t.links k).parent = some p) (hji : t.Climbs j i) (hjk : t.Climbs j k) : i = k := by
  have hunique : Relator.RightUnique fun c p => (t.links c).parent = some p :=
    fun _ _ _ hp hq => Option.some.inj (hp.symm.trans hq)
  have hstep : ∀ {a b : NodeId}, (t.links a).parent = some p → (t.links b).parent = some p →
      t.Climbs a b → a = b := by
    intro a b ha hb hab
    rcases Relation.ReflTransGen.cases_head hab with rfl | ⟨q, hq, hqb⟩
    · rfl
    · obtain rfl := Option.some.inj (ha.symm.trans hq)
      exact absurd hqb (h.not_climbs_of_parent hb)
  rcases Relation.ReflTransGen.total_of_right_unique hunique hji hjk with hik | hki
  · exact hstep hi hk hik
  · exact (hstep hk hi hki).symm

theorem nodup_walked (h : t.WellLinked) (p : NodeId) : (t.walked p).Nodup := by
  unfold walked
  split_ifs
  · exact h.nodup_children p
  · exact List.nodup_nil

/-- A place does not stand below itself. -/
theorem notMem_below (h : t.WellLinked) {cs : List (Tree NodeId)}
    (htop : t.walked i = cs.map value) (hcs : Follows t.walked cs) : i ∉ valuesAll cs := by
  intro hi
  obtain ⟨c, hc, hclimb⟩ := h.exists_climbs hcs hi
  rw [← htop, mem_walked, h.mem_children] at hc
  exact h.not_climbs_of_parent hc.2 hclimb

/-- No place comes up twice in the trees over children of one node. -/
theorem nodup_valuesAll (h : t.WellLinked) (hrow : Follows t.walked row)
    (hp : ∃ p, ∀ c ∈ row.map value, c ∈ t.children p) (hnd : (row.map value).Nodup) :
    (valuesAll row).Nodup := by
  induction hrow with
  | nil => simp
  | @cons i cs rest htop hcs hrest ihcs ihrest =>
    obtain ⟨p, hp⟩ := hp
    simp only [List.map_cons, value_node, List.nodup_cons] at hnd
    have hbelow : ∀ c ∈ cs.map value, c ∈ t.children i := fun c hc =>
      (mem_walked.mp (htop ▸ hc)).2
    have hdisjoint : ∀ j ∈ i :: valuesAll cs, j ∉ valuesAll rest := by
      intro j hj hjrest
      obtain ⟨a, ha, hja⟩ := h.exists_climbs (.cons htop hcs .nil) (j := j) (by simpa using hj)
      obtain rfl : a = i := by simpa using ha
      obtain ⟨k, hk, hjk⟩ := h.exists_climbs hrest hjrest
      have hsame := h.siblings_eq (h.mem_children.mp (hp a (by simp)))
        (h.mem_children.mp (hp k (List.mem_cons_of_mem _ hk))) hja hjk
      exact hnd.1 (hsame ▸ hk)
    rw [valuesAll_cons, values_node, List.nodup_append']
    refine ⟨List.nodup_cons.mpr ⟨h.notMem_below htop hcs, ?_⟩, ?_, hdisjoint⟩
    · exact ihcs ⟨i, hbelow⟩ (htop ▸ h.nodup_walked i)
    · exact ihrest ⟨p, fun c hc => hp c (List.mem_cons_of_mem _ hc)⟩ hnd.2

section Below

variable {cs : List (Tree NodeId)}

/-- A walk below a node comes to no place twice, and not to the node again. -/
theorem nodup_below (h : t.WellLinked) (htop : t.walked i = cs.map value)
    (hcs : Follows t.walked cs) : (i :: valuesAll cs).Nodup := by
  refine List.nodup_cons.mpr ⟨h.notMem_below htop hcs, ?_⟩
  refine h.nodup_valuesAll hcs ⟨i, fun c hc => ?_⟩ (htop ▸ h.nodup_walked i)
  exact (mem_walked.mp (htop ▸ hc)).2

theorem places_subset_range (h : t.WellLinked) (htop : t.walked i = cs.map value)
    (hcs : Follows t.walked cs) : valuesAll cs ⊆ List.range t.size := by
  intro j hj
  rw [List.mem_range]
  rcases hcs.exists_parent hj with hj | ⟨q, -, hj⟩
  · exact h.lt_size (mem_walked.mp (htop ▸ hj)).2
  · exact h.lt_size (mem_walked.mp hj).2

/-- There are no more places below a node than nodes. -/
theorem length_places_le (h : t.WellLinked) (htop : t.walked i = cs.map value)
    (hcs : Follows t.walked cs) : (valuesAll cs).length ≤ t.size := by
  have hnd := (List.nodup_cons.mp (h.nodup_below htop hcs)).2
  simpa using (hnd.subperm (h.places_subset_range htop hcs)).length_le

/-- A node of the table has fewer places below it than there are nodes. -/
theorem length_places_lt (h : t.WellLinked) (hi : i < t.size) (htop : t.walked i = cs.map value)
    (hcs : Follows t.walked cs) : (valuesAll cs).length < t.size := by
  have hsub : i :: valuesAll cs ⊆ List.range t.size :=
    List.cons_subset.mpr ⟨List.mem_range.mpr hi, h.places_subset_range htop hcs⟩
  have hle := ((h.nodup_below htop hcs).subperm hsub).length_le
  rw [List.length_cons, List.length_range] at hle
  exact hle

theorem within_iff (htop : t.walked root = cs.map value) (hcs : Follows t.walked cs) {j : NodeId} :
    t.Within root j ↔ j ∈ root :: valuesAll cs := by
  constructor
  · intro hj
    induction hj with
    | root => exact List.mem_cons_self
    | @child p c _ hc ih =>
      rcases List.mem_cons.mp ih with rfl | hp
      · exact List.mem_cons_of_mem _ (top_subset (htop ▸ hc))
      · exact List.mem_cons_of_mem _ (hcs.kids_subset hp hc)
  · intro hj
    rcases List.mem_cons.mp hj with rfl | hj
    · exact .root
    · refine hcs.forall_mem (fun p c hc hp => .child hp hc) (fun x hx => ?_) j hj
      exact .child .root (htop ▸ List.mem_map_of_mem hx)

end Below

section Cursor

open Cursor

theorem after_enter (h : t.WellLinked) (hc : (t.label i).container = true) :
    after t root ⟨i, true⟩ = ahead root i (t.children i) :=
  after_of_firstChild hc (h.firstChild_eq i)

theorem after_last (h : t.WellLinked) (hk : t.children p = l ++ i :: r) (hroot : i ≠ root)
    {entering : Bool} (he : entering = true → (t.label i).container = false) :
    after t root ⟨i, entering⟩ = ahead root p r :=
  after_of_next (h.next_eq hk) (h.parent_eq hk) hroot he

end Cursor

end WellLinked

end Forest

end Hyperstory
