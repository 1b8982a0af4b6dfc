import Mathlib.Data.List.Infix
import Mathlib.Data.List.Nodup
import Mathlib.Logic.Function.Basic
import Hyperstory.Tree.Forest

/-! What each operation on linked nodes makes of the links of every node. -/
namespace Hyperstory.Forest

/-- What a node says by itself, without the nodes around it. -/
def label (t : Forest) (i : NodeId) : Node := { t.node i with links := {} }

theorem node_modify (t : Forest) (i j : NodeId) (f : Node → Node) :
    (t.modify i f).node j = if i = j ∧ j < t.size then f (t.node j) else t.node j := by
  unfold node modify size
  by_cases hj : j < t.nodes.size
  · simp [Array.getD, hj, Array.getElem_modify]
  · simp [Array.getD, hj]

theorem node_add (t : Forest) (n : Node) (j : NodeId) :
    (t.add n).1.node j = if j = t.size then n else t.node j := by
  unfold node add size
  by_cases hj : j < t.nodes.size
  · have hne : j ≠ t.nodes.size := Nat.ne_of_lt hj
    have hlt : j < t.nodes.size + 1 := Nat.lt_succ_of_lt hj
    simp [Array.getD, hj, hne, hlt, Array.getElem_push]
  · by_cases he : j = t.nodes.size
    · simp [Array.getD, he]
    · have hlt : ¬ j < t.nodes.size + 1 := fun h => (Nat.lt_succ_iff_lt_or_eq.mp h).elim hj he
      simp [Array.getD, hj, he, hlt]

@[simp]
theorem size_modify (t : Forest) (i : NodeId) (f : Node → Node) : (t.modify i f).size = t.size := by
  simp [modify, size]

@[simp]
theorem size_relink (t : Forest) (i : NodeId) (f : Links → Links) : (t.relink i f).size = t.size :=
  size_modify ..

@[simp]
theorem size_relink? (t : Forest) (i : Option NodeId) (f : Links → Links) :
    (t.relink? i f).size = t.size := by
  cases i <;> simp [relink?]

@[simp]
theorem size_add (t : Forest) (n : Node) : (t.add n).1.size = t.size + 1 := by
  simp [add, size]

@[simp]
theorem label_relink (t : Forest) (i j : NodeId) (f : Links → Links) :
    (t.relink i f).label j = t.label j := by
  unfold label relink
  rw [node_modify]
  split_ifs <;> rfl

@[simp]
theorem label_relink? (t : Forest) (i : Option NodeId) (j : NodeId) (f : Links → Links) :
    (t.relink? i f).label j = t.label j := by
  cases i <;> simp [relink?]

theorem label_add (t : Forest) (n : Node) (j : NodeId) :
    (t.add n).1.label j = if j = t.size then { n with links := {} } else t.label j := by
  unfold label
  rw [node_add]
  split_ifs <;> rfl

theorem links_add (t : Forest) {n : Node} (hn : n.links = {}) (j : NodeId) :
    (t.add n).1.links j = t.links j := by
  unfold links
  rw [node_add]
  split_ifs with h
  · have hj : ¬ j < t.nodes.size := by simp [h, size]
    simp only [node, Array.getD, hj, dite_false, hn]
    rfl
  · rfl

theorem links_modify (t : Forest) (i j : NodeId) {f : Node → Node}
    (hf : ∀ n, (f n).links = n.links) : (t.modify i f).links j = t.links j := by
  unfold links
  rw [node_modify]
  split_ifs <;> simp [hf]

theorem links_relink (t : Forest) {i : NodeId} (hi : i < t.size) (f : Links → Links) (j : NodeId) :
    (t.relink i f).links j = if i = j then f (t.links j) else t.links j := by
  unfold links relink
  rw [node_modify]
  by_cases h : i = j
  · subst h; simp [hi]
  · simp [h]

theorem links_of_size_le (t : Forest) {i : NodeId} (hi : t.size ≤ i) : t.links i = {} := by
  have hi : ¬ i < t.nodes.size := Nat.not_lt.mpr hi
  simp only [links, node, Array.getD, hi, dite_false]
  rfl

theorem relink_eq_self {t : Forest} {i : NodeId} {f : Links → Links}
    (h : f (t.links i) = t.links i) : t.relink i f = t := by
  cases t with
  | mk nodes =>
    unfold relink modify
    congr 1
    apply Array.ext
    · simp
    · intro j hj hj'
      rw [Array.getElem_modify]
      split_ifs with hij
      · subst hij
        simp only [links, node, Array.getD, hj', dite_true] at h
        rw [show nodes.getInternal i hj' = nodes[i] from rfl] at h
        rw [h]
      · rfl

/-- The links around `i` lead to other nodes of the table. -/
structure Apart (t : Forest) (i : NodeId) : Prop where
  lt_size : i < t.size
  parent : ∀ p, (t.links i).parent = some p → p ≠ i ∧ p < t.size
  prev : ∀ a, (t.links i).prev = some a → a ≠ i ∧ a < t.size
  next : ∀ b, (t.links i).next = some b → b ≠ i ∧ b < t.size

namespace Apart

variable {t : Forest} {i : NodeId}

theorem parent_ne (h : t.Apart i) : (t.links i).parent ≠ some i := fun he => (h.parent i he).1 rfl

theorem prev_ne (h : t.Apart i) : (t.links i).prev ≠ some i := fun he => (h.prev i he).1 rfl

theorem next_ne (h : t.Apart i) : (t.links i).next ≠ some i := fun he => (h.next i he).1 rfl

end Apart

/-- The node before a gap, or else the parent, is led past it. -/
private def leadOn (t : Forest) (l : Links) : Forest :=
  match l.prev with
  | some a => t.relink a fun k => { k with next := l.next }
  | none => t.relink? l.parent fun k => { k with firstChild := l.next }

/-- The node after a gap, or else the parent, is led back over it. -/
private def leadBack (t : Forest) (l : Links) : Forest :=
  match l.next with
  | some b => t.relink b fun k => { k with prev := l.prev }
  | none => t.relink? l.parent fun k => { k with lastChild := l.prev }

private theorem unlink_eq (t : Forest) (i : NodeId) :
    t.unlink i =
      ((t.leadOn (t.links i)).leadBack ((t.leadOn (t.links i)).links i)).relink i
        fun k => { k with parent := none, prev := none, next := none } := rfl

@[simp]
private theorem size_leadOn (t : Forest) (l : Links) : (t.leadOn l).size = t.size := by
  unfold leadOn
  split <;> simp

@[simp]
private theorem size_leadBack (t : Forest) (l : Links) : (t.leadBack l).size = t.size := by
  unfold leadBack
  split <;> simp

private theorem links_leadOn {t : Forest} {i : NodeId} (h : t.Apart i) (j : NodeId) :
    (t.leadOn (t.links i)).links j =
      { t.links j with
        next := if (t.links i).prev = some j then (t.links i).next else (t.links j).next
        firstChild :=
          if (t.links i).prev = none ∧ (t.links i).parent = some j then (t.links i).next
          else (t.links j).firstChild } := by
  unfold leadOn
  cases hprev : (t.links i).prev with
  | some a =>
    rw [links_relink t (h.prev a hprev).2]
    by_cases ha : a = j <;> simp [ha]
  | none =>
    cases hparent : (t.links i).parent with
    | none => simp [relink?]
    | some p =>
      simp only [relink?]
      rw [links_relink t (h.parent p hparent).2]
      by_cases hp : p = j <;> simp [hp]

private theorem links_leadBack {t : Forest} {i : NodeId} (h : t.Apart i) (j : NodeId) :
    (t.leadBack (t.links i)).links j =
      { t.links j with
        prev := if (t.links i).next = some j then (t.links i).prev else (t.links j).prev
        lastChild :=
          if (t.links i).next = none ∧ (t.links i).parent = some j then (t.links i).prev
          else (t.links j).lastChild } := by
  unfold leadBack
  cases hnext : (t.links i).next with
  | some b =>
    rw [links_relink t (h.next b hnext).2]
    by_cases hb : b = j <;> simp [hb]
  | none =>
    cases hparent : (t.links i).parent with
    | none => simp [relink?]
    | some p =>
      simp only [relink?]
      rw [links_relink t (h.parent p hparent).2]
      by_cases hp : p = j <;> simp [hp]

/-- What taking out `i` makes of the links of each node. -/
theorem links_unlink {t : Forest} {i : NodeId} (h : t.Apart i) (j : NodeId) :
    (t.unlink i).links j =
      if i = j then { t.links i with parent := none, prev := none, next := none }
      else
        { t.links j with
          next := if (t.links i).prev = some j then (t.links i).next else (t.links j).next
          prev := if (t.links i).next = some j then (t.links i).prev else (t.links j).prev
          firstChild :=
            if (t.links i).prev = none ∧ (t.links i).parent = some j then (t.links i).next
            else (t.links j).firstChild
          lastChild :=
            if (t.links i).next = none ∧ (t.links i).parent = some j then (t.links i).prev
            else (t.links j).lastChild } := by
  -- The first step leaves the links of `i` alone, so the second one reads the same neighbours.
  have hkeep : (t.leadOn (t.links i)).links i = t.links i := by
    rw [links_leadOn h]
    simp [h.prev_ne, h.parent_ne]
  have happ : (t.leadOn (t.links i)).Apart i := by
    constructor <;> simp only [hkeep, size_leadOn]
    exacts [h.lt_size, h.parent, h.prev, h.next]
  have hback := links_leadBack happ
  rw [hkeep] at hback
  rw [unlink_eq, links_relink _ (by simpa using h.lt_size), hkeep]
  by_cases hij : i = j
  · subst hij
    simp [hback, hkeep, h.next_ne, h.parent_ne]
  · simp only [hij, if_false, hback, links_leadOn h]

@[simp]
theorem size_unlink (t : Forest) (i : NodeId) : (t.unlink i).size = t.size := by
  rw [unlink_eq]
  simp

@[simp]
theorem label_unlink (t : Forest) (i j : NodeId) : (t.unlink i).label j = t.label j := by
  rw [unlink_eq, label_relink]
  unfold leadBack
  split <;> rw [leadOn] <;> split <;> simp

/-- The node stands in no list. -/
def Loose (t : Forest) (i : NodeId) : Prop :=
  (t.links i).parent = none ∧ (t.links i).prev = none ∧ (t.links i).next = none

theorem unlink_of_loose {t : Forest} {i : NodeId} (h : t.Loose i) : t.unlink i = t := by
  obtain ⟨hparent, hprev, hnext⟩ := h
  have h₁ : t.leadOn (t.links i) = t := by simp [leadOn, hprev, hparent, relink?]
  have h₂ : t.leadBack (t.links i) = t := by simp [leadBack, hnext, hparent, relink?]
  rw [unlink_eq, h₁, h₂]
  apply relink_eq_self
  cases hl : t.links i
  simp_all

@[simp]
theorem size_markLast (t : Forest) (i : NodeId) : (t.markLast i).size = t.size := by
  unfold markLast
  split <;> simp

@[simp]
theorem label_markLast (t : Forest) (i j : NodeId) : (t.markLast i).label j = t.label j := by
  unfold markLast
  split <;> simp

@[simp]
theorem size_markFirst (t : Forest) (i : NodeId) : (t.markFirst i).size = t.size := by
  unfold markFirst
  split <;> simp

@[simp]
theorem label_markFirst (t : Forest) (i j : NodeId) : (t.markFirst i).label j = t.label j := by
  unfold markFirst
  split <;> simp

@[simp]
theorem size_insertAfter (t : Forest) (i s : NodeId) : (t.insertAfter i s).size = t.size := by
  simp [insertAfter]

@[simp]
theorem label_insertAfter (t : Forest) (i s j : NodeId) :
    (t.insertAfter i s).label j = t.label j := by
  simp [insertAfter]

@[simp]
theorem size_insertBefore (t : Forest) (i s : NodeId) : (t.insertBefore i s).size = t.size := by
  simp [insertBefore]

@[simp]
theorem label_insertBefore (t : Forest) (i s j : NodeId) :
    (t.insertBefore i s).label j = t.label j := by
  simp [insertBefore]

@[simp]
theorem size_appendChild (t : Forest) (i s : NodeId) : (t.appendChild i s).size = t.size := by
  simp only [appendChild]
  split <;> simp

@[simp]
theorem label_appendChild (t : Forest) (i s j : NodeId) :
    (t.appendChild i s).label j = t.label j := by
  simp only [appendChild]
  split <;> simp

/-- What putting a loose node after `i` makes of the links of each node. -/
theorem links_insertAfter {t : Forest} {i s : NodeId} (h : t.Apart i) (hs : t.Loose s)
    (hsize : s < t.size) (his : i ≠ s) (hparent : (t.links i).parent ≠ some s)
    (hnext : (t.links i).next ≠ some s) (j : NodeId) :
    (t.insertAfter i s).links j =
      if s = j then
        { t.links s with
          parent := (t.links i).parent
          prev := some i
          next := (t.links i).next }
      else
        { t.links j with
          next := if i = j then some s else (t.links j).next
          prev := if (t.links i).next = some j then some s else (t.links j).prev
          lastChild :=
            if (t.links i).next = none ∧ (t.links i).parent = some j then some s
            else (t.links j).lastChild } := by
  have hi := h.lt_size
  unfold insertAfter
  rw [unlink_of_loose hs]
  cases hn : (t.links i).next with
  | some b =>
    obtain ⟨hbi, hb⟩ := h.next b hn
    have hbs : b ≠ s := by simpa [hn] using hnext
    simp [markLast, relink?, links_relink, hi, hsize, his, his.symm, hn, hb, hbs, hbi]
    split_ifs <;> simp_all
  | none =>
    cases hp : (t.links i).parent with
    | none =>
      simp [markLast, relink?, links_relink, hi, hsize, his, his.symm, hn, hp]
      split_ifs <;> simp_all
    | some p =>
      obtain ⟨hpi, hps⟩ := h.parent p hp
      have hps' : p ≠ s := by simpa [hp] using hparent
      simp [markLast, relink?, links_relink, hi, hsize, his, his.symm, hn, hp, hps]
      split_ifs <;> simp_all

/-- What putting a loose node before `i` makes of the links of each node. -/
theorem links_insertBefore {t : Forest} {i s : NodeId} (h : t.Apart i) (hs : t.Loose s)
    (hsize : s < t.size) (his : i ≠ s) (hparent : (t.links i).parent ≠ some s)
    (hprev : (t.links i).prev ≠ some s) (j : NodeId) :
    (t.insertBefore i s).links j =
      if s = j then
        { t.links s with
          parent := (t.links i).parent
          prev := (t.links i).prev
          next := some i }
      else
        { t.links j with
          next := if (t.links i).prev = some j then some s else (t.links j).next
          prev := if i = j then some s else (t.links j).prev
          firstChild :=
            if (t.links i).prev = none ∧ (t.links i).parent = some j then some s
            else (t.links j).firstChild } := by
  have hi := h.lt_size
  unfold insertBefore
  rw [unlink_of_loose hs]
  cases hn : (t.links i).prev with
  | some a =>
    obtain ⟨hai, ha⟩ := h.prev a hn
    have has : a ≠ s := by simpa [hn] using hprev
    simp [markFirst, relink?, links_relink, hi, hsize, his, his.symm, hn, ha, has, hai]
    split_ifs <;> simp_all
  | none =>
    cases hp : (t.links i).parent with
    | none =>
      simp [markFirst, relink?, links_relink, hi, hsize, his, his.symm, hn, hp]
      split_ifs <;> simp_all
    | some p =>
      obtain ⟨hpi, hps⟩ := h.parent p hp
      have hps' : p ≠ s := by simpa [hp] using hparent
      simp [markFirst, relink?, links_relink, hi, hsize, his, his.symm, hn, hp, hps]
      split_ifs <;> simp_all

/-- What making a loose node the last child of `i` makes of the links of each node. -/
theorem links_appendChild {t : Forest} {i s : NodeId} (hi : i < t.size) (hs : t.Loose s)
    (hsize : s < t.size) (his : i ≠ s)
    (hlast : ∀ a, (t.links i).lastChild = some a → a ≠ s ∧ a ≠ i ∧ a < t.size) (j : NodeId) :
    (t.appendChild i s).links j =
      if s = j then { t.links s with parent := some i, prev := (t.links i).lastChild }
      else
        { t.links j with
          next := if (t.links i).lastChild = some j then some s else (t.links j).next
          firstChild :=
            if (t.links i).lastChild = none ∧ i = j then some s else (t.links j).firstChild
          lastChild := if i = j then some s else (t.links j).lastChild } := by
  unfold appendChild
  rw [unlink_of_loose hs]
  cases hl : (t.links i).lastChild with
  | none =>
    simp [links_relink, hi, hsize, his.symm, hl]
    split_ifs <;> simp_all [Loose]
  | some a =>
    obtain ⟨has, hai, ha⟩ := hlast a hl
    simp [links_relink, hi, hsize, his.symm, hl, ha]
    split_ifs <;> simp_all

end Hyperstory.Forest
