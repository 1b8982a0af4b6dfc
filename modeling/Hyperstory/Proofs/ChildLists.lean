import Hyperstory.Proofs.Rows

/-! Links as ordered lists of children. -/
namespace Hyperstory

namespace Forest

/-- The links of every node say that `kids` are the children of each node, in order. Nodes are
made after the node they stand below. -/
structure Linked (t : Forest) (kids : NodeId → List NodeId) : Prop where
  firstChild : ∀ p, (t.links p).firstChild = (kids p).head?
  lastChild : ∀ p, (t.links p).lastChild = (kids p).getLast?
  parent : ∀ p c, (t.links c).parent = some p ↔ c ∈ kids p
  next : ∀ a b, (t.links a).next = some b ↔ ∃ p, Adjacent (kids p) a b
  prev : ∀ a b, (t.links b).prev = some a ↔ ∃ p, Adjacent (kids p) a b
  nodup : ∀ p, (kids p).Nodup
  later : ∀ p c : Nat, c ∈ kids p → p < c ∧ c < t.size

/-- The lists of siblings where nothing stands in a list below none. -/
def below (kids : NodeId → List NodeId) : Holder → List NodeId
  | .node p => kids p
  | .free _ => []

section Below

variable {kids : NodeId → List NodeId}

theorem below_update (kids : NodeId → List NodeId) (p : NodeId) (m : List NodeId) :
    below (Function.update kids p m) = Function.update (below kids) (.node p) m := by
  funext o
  cases o with
  | node q => by_cases hq : q = p <;> simp [below, hq]
  | free k => simp [below]

theorem exists_adjacent_below {a b : NodeId} :
    (∃ o, Adjacent (below kids o) a b) ↔ ∃ p, Adjacent (kids p) a b := by
  constructor
  · rintro ⟨o, ho⟩
    cases o with
    | node p => exact ⟨p, ho⟩
    | free k => exact absurd ho not_adjacent_nil
  · exact fun ⟨p, hp⟩ => ⟨.node p, hp⟩

theorem notMem_below {s : NodeId} (hs : ∀ q, s ∉ kids q) (o : Holder) : s ∉ below kids o := by
  cases o with
  | node q => exact hs q
  | free k => exact List.not_mem_nil

end Below

namespace Linked

variable {t t' : Forest} {kids : NodeId → List NodeId} {p q i s : Nat} {l r : List NodeId}

theorem parent_unique (h : t.Linked kids) (hp : i ∈ kids p) (hq : i ∈ kids q) : p = q := by
  have hp := (h.parent p i).mpr hp
  have hq := (h.parent q i).mpr hq
  exact Option.some.inj (hp.symm.trans hq)

theorem chained (h : t.Linked kids) : t.Chained (below kids) where
  firstChild := h.firstChild
  lastChild := h.lastChild
  parent := h.parent
  next a b := (h.next a b).trans exists_adjacent_below.symm
  prev a b := (h.prev a b).trans exists_adjacent_below.symm
  nodup o := by
    cases o with
    | node p => exact h.nodup p
    | free k => exact List.nodup_nil
  unique o o' c ho ho' := by
    cases o with
    | free k => cases ho
    | node p =>
      cases o' with
      | free k => cases ho'
      | node q => exact congrArg Holder.node (h.parent_unique ho ho')
  lt_size o c hc := by
    cases o with
    | node p => exact (h.later p c hc).2
    | free k => cases hc
  proper p c hc := by
    obtain ⟨hpc, hc⟩ := h.later p c hc
    exact ⟨hpc.ne, hpc.trans hc⟩

theorem of_chained (h : t.Chained (below kids))
    (hlater : ∀ p c : Nat, c ∈ kids p → p < c ∧ c < t.size) : t.Linked kids where
  firstChild := h.firstChild
  lastChild := h.lastChild
  parent := h.parent
  next a b := (h.next a b).trans exists_adjacent_below
  prev a b := (h.prev a b).trans exists_adjacent_below
  nodup p := h.nodup (.node p)
  later := hlater

theorem next_eq (h : t.Linked kids) (hk : kids p = l ++ i :: r) : (t.links i).next = r.head? :=
  h.chained.next_eq (o := .node p) hk

theorem prev_eq (h : t.Linked kids) (hk : kids p = l ++ i :: r) :
    (t.links i).prev = l.getLast? :=
  h.chained.prev_eq (o := .node p) hk

theorem parent_eq (h : t.Linked kids) (hk : kids p = l ++ i :: r) :
    (t.links i).parent = some p := (h.parent p i).mpr (by simp [hk])

theorem of_update (h : t.Linked kids) {m : List NodeId} (hsize : t.size ≤ t'.size)
    (hm : ∀ c : Nat, c ∈ m → p < c ∧ c < t'.size)
    (ht : t'.Chained (Function.update (below kids) (.node p) m)) :
    t'.Linked (Function.update kids p m) := by
  rw [← below_update] at ht
  refine of_chained ht fun q c hc => ?_
  by_cases hqp : q = p
  · subst hqp
    exact hm c (by simpa using hc)
  · obtain ⟨hqc, hc⟩ := h.later q c (by simpa [hqp] using hc)
    exact ⟨hqc, hc.trans_le hsize⟩

theorem unlink (h : t.Linked kids) (hk : kids p = l ++ i :: r) :
    (t.unlink i).Linked (Function.update kids p (l ++ r)) := by
  refine h.of_update (by simp) (fun c hc => ?_) (h.chained.unlink hk)
  have hsub : l ++ r ⊆ l ++ i :: r :=
    (List.Sublist.append_left (List.sublist_cons_self i r) l).subset
  simpa using h.later p c (hk ▸ hsub hc)

theorem loose (h : t.Linked kids) (hs : ∀ q, s ∉ kids q) : t.Loose s :=
  h.chained.loose (notMem_below hs)

/-- A node that stands nowhere comes into a list of children, wherever in it. -/
theorem of_put (h : t.Linked kids) (hk : kids p = l ++ r) (hps : p < s)
    (hs : s < t.size) (hsize : t'.size = t.size)
    (ht : t'.Chained (Function.update (below kids) (.node p) (l ++ s :: r))) :
    t'.Linked (Function.update kids p (l ++ s :: r)) := by
  refine h.of_update hsize.ge (fun c hc => ?_) ht
  by_cases hcs : c = s
  · exact hcs ▸ ⟨hps, hsize ▸ hs⟩
  · exact hsize ▸ h.later p c (hk ▸ (mem_middle_of_ne hcs).mp hc)

theorem insertAfter (h : t.Linked kids) (hk : kids p = l ++ i :: r) (hps : p < s)
    (hs : s < t.size) (hloose : ∀ q, s ∉ kids q) :
    (t.insertAfter i s).Linked (Function.update kids p (l ++ i :: s :: r)) := by
  have ht := h.chained.insertAfter (o := .node p) hk hs (by simpa using hps.ne)
    (notMem_below hloose)
  rw [List.append_cons] at ht ⊢
  exact h.of_put (by simpa using hk) hps hs (by simp) ht

theorem insertBefore (h : t.Linked kids) (hk : kids p = l ++ i :: r) (hps : p < s)
    (hs : s < t.size) (hloose : ∀ q, s ∉ kids q) :
    (t.insertBefore i s).Linked (Function.update kids p (l ++ s :: i :: r)) :=
  h.of_put hk hps hs (by simp)
    (h.chained.insertBefore (o := .node p) hk hs (by simpa using hps.ne) (notMem_below hloose))

theorem appendChild (h : t.Linked kids) (hps : p < s) (hs : s < t.size)
    (hloose : ∀ q, s ∉ kids q) :
    (t.appendChild p s).Linked (Function.update kids p (kids p ++ [s])) :=
  h.of_put (by simp) hps hs (by simp)
    (h.chained.appendChild (hps.trans hs) hs hps.ne (notMem_below hloose))

theorem congr_links (h : t.Linked kids) (hsize : t.size ≤ t'.size)
    (hlinks : ∀ j, t'.links j = t.links j) : t'.Linked kids :=
  of_chained (h.chained.congr_links hsize hlinks) fun p c hc =>
    ⟨(h.later p c hc).1, (h.later p c hc).2.trans_le hsize⟩

theorem modify (h : t.Linked kids) (i : NodeId) {f : Node → Node}
    (hf : ∀ n, (f n).links = n.links) : (t.modify i f).Linked kids :=
  h.congr_links (by simp) fun j => links_modify t i j hf

theorem add (h : t.Linked kids) {n : Node} (hn : n.links = {}) : (t.add n).1.Linked kids :=
  h.congr_links (by simp) fun j => links_add t hn j

theorem size_notMem (h : t.Linked kids) (q : NodeId) : t.size ∉ kids q :=
  fun hq => (h.later q _ hq).2.ne rfl

theorem kids_eq_nil (h : t.Linked kids) {j : NodeId} (hj : t.size ≤ j) : kids j = [] := by
  have hfirst := h.firstChild j
  rw [links_of_size_le t hj] at hfirst
  exact List.head?_eq_none_iff.mp hfirst.symm

theorem appendChild_add (h : t.Linked kids) (hp : p < t.size) {n : Node} (hn : n.links = {}) :
    ((t.add n).1.appendChild p t.size).Linked
      (Function.update kids p (kids p ++ [t.size])) :=
  (h.add hn).appendChild hp (by simp) h.size_notMem

/-- Following the links from the first child on gives the list of children. -/
theorem children_eq (h : t.Linked kids) (p : NodeId) : t.children p = kids p :=
  h.chained.children_eq p

end Linked

end Forest

end Hyperstory
