import Mathlib.Data.List.Infix
import Mathlib.Data.List.Nodup
import Mathlib.Data.List.Perm.Subperm
import Mathlib.Logic.Function.Basic
import Mathlib.Tactic.Tauto
import Hyperstory.Proofs.Links

/-! Links as ordered lists of siblings. A list stands below a node, or below none. -/
namespace Hyperstory

/-- `b` stands right after `a` in the list. -/
def Adjacent {α : Type} (l : List α) (a b : α) : Prop := [a, b] <:+: l

section Adjacent

variable {α : Type} {l r : List α} {a b x : α}

@[simp]
theorem not_adjacent_nil : ¬ Adjacent [] a b := by simp [Adjacent]

theorem adjacent_cons : Adjacent (x :: l) a b ↔ (a = x ∧ l.head? = some b) ∨ Adjacent l a b := by
  rw [Adjacent, List.infix_cons_iff, List.cons_prefix_cons]
  cases l with
  | nil => simp [Adjacent]
  | cons y l => simp [Adjacent, List.cons_prefix_cons, eq_comm]

theorem adjacent_append : Adjacent (l ++ r) a b ↔
    Adjacent l a b ∨ (l.getLast? = some a ∧ r.head? = some b) ∨ Adjacent r a b := by
  induction l with
  | nil => simp
  | cons y l ih =>
    rw [List.cons_append, adjacent_cons, adjacent_cons, ih]
    cases l with
    | nil => simp [eq_comm]
    | cons z l => simp [or_assoc, List.getLast?_cons]

theorem Adjacent.mem_left (h : Adjacent l a b) : a ∈ l := h.subset (by simp)

theorem Adjacent.mem_right (h : Adjacent l a b) : b ∈ l := h.subset (by simp)

theorem not_adjacent_left (h : a ∉ l) : ¬ Adjacent l a b := fun hadj => h hadj.mem_left

theorem not_adjacent_right (h : b ∉ l) : ¬ Adjacent l a b := fun hadj => h hadj.mem_right

theorem Adjacent.getLast?_ne (h : Adjacent l a b) (hnd : l.Nodup) : l.getLast? ≠ some a := by
  obtain ⟨u, v, rfl⟩ := h
  intro hlast
  have hmem : a ∈ b :: v := List.mem_of_getLast? (by simpa using hlast)
  grind

theorem Adjacent.head?_ne (h : Adjacent l a b) (hnd : l.Nodup) : l.head? ≠ some b := by
  obtain ⟨u, v, rfl⟩ := h
  intro hhead
  have hmem : b ∈ u ++ [a] := List.mem_of_head? (by simpa using hhead)
  grind

/-- What stands after the last of `l` begins `r`. -/
theorem adjacent_append_left (hnd : (l ++ r).Nodup) (hla : l.getLast? = some a) :
    Adjacent (l ++ r) a b ↔ r.head? = some b := by
  have hal := List.mem_of_getLast? hla
  have hnl : ¬ Adjacent l a b := fun hadj => hadj.getLast?_ne (by grind) hla
  have hnr : ¬ Adjacent r a b := fun hadj => by have := hadj.mem_left; grind
  simp [adjacent_append, hla, hnl, hnr]

/-- What stands before the first of `r` ends `l`. -/
theorem adjacent_append_right (hnd : (l ++ r).Nodup) (hrb : r.head? = some b) :
    Adjacent (l ++ r) a b ↔ l.getLast? = some a := by
  have hbr := List.mem_of_head? hrb
  have hnl : ¬ Adjacent l a b := fun hadj => by have := hadj.mem_right; grind
  have hnr : ¬ Adjacent r a b := fun hadj => hadj.head?_ne (by grind) hrb
  simp [adjacent_append, hrb, hnl, hnr]

theorem adjacent_middle_left (hnd : (l ++ x :: r).Nodup) :
    Adjacent (l ++ x :: r) x b ↔ r.head? = some b := by
  rw [List.append_cons]
  exact adjacent_append_left (by simpa using hnd) (by simp)

theorem adjacent_middle_right (hnd : (l ++ x :: r).Nodup) :
    Adjacent (l ++ x :: r) a x ↔ l.getLast? = some a :=
  adjacent_append_right hnd (by simp)

theorem mem_middle_of_ne (hax : a ≠ x) : a ∈ l ++ x :: r ↔ a ∈ l ++ r := by simp [hax]

/-- A node between `l` and `r` changes only what stands after it and after the last of `l`. -/
theorem adjacent_without_left (hax : a ≠ x) (hla : l.getLast? ≠ some a) :
    Adjacent (l ++ x :: r) a b ↔ Adjacent (l ++ r) a b := by
  simp [adjacent_append, adjacent_cons, hax, hla]

/-- A node between `l` and `r` changes only what stands before it and before the first of `r`. -/
theorem adjacent_without_right (hbx : b ≠ x) (hrb : r.head? ≠ some b) :
    Adjacent (l ++ x :: r) a b ↔ Adjacent (l ++ r) a b := by
  simp [adjacent_append, adjacent_cons, Ne.symm hbx, hrb]

end Adjacent

/-- What a list of siblings stands below: a node, or nothing. The lists below nothing have numbers,
which say nothing about them. -/
inductive Holder where
  | node (p : NodeId)
  | free (k : Nat)
  deriving DecidableEq

namespace Holder

/-- The node that the list stands below. -/
def node? : Holder → Option NodeId
  | node p => some p
  | free _ => none

@[simp]
theorem node?_node (p : NodeId) : (node p).node? = some p := rfl

@[simp]
theorem node?_free (k : Nat) : (free k).node? = none := rfl

@[simp]
theorem node?_eq_some {o : Holder} {p : NodeId} : o.node? = some p ↔ o = node p := by
  cases o <;> simp [node?]

end Holder

namespace Forest

/-- The links of every node say that `rows` are the lists of siblings, in order: those below each
node, and those below none. -/
structure Chained (t : Forest) (rows : Holder → List NodeId) : Prop where
  firstChild : ∀ p, (t.links p).firstChild = (rows (.node p)).head?
  lastChild : ∀ p, (t.links p).lastChild = (rows (.node p)).getLast?
  parent : ∀ p c, (t.links c).parent = some p ↔ c ∈ rows (.node p)
  next : ∀ a b, (t.links a).next = some b ↔ ∃ o, Adjacent (rows o) a b
  prev : ∀ a b, (t.links b).prev = some a ↔ ∃ o, Adjacent (rows o) a b
  nodup : ∀ o, (rows o).Nodup
  unique : ∀ o o' c, c ∈ rows o → c ∈ rows o' → o = o'
  lt_size : ∀ o, ∀ c : Nat, c ∈ rows o → c < t.size
  proper : ∀ p c : Nat, c ∈ rows (.node p) → p ≠ c ∧ p < t.size

namespace Chained

variable {t t' : Forest} {rows : Holder → List NodeId} {o : Holder} {i s : Nat}
  {l r : List NodeId}

/-- Only the list that a node stands in tells what stands next to it. -/
theorem next_iff (h : t.Chained rows) (ho : i ∈ rows o) {b : NodeId} :
    (t.links i).next = some b ↔ Adjacent (rows o) i b := by
  rw [h.next]
  exact ⟨fun ⟨_, hq⟩ => h.unique _ _ i hq.mem_left ho ▸ hq, fun hadj => ⟨o, hadj⟩⟩

theorem prev_iff (h : t.Chained rows) (ho : i ∈ rows o) {a : NodeId} :
    (t.links i).prev = some a ↔ Adjacent (rows o) a i := by
  rw [h.prev]
  exact ⟨fun ⟨_, hq⟩ => h.unique _ _ i hq.mem_right ho ▸ hq, fun hadj => ⟨o, hadj⟩⟩

theorem nodup_middle (h : t.Chained rows) (hk : rows o = l ++ i :: r) : (l ++ i :: r).Nodup :=
  hk ▸ h.nodup o

theorem next_eq (h : t.Chained rows) (hk : rows o = l ++ i :: r) : (t.links i).next = r.head? := by
  ext b
  rw [h.next_iff (o := o) (by simp [hk]), hk]
  exact adjacent_middle_left (h.nodup_middle hk)

theorem prev_eq (h : t.Chained rows) (hk : rows o = l ++ i :: r) :
    (t.links i).prev = l.getLast? := by
  ext a
  rw [h.prev_iff (o := o) (by simp [hk]), hk]
  exact adjacent_middle_right (h.nodup_middle hk)

theorem parent_eq (h : t.Chained rows) (ho : i ∈ rows o) : (t.links i).parent = o.node? := by
  ext p
  rw [h.parent, Holder.node?_eq_some]
  exact ⟨fun hp => h.unique _ _ i ho hp, fun he => he ▸ ho⟩

theorem apart (h : t.Chained rows) (hk : rows o = l ++ i :: r) : t.Apart i := by
  have hnd := h.nodup_middle hk
  have hmem : i ∈ rows o := by simp [hk]
  refine ⟨h.lt_size o i hmem, ?_, ?_, ?_⟩
  · exact fun q hq => h.proper q i ((h.parent q i).mp hq)
  · intro a ha
    rw [h.prev_eq hk] at ha
    have hal : a ∈ l := List.mem_of_getLast? ha
    exact ⟨by rintro rfl; grind, h.lt_size o a (by simp [hk, hal])⟩
  · intro b hb
    rw [h.next_eq hk] at hb
    have hbr : b ∈ r := List.mem_of_head? hb
    exact ⟨by rintro rfl; grind, h.lt_size o b (by simp [hk, hbr])⟩

section Update

variable {m : List NodeId} {a b : NodeId}

/-- Nodes that are next to each other in no other list are so by the new one. -/
theorem adjacent_update (hother : ∀ q, q ≠ o → ¬ Adjacent (rows q) a b) :
    (∃ q, Adjacent (Function.update rows o m q) a b) ↔ Adjacent m a b := by
  constructor
  · rintro ⟨q, hq⟩
    by_cases hqo : q = o
    · subst hqo; simpa using hq
    · exact absurd (by simpa [hqo] using hq) (hother q hqo)
  · exact fun hadj => ⟨o, by simpa using hadj⟩

/-- A new list changes nothing for nodes that are next to each other neither in it nor in the old
one. -/
theorem adjacent_update_of_not (hm : ¬ Adjacent m a b) (ho : ¬ Adjacent (rows o) a b) :
    (∃ q, Adjacent (Function.update rows o m q) a b) ↔ ∃ q, Adjacent (rows q) a b := by
  refine exists_congr fun q => ?_
  by_cases hqo : q = o
  · subst hqo; simp [hm, ho]
  · simp [hqo]

end Update

/-- If the links around the nodes of one list are those of the list `m` and all else stays, then `m`
is the new list. -/
theorem replace (h : t.Chained rows) (m : List NodeId) (hsize : t.size ≤ t'.size) (hnd : m.Nodup)
    (hlt : ∀ c : Nat, c ∈ m → c < t'.size)
    (hproper : ∀ p c : Nat, o = .node p → c ∈ m → p ≠ c ∧ p < t'.size)
    (hown : ∀ c ∈ m, ∀ q, q ≠ o → c ∉ rows q)
    (hfirst : ∀ q, (t'.links q).firstChild =
      if o = .node q then m.head? else (t.links q).firstChild)
    (hlast : ∀ q, (t'.links q).lastChild =
      if o = .node q then m.getLast? else (t.links q).lastChild)
    (hin : ∀ c, c ∈ m ∨ c ∈ rows o →
      ((t'.links c).parent = if c ∈ m then o.node? else none) ∧
      (∀ b, (t'.links c).next = some b ↔ Adjacent m c b) ∧
      (∀ a, (t'.links c).prev = some a ↔ Adjacent m a c))
    (hout : ∀ c, c ∉ m → c ∉ rows o →
      (t'.links c).parent = (t.links c).parent ∧ (t'.links c).next = (t.links c).next ∧
        (t'.links c).prev = (t.links c).prev) :
    t'.Chained (Function.update rows o m) := by
  have hne : ∀ {c q}, q ≠ o → c ∈ rows q → ¬ (c ∈ m ∨ c ∈ rows o) := by
    rintro c q hqo hq (hm | ho)
    · exact hown c hm q hqo hq
    · exact hqo (h.unique _ _ c hq ho)
  have hmem : ∀ {c q}, c ∈ Function.update rows o m q → (q = o ∧ c ∈ m) ∨ (q ≠ o ∧ c ∈ rows q) := by
    intro c q hc
    by_cases hqo : q = o
    · subst hqo
      exact Or.inl ⟨rfl, by simpa using hc⟩
    · exact Or.inr ⟨hqo, by simpa [hqo] using hc⟩
  constructor
  · intro q
    rw [hfirst, Function.update_apply, h.firstChild]
    by_cases hq : o = .node q <;> simp [hq, eq_comm]
  · intro q
    rw [hlast, Function.update_apply, h.lastChild]
    by_cases hq : o = .node q <;> simp [hq, eq_comm]
  · intro q c
    by_cases hc : c ∈ m ∨ c ∈ rows o
    · rw [(hin c hc).1]
      by_cases hqo : .node q = o
      · subst hqo
        by_cases hm : c ∈ m <;> simp [hm]
      · have hq : c ∉ rows (.node q) := fun hq => hne hqo hq hc
        by_cases hm : c ∈ m <;> simp [hm, hqo, Ne.symm hqo, hq]
    · obtain ⟨hm, ho⟩ := not_or.mp hc
      rw [(hout c hm ho).1, h.parent]
      by_cases hqo : .node q = o
      · subst hqo; simp [hm, ho]
      · simp [hqo]
  · intro a b
    by_cases ha : a ∈ m ∨ a ∈ rows o
    · rw [(hin a ha).2.1, adjacent_update fun q hqo hadj => hne hqo hadj.mem_left ha]
    · obtain ⟨hm, ho⟩ := not_or.mp ha
      rw [(hout a hm ho).2.1, h.next,
        adjacent_update_of_not (not_adjacent_left hm) (not_adjacent_left ho)]
  · intro a b
    by_cases hb : b ∈ m ∨ b ∈ rows o
    · rw [(hin b hb).2.2, adjacent_update fun q hqo hadj => hne hqo hadj.mem_right hb]
    · obtain ⟨hm, ho⟩ := not_or.mp hb
      rw [(hout b hm ho).2.2, h.prev,
        adjacent_update_of_not (not_adjacent_right hm) (not_adjacent_right ho)]
  · intro q
    by_cases hqo : q = o
    · subst hqo; simpa using hnd
    · simpa [hqo] using h.nodup q
  · intro q q' c hq hq'
    rcases hmem hq with ⟨ho, hm⟩ | ⟨hqo, hc⟩ <;> rcases hmem hq' with ⟨ho', hm'⟩ | ⟨hqo', hc'⟩
    · exact ho.trans ho'.symm
    · exact absurd hc' (hown c hm q' hqo')
    · exact absurd hc (hown c hm' q hqo)
    · exact h.unique q q' c hc hc'
  · intro q c hc
    rcases hmem hc with ⟨rfl, hm⟩ | ⟨-, hq⟩
    · exact hlt c hm
    · exact (h.lt_size q c hq).trans_le hsize
  · intro p c hc
    rcases hmem hc with ⟨hp, hm⟩ | ⟨-, hp⟩
    · exact hproper p c hp.symm hm
    · obtain ⟨hne, hp⟩ := h.proper p c hp
      exact ⟨hne, hp.trans_le hsize⟩

theorem unlink (h : t.Chained rows) (hk : rows o = l ++ i :: r) :
    (t.unlink i).Chained (Function.update rows o (l ++ r)) := by
  have hlinks := links_unlink (h.apart hk)
  have hio : i ∈ rows o := by simp [hk]
  rw [h.prev_eq hk, h.next_eq hk, h.parent_eq hio] at hlinks
  have hnd := h.nodup_middle hk
  have hnd' : (l ++ r).Nodup := hnd.sublist (by simp)
  have hsub : ∀ c ∈ l ++ r, c ∈ rows o := by
    intro c hc
    rw [hk]
    exact (List.Sublist.append_left (List.sublist_cons_self i r) l).subset hc
  have hi : i ∉ l ++ r := (List.nodup_middle.mp hnd).notMem
  have hne : ∀ q, o = .node q → i ≠ q := fun q hq => (h.proper q i (hq ▸ hio)).1.symm
  have hfirst : ∀ q, o = .node q → (t.links q).firstChild = (l ++ i :: r).head? := fun q hq => by
    rw [h.firstChild, ← hq, hk]
  have hlast : ∀ q, o = .node q → (t.links q).lastChild = (l ++ i :: r).getLast? := fun q hq => by
    rw [h.lastChild, ← hq, hk]
  refine h.replace (l ++ r) (by simp) hnd' ?_ ?_ ?_ ?_ ?_ ?_ ?_
  · exact fun c hc => by simpa using h.lt_size o c (hsub c hc)
  · exact fun p c hp hc => by simpa using h.proper p c (hp ▸ hsub c hc)
  · exact fun c hc q hqo hq => hqo (h.unique _ _ c hq (hsub c hc))
  · intro q
    rw [hlinks]
    by_cases hq : o = .node q
    · cases l with
      | nil => simp [hne q hq, hq]
      | cons a l => simpa [hne q hq, hq] using hfirst q hq
    · by_cases hiq : i = q <;> simp [hiq, hq]
  · intro q
    rw [hlinks]
    by_cases hq : o = .node q
    · cases r with
      | nil => simp [hne q hq, hq]
      | cons b r => simpa [hne q hq, hq] using hlast q hq
    · by_cases hiq : i = q <;> simp [hiq, hq]
  · intro c hc
    rw [hlinks]
    by_cases hic : i = c
    · subst hic
      simp [hi, not_adjacent_left hi, not_adjacent_right hi]
    · have hc' : c ∈ l ++ r := by
        rw [hk, mem_middle_of_ne (Ne.symm hic), or_self] at hc
        exact hc
      refine ⟨?_, ?_, ?_⟩
      · simp [hic, hc', h.parent_eq (hsub c hc')]
      · intro b
        by_cases hlc : l.getLast? = some c
        · simp [hic, hlc, adjacent_append_left hnd' hlc]
        · simp [hic, hlc, h.next_iff (hsub c hc'), hk, adjacent_without_left (Ne.symm hic) hlc]
      · intro a
        by_cases hrc : r.head? = some c
        · simp [hic, hrc, adjacent_append_right hnd' hrc]
        · simp [hic, hrc, h.prev_iff (hsub c hc'), hk, adjacent_without_right (Ne.symm hic) hrc]
  · intro c hm hc
    rw [hlinks]
    rw [hk] at hc
    have hic : i ≠ c := by rintro rfl; simp at hc
    have hlc : l.getLast? ≠ some c := fun he => hm (by simp [List.mem_of_getLast? he])
    have hrc : r.head? ≠ some c := fun he => hm (by simp [List.mem_of_head? he])
    simp [hic, hlc, hrc]

/-- A loose node comes between `l` and `r` in a list. -/
theorem put (h : t.Chained rows) (hk : rows o = l ++ r) (hs : s < t.size)
    (hproper : ∀ p : Nat, o = .node p → p ≠ s ∧ p < t.size) (hloose : ∀ q, s ∉ rows q)
    (hsize : t'.size = t.size)
    (hlinks : ∀ j, t'.links j =
      if s = j then { t.links s with parent := o.node?, prev := l.getLast?, next := r.head? }
      else
        { t.links j with
          next := if l.getLast? = some j then some s else (t.links j).next
          prev := if r.head? = some j then some s else (t.links j).prev
          firstChild := if l = [] ∧ o = .node j then some s else (t.links j).firstChild
          lastChild := if r = [] ∧ o = .node j then some s else (t.links j).lastChild }) :
    t'.Chained (Function.update rows o (l ++ s :: r)) := by
  have hnd' := h.nodup o
  have hso := hloose o
  rw [hk] at hnd' hso
  have hnd : (l ++ s :: r).Nodup := List.nodup_middle.mpr (List.nodup_cons.mpr ⟨hso, hnd'⟩)
  have hold : ∀ c ∈ l ++ s :: r, c ≠ s → c ∈ rows o := fun c hc hcs =>
    hk ▸ (mem_middle_of_ne hcs).mp hc
  have hfirst : ∀ q, o = .node q → (t.links q).firstChild = (l ++ r).head? := fun q hq => by
    rw [h.firstChild, ← hq, hk]
  have hlast : ∀ q, o = .node q → (t.links q).lastChild = (l ++ r).getLast? := fun q hq => by
    rw [h.lastChild, ← hq, hk]
  refine h.replace (l ++ s :: r) hsize.ge hnd ?_ ?_ ?_ ?_ ?_ ?_ ?_
  · intro c hc
    rw [hsize]
    by_cases hcs : c = s
    · exact hcs ▸ hs
    · exact h.lt_size o c (hold c hc hcs)
  · intro p c hp hc
    rw [hsize]
    by_cases hcs : c = s
    · exact hcs ▸ hproper p hp
    · exact h.proper p c (hp ▸ hold c hc hcs)
  · intro c hc q hqo hq
    by_cases hcs : c = s
    · subst hcs
      exact hloose q hq
    · exact hqo (h.unique _ _ c hq (hold c hc hcs))
  · intro q
    rw [hlinks]
    by_cases hq : o = .node q
    · have hqs := (hproper q hq).1.symm
      cases l with
      | nil => simp [hqs, hq]
      | cons a l => simpa [hqs, hq] using hfirst q hq
    · by_cases hsq : s = q <;> simp [hsq, hq]
  · intro q
    rw [hlinks]
    by_cases hq : o = .node q
    · have hqs := (hproper q hq).1.symm
      cases r with
      | nil => simp [hqs, hq]
      | cons b r => simpa [hqs, hq] using hlast q hq
    · by_cases hsq : s = q <;> simp [hsq, hq]
  · intro c hc
    rw [hlinks]
    by_cases hsc : s = c
    · subst hsc
      simp [adjacent_middle_left hnd, adjacent_middle_right hnd]
    · have hc' : c ∈ rows o := by
        rw [mem_middle_of_ne (Ne.symm hsc), ← hk, or_self] at hc
        exact hc
      have hm : c ∈ l ++ s :: r := (mem_middle_of_ne (Ne.symm hsc)).mpr (hk ▸ hc')
      refine ⟨?_, ?_, ?_⟩
      · simp [hsc, hm, h.parent_eq hc']
      · intro b
        by_cases hlc : l.getLast? = some c
        · simp [hsc, hlc, adjacent_append_left hnd hlc]
        · simp [hsc, hlc, h.next_iff hc', hk, adjacent_without_left (Ne.symm hsc) hlc]
      · intro a
        by_cases hrc : r.head? = some c
        · rw [List.append_cons, adjacent_append_right (by simpa using hnd) hrc]
          simp [hsc, hrc]
        · simp [hsc, hrc, h.prev_iff hc', hk, adjacent_without_right (Ne.symm hsc) hrc]
  · intro c hm hc
    rw [hlinks]
    have hsc : s ≠ c := by rintro rfl; simp at hm
    have hlc : l.getLast? ≠ some c := fun he => hm (by simp [List.mem_of_getLast? he])
    have hrc : r.head? ≠ some c := fun he => hm (by simp [List.mem_of_head? he])
    simp [hsc, hlc, hrc]

theorem loose (h : t.Chained rows) (hs : ∀ q, s ∉ rows q) : t.Loose s := by
  refine ⟨?_, ?_, ?_⟩ <;> rw [Option.eq_none_iff_forall_ne_some] <;> intro x hx
  · exact hs _ ((h.parent x s).mp hx)
  · obtain ⟨q, hq⟩ := (h.prev x s).mp hx
    exact hs q hq.mem_right
  · obtain ⟨q, hq⟩ := (h.next s x).mp hx
    exact hs q hq.mem_left

theorem insertAfter (h : t.Chained rows) (hk : rows o = l ++ i :: r) (hs : s < t.size)
    (hos : o ≠ .node s) (hloose : ∀ q, s ∉ rows q) :
    (t.insertAfter i s).Chained (Function.update rows o (l ++ i :: s :: r)) := by
  have hi : i ∈ rows o := by simp [hk]
  have hne : i ≠ s := by rintro rfl; exact hloose o hi
  have hsr : s ∉ r := fun hr => hloose o (by simp [hk, hr])
  have hlinks := links_insertAfter (h.apart hk) (h.loose hloose) hs hne
    (by rw [h.parent_eq hi]; simpa using hos)
    (by rw [h.next_eq hk]; exact fun he => hsr (List.mem_of_head? he))
  rw [h.parent_eq hi, h.next_eq hk] at hlinks
  rw [List.append_cons]
  refine h.put (by simpa using hk) hs (fun p hp => ?_) hloose (by simp) fun j => ?_
  · exact ⟨by rintro rfl; exact hos hp, (h.proper p i (hp ▸ hi)).2⟩
  · rw [hlinks]
    by_cases hsj : s = j <;> simp [hsj]

theorem insertBefore (h : t.Chained rows) (hk : rows o = l ++ i :: r) (hs : s < t.size)
    (hos : o ≠ .node s) (hloose : ∀ q, s ∉ rows q) :
    (t.insertBefore i s).Chained (Function.update rows o (l ++ s :: i :: r)) := by
  have hi : i ∈ rows o := by simp [hk]
  have hne : i ≠ s := by rintro rfl; exact hloose o hi
  have hsl : s ∉ l := fun hl => hloose o (by simp [hk, hl])
  have hlinks := links_insertBefore (h.apart hk) (h.loose hloose) hs hne
    (by rw [h.parent_eq hi]; simpa using hos)
    (by rw [h.prev_eq hk]; exact fun he => hsl (List.mem_of_getLast? he))
  rw [h.parent_eq hi, h.prev_eq hk] at hlinks
  refine h.put hk hs (fun p hp => ?_) hloose (by simp) fun j => ?_
  · exact ⟨by rintro rfl; exact hos hp, (h.proper p i (hp ▸ hi)).2⟩
  · rw [hlinks]
    by_cases hsj : s = j <;> simp [hsj]

theorem appendChild (h : t.Chained rows) {p : Nat} (hp : p < t.size) (hs : s < t.size)
    (hps : p ≠ s) (hloose : ∀ q, s ∉ rows q) :
    (t.appendChild p s).Chained (Function.update rows (.node p) (rows (.node p) ++ [s])) := by
  have hlast : ∀ a, (t.links p).lastChild = some a → a ≠ s ∧ a ≠ p ∧ a < t.size := by
    intro a ha
    rw [h.lastChild] at ha
    have hmem := List.mem_of_getLast? ha
    exact ⟨by rintro rfl; exact hloose _ hmem, (h.proper p a hmem).1.symm, h.lt_size _ a hmem⟩
  have hlinks := links_appendChild hp (h.loose hloose) hs hps hlast
  rw [h.lastChild] at hlinks
  refine h.put (by simp) hs (fun q hq => ?_) hloose (by simp) fun j => ?_
  · obtain rfl := Holder.node.inj hq
    exact ⟨hps, hp⟩
  · rw [hlinks]
    obtain ⟨-, -, hnext⟩ := h.loose hloose
    by_cases hsj : s = j
    · subst hsj
      simp [hnext]
    · simp [hsj]

theorem congr_links (h : t.Chained rows) (hsize : t.size ≤ t'.size)
    (hlinks : ∀ j, t'.links j = t.links j) : t'.Chained rows := by
  refine ⟨?_, ?_, ?_, ?_, ?_, h.nodup, h.unique, fun o c hc => ?_, fun p c hc => ?_⟩
  · simpa only [hlinks] using h.firstChild
  · simpa only [hlinks] using h.lastChild
  · simpa only [hlinks] using h.parent
  · simpa only [hlinks] using h.next
  · simpa only [hlinks] using h.prev
  · exact (h.lt_size o c hc).trans_le hsize
  · obtain ⟨hne, hp⟩ := h.proper p c hc
    exact ⟨hne, hp.trans_le hsize⟩

theorem length_le_size (h : t.Chained rows) (o : Holder) : (rows o).length ≤ t.size := by
  have hsub : rows o ⊆ List.range t.size := fun c hc => List.mem_range.mpr (h.lt_size o c hc)
  simpa using ((h.nodup o).subperm hsub).length_le

/-- Following the links to the next node gives what is left of a list. -/
theorem chain_eq (h : t.Chained rows) (limit : Nat) :
    ∀ {l r : List NodeId}, rows o = l ++ r → r.length ≤ limit → t.chain limit r.head? = r := by
  induction limit with
  | zero =>
    intro l r _ hr
    rw [List.eq_nil_of_length_eq_zero (Nat.le_zero.mp hr)]
    rfl
  | succ limit ih =>
    intro l r hk hr
    cases r with
    | nil => rfl
    | cons c r =>
      have htail := ih (l := l ++ [c]) (r := r) (by simpa using hk) (by simpa using hr)
      simp only [List.head?_cons, chain, h.next_eq hk, htail]

/-- Following the links from the first child on gives the list of children. -/
theorem children_eq (h : t.Chained rows) (p : NodeId) : t.children p = rows (.node p) := by
  unfold children childrenUpTo
  rw [h.firstChild]
  exact h.chain_eq t.size (l := []) rfl (h.length_le_size _)

end Chained

end Forest

end Hyperstory
