import Mathlib.Logic.Relation
import Hyperstory.Proofs.Rows

/-! Nodes moved about: the links and the lists of siblings after any moves of new nodes. -/
namespace Hyperstory

namespace Forest

/-- The nodes up to a place of a list, from there back, at most `limit` of them. -/
def chainBack (t : Forest) : Nat → Option NodeId → List NodeId
  | 0, _ => []
  | _, none => []
  | limit + 1, some i => i :: t.chainBack limit (t.links i).prev

/-- The list of siblings that a node stands in. -/
def row (t : Forest) (i : NodeId) : List NodeId :=
  (t.chainBack t.size (t.links i).prev).reverse ++ t.chain t.size (some i)

/-- The node `a` is the parent of `i`, or stands above that parent. -/
def Above (t : Forest) : NodeId → NodeId → Prop :=
  Relation.TransGen fun p c => (t.links c).parent = some p

/-- The links agree with each other, lead to no node twice and never back to where they began. -/
structure Consistent (t : Forest) : Prop where
  next_iff_prev : ∀ a b, (t.links a).next = some b ↔ (t.links b).prev = some a
  parent_of_next : ∀ a b, (t.links a).next = some b → (t.links b).parent = (t.links a).parent
  firstChild : ∀ p, (t.links p).firstChild = (t.children p).head?
  lastChild : ∀ p, (t.links p).lastChild = (t.children p).getLast?
  mem_children : ∀ p c, c ∈ t.children p ↔ (t.links c).parent = some p
  children_eq_row : ∀ p c, (t.links c).parent = some p → t.children p = t.row c
  next_iff_adjacent :
    ∀ a b : Nat, a < t.size → ((t.links a).next = some b ↔ Adjacent (t.row a) a b)
  mem_row : ∀ i : Nat, i < t.size → i ∈ t.row i
  row_nodup : ∀ i : Nat, i < t.size → (t.row i).Nodup
  row_unique : ∀ i j : Nat, i < t.size → j ∈ t.row i → t.row j = t.row i
  next_acyclic : ∀ i, ¬ Relation.TransGen (fun a b => (t.links a).next = some b) i i
  parent_acyclic : ∀ i, ¬ t.Above i i

/-- One move of a node: to the end of the children of another one, right after it, right before
it, or out of its list. -/
inductive Edit where
  | append (i s : NodeId)
  | after (i s : NodeId)
  | before (i s : NodeId)
  | unlink (s : NodeId)

namespace Edit

def apply (t : Forest) : Edit → Forest
  | append i s => t.appendChild i s
  | after i s => t.insertAfter i s
  | before i s => t.insertBefore i s
  | unlink s => t.unlink s

@[simp]
def moved : Edit → NodeId
  | append _ s | after _ s | before _ s | unlink s => s

/-- The node that the moved one is put below or beside. -/
@[simp]
def receiver? : Edit → Option NodeId
  | append i _ | after i _ | before i _ => some i
  | unlink _ => none

/-- The nodes exist, and the moved one is neither the receiver nor stands above it. -/
def Allowed (t : Forest) (e : Edit) : Prop :=
  e.moved < t.size ∧
    ∀ i : Nat, e.receiver? = some i → i < t.size ∧ e.moved ≠ i ∧ ¬ t.Above e.moved i

/-- What a move makes of a list of siblings that stands below `p`: the moved node is taken out,
and then put where the move says. -/
def onRow (p : Option NodeId) (l : List NodeId) : Edit → List NodeId
  | append i s => l.erase s ++ if p = some i then [s] else []
  | after i s => (l.erase s).flatMap fun a => if a = i then [i, s] else [a]
  | before i s => (l.erase s).flatMap fun a => if a = i then [s, i] else [a]
  | unlink s => l.erase s

def newParent (t : Forest) : Edit → Option NodeId
  | append i _ => some i
  | after i _ | before i _ => (t.links i).parent
  | unlink _ => none

def newRow (t : Forest) (e : Edit) : List NodeId :=
  match e with
  | append i _ => e.onRow (some i) (t.children i)
  | after i _ | before i _ => e.onRow (t.links i).parent (t.row i)
  | unlink s => [s]

/-- The move does to every list what its name says, and nothing else. -/
structure Acts (e : Edit) (t t' : Forest) : Prop where
  size : t'.size = t.size
  label : ∀ j, t'.label j = t.label j
  parent : ∀ j, (t'.links j).parent = if j = e.moved then e.newParent t else (t.links j).parent
  children : ∀ p, t'.children p = e.onRow (some p) (t.children p)
  row : ∀ j : Nat, j < t.size → j ≠ e.moved → t'.row j = e.onRow (t.links j).parent (t.row j)
  row_moved : t'.row e.moved = e.newRow t
  others : ∀ p, (t'.children p).erase e.moved = (t.children p).erase e.moved

end Edit

/-- The forests that come about when new nodes are made and moved. -/
inductive Reached : Forest → Prop
  | empty : Reached {}
  | make {t : Forest} (n : Node) : Reached t → n.links = {} → Reached (t.add n).1
  | edit {t : Forest} (e : Edit) : Reached t → e.Allowed t → Reached (e.apply t)

section Above

variable {t t' : Forest} {s : NodeId}

/-- A node whose parent has not changed stands below `s` only if it did before. -/
theorem above_of_ne (hother : ∀ j, j ≠ s → (t'.links j).parent = (t.links j).parent) {x : NodeId}
    (h : t'.Above s x) (hx : x ≠ s) : t.Above s x := by
  induction h with
  | single hp => exact .single (hother _ hx ▸ hp)
  | @tail b x _ hp ih =>
    rw [hother x hx] at hp
    by_cases hb : b = s
    · exact .single (hb ▸ hp)
    · exact .tail (ih hb) hp

/-- Nodes stand below each other as before, or there is `s` between them. -/
theorem above_or_through (hother : ∀ j, j ≠ s → (t'.links j).parent = (t.links j).parent)
    {a x : NodeId} (h : t'.Above a x) : t.Above a x ∨ t'.Above a s ∧ (s = x ∨ t'.Above s x) := by
  induction h with
  | @single x hp =>
    by_cases hx : x = s
    · exact .inr ⟨.single (hx ▸ hp), .inl hx.symm⟩
    · exact .inl (.single (hother x hx ▸ hp))
  | @tail b x hab hp ih =>
    by_cases hx : x = s
    · exact .inr ⟨.tail hab (hx ▸ hp), .inl hx.symm⟩
    · rcases ih with hb | ⟨has, rfl | hsb⟩
      · exact .inl (.tail hb (hother x hx ▸ hp))
      · exact .inr ⟨has, .inr (.single hp)⟩
      · exact .inr ⟨has, .inr (.tail hsb hp)⟩

/-- A node whose new parent is neither itself nor below it brings no cycle. -/
theorem not_above_self (h : ∀ i, ¬ t.Above i i)
    (hother : ∀ j, j ≠ s → (t'.links j).parent = (t.links j).parent)
    (hnew : ∀ p, (t'.links s).parent = some p → p ≠ s ∧ ¬ t.Above s p) (i : NodeId) :
    ¬ t'.Above i i := by
  intro hi
  have hs : t'.Above s s := by
    rcases above_or_through hother hi with hi | ⟨his, rfl | hsi⟩
    · exact absurd hi (h i)
    · exact his
    · exact Relation.TransGen.trans hsi his
  obtain ⟨p, hsp, hp⟩ := Relation.TransGen.tail'_iff.mp hs
  obtain ⟨hps, hnot⟩ := hnew p hp
  rcases Relation.reflTransGen_iff_eq_or_transGen.mp hsp with rfl | hsp
  · exact hps rfl
  · exact hnot (above_of_ne hother hsp hps)

end Above

section Unlinked

variable {t : Forest} {i s : NodeId}

theorem appendChild_of_unlink (h : (t.unlink s).unlink s = t.unlink s) :
    (t.unlink s).appendChild i s = t.appendChild i s := by
  simp only [appendChild, h]

theorem insertAfter_of_unlink (h : (t.unlink s).unlink s = t.unlink s) :
    (t.unlink s).insertAfter i s = t.insertAfter i s := by
  simp only [insertAfter, h]

theorem insertBefore_of_unlink (h : (t.unlink s).unlink s = t.unlink s) :
    (t.unlink s).insertBefore i s = t.insertBefore i s := by
  simp only [insertBefore, h]

end Unlinked

section Lists

variable {l r : List NodeId} {i : NodeId}

theorem flatMap_of_notMem (h : i ∉ l) (m : List NodeId) :
    (l.flatMap fun a => if a = i then m else [a]) = l := by
  induction l with
  | nil => rfl
  | cons a l ih =>
    obtain ⟨hia, hil⟩ := not_or.mp (List.mem_cons.not.mp h)
    rw [List.flatMap_cons, ih hil, if_neg (Ne.symm hia), List.singleton_append]

theorem flatMap_middle (hnd : (l ++ i :: r).Nodup) (m : List NodeId) :
    ((l ++ i :: r).flatMap fun a => if a = i then m else [a]) = l ++ m ++ r := by
  rw [List.nodup_middle, List.nodup_cons, List.mem_append, not_or] at hnd
  obtain ⟨⟨hil, hir⟩, -⟩ := hnd
  rw [List.flatMap_append, List.flatMap_cons, if_pos rfl, flatMap_of_notMem hil,
    flatMap_of_notMem hir, List.append_assoc]

end Lists

namespace Edit

variable {e : Edit} {t : Forest} {p : Option NodeId} {l : List NodeId} {j : NodeId}

@[simp]
theorem size_apply (t : Forest) (e : Edit) : (e.apply t).size = t.size := by
  cases e <;> simp [apply]

@[simp]
theorem label_apply (t : Forest) (e : Edit) (j : NodeId) : (e.apply t).label j = t.label j := by
  cases e <;> simp [apply]

theorem onRow_nil (e : Edit) : e.onRow none [] = [] := by
  cases e <;> simp [onRow]

theorem erase_pair {i s : NodeId} (ha : (after i s).Allowed t) : [i, s].erase s = [i] := by
  have hne : s ≠ i := (ha.2 i rfl).2.1
  simp [hne.symm]

theorem mem_flatMap_of_ne {i s : NodeId} {m : List NodeId} (hj : j ≠ s) (hm : m.erase s = [i]) :
    j ∈ (l.flatMap fun a => if a = i then m else [a]) ↔ j ∈ l := by
  have hmem : ∀ a, j ∈ (if a = i then m else [a]) ↔ j = a := fun a => by
    by_cases ha : a = i
    · rw [if_pos ha, ← List.mem_erase_of_ne hj, hm, List.mem_singleton, ha]
    · rw [if_neg ha, List.mem_singleton]
  simp [List.mem_flatMap, hmem]

theorem mem_onRow (ha : e.Allowed t) (hj : j ≠ e.moved) : j ∈ e.onRow p l ↔ j ∈ l := by
  rw [← List.mem_erase_of_ne (l := l) hj]
  cases e with
  | append i s => by_cases hp : p = some i <;> simp_all [onRow]
  | after i s => exact mem_flatMap_of_ne hj (erase_pair ha)
  | before i s => exact mem_flatMap_of_ne hj (List.erase_cons_head s [i])
  | unlink s => rfl

/-- Putting a node beside another one changes nothing for the rest. -/
theorem erase_flatMap {i s : NodeId} {m : List NodeId} (hnd : l.Nodup) (hs : s ∉ l)
    (hsm : s ∈ m) (hm : m.erase s = [i]) :
    (l.flatMap fun a => if a = i then m else [a]).erase s = l := by
  by_cases hi : i ∈ l
  · obtain ⟨l, r, rfl⟩ := List.append_of_mem hi
    have hsl : s ∉ l := fun hsl => hs (List.mem_append_left _ hsl)
    rw [flatMap_middle hnd, List.append_assoc, List.erase_append_right _ hsl,
      List.erase_append_left _ hsm, hm, List.singleton_append]
  · rw [flatMap_of_notMem hi, List.erase_of_not_mem hs]

/-- A move keeps the order of the nodes that it does not move. -/
theorem erase_onRow (ha : e.Allowed t) (hnd : l.Nodup) :
    (e.onRow p l).erase e.moved = l.erase e.moved := by
  have hs : e.moved ∉ l.erase e.moved := hnd.not_mem_erase
  cases e with
  | append i s =>
    rw [moved] at hs ⊢
    rw [onRow, List.erase_append_right _ hs]
    by_cases hp : p = some i <;> simp [hp]
  | after i s => exact erase_flatMap (hnd.erase s) hs (by simp) (erase_pair ha)
  | before i s => exact erase_flatMap (hnd.erase s) hs (by simp) (List.erase_cons_head s [i])
  | unlink s => exact List.erase_of_not_mem hs

theorem Allowed.newParent (h : e.Allowed t) {q : NodeId} (hq : e.newParent t = some q) :
    q ≠ e.moved ∧ ¬ t.Above e.moved q := by
  have hbeside : ∀ i : Nat, e.receiver? = some i → (t.links i).parent = some q →
      q ≠ e.moved ∧ ¬ t.Above e.moved q := by
    intro i hi hp
    obtain ⟨-, -, habove⟩ := h.2 i hi
    exact ⟨by rintro rfl; exact habove (.single hp), fun hq => habove (.tail hq hp)⟩
  cases e with
  | append i s =>
    obtain rfl : i = q := by simpa [Edit.newParent] using hq
    obtain ⟨-, hne, habove⟩ := h.2 i rfl
    exact ⟨hne.symm, habove⟩
  | after i s => exact hbeside i rfl hq
  | before i s => exact hbeside i rfl hq
  | unlink s => cases hq

end Edit

namespace Chained

variable {t : Forest} {rows : Holder → List NodeId} {o : Holder} {i s : Nat}

theorem chainBack_eq (h : t.Chained rows) (limit : Nat) :
    ∀ {l r : List NodeId}, rows o = l ++ r → l.length ≤ limit →
      t.chainBack limit l.getLast? = l.reverse := by
  induction limit with
  | zero =>
    intro l r _ hl
    rw [List.eq_nil_of_length_eq_zero (Nat.le_zero.mp hl)]
    rfl
  | succ limit ih =>
    intro l r hk hl
    rcases List.eq_nil_or_concat l with rfl | ⟨l, c, rfl⟩
    · rfl
    · have hk : rows o = l ++ c :: r := by simpa using hk
      have hrest := ih hk (by simpa using hl)
      simp [chainBack, h.prev_eq hk, hrest]

/-- Following the links both ways gives the list that a node stands in. -/
theorem row_eq (h : t.Chained rows) (ho : i ∈ rows o) : t.row i = rows o := by
  obtain ⟨l, r, hk⟩ := List.append_of_mem ho
  have hlen : l.length + (r.length + 1) ≤ t.size := by
    simpa [hk] using h.length_le_size o
  have hback := h.chainBack_eq t.size hk (by omega)
  have hon := h.chain_eq t.size hk (by simp; omega)
  rw [row, h.prev_eq hk, hback, List.reverse_reverse, hk]
  exact congrArg (l ++ ·) hon

theorem next_mem_right (h : t.Chained rows) {l r : List NodeId} {b : NodeId}
    (hk : rows o = l ++ i :: r)
    (hb : Relation.TransGen (fun a b => (t.links a).next = some b) i b) : b ∈ r := by
  induction hb with
  | single hb => exact List.mem_of_head? (h.next_eq hk ▸ hb)
  | @tail b c _ hc ih =>
    obtain ⟨r₁, r₂, rfl⟩ := List.append_of_mem ih
    have hk : rows o = (l ++ i :: r₁) ++ b :: r₂ := by simpa using hk
    rw [h.next_eq hk] at hc
    simp [List.mem_of_head? hc]

theorem next_acyclic (h : t.Chained rows) (i : NodeId) :
    ¬ Relation.TransGen (fun a b => (t.links a).next = some b) i i := by
  intro hi
  obtain ⟨b, hb, -⟩ := Relation.TransGen.head'_iff.mp hi
  obtain ⟨o, ho⟩ := (h.next i b).mp hb
  obtain ⟨l, r, hk⟩ := List.append_of_mem ho.mem_left
  have hnd := h.nodup_middle hk
  have hir := h.next_mem_right hk hi
  simp [List.nodup_append, hir] at hnd

/-- Taking a node out of its list takes it out of every list. -/
theorem erase (h : t.Chained rows) (s : NodeId) :
    (t.unlink s).Chained fun o => (rows o).erase s := by
  by_cases hs : ∃ o, s ∈ rows o
  · obtain ⟨o, ho⟩ := hs
    obtain ⟨l, r, hk⟩ := List.append_of_mem ho
    have hsl : s ∉ l := by
      have hnd := h.nodup_middle hk
      simp only [List.nodup_middle, List.nodup_cons, List.mem_append, not_or] at hnd
      exact hnd.1.1
    convert h.unlink hk using 1
    funext q
    by_cases hq : q = o
    · subst hq
      simp [hk, List.erase_append_right _ hsl]
    · rw [Function.update_of_ne hq]
      exact List.erase_of_not_mem fun hsq => hq (h.unique q o s hsq ho)
  · rw [not_exists] at hs
    rw [unlink_of_loose (h.loose hs)]
    convert h using 2 with o
    exact List.erase_of_not_mem (hs o)

theorem notMem_erase (h : t.Chained rows) (o : Holder) : s ∉ (rows o).erase s :=
  (h.nodup o).not_mem_erase

theorem unlink_unlink (h : t.Chained rows) (s : NodeId) : (t.unlink s).unlink s = t.unlink s :=
  unlink_of_loose ((h.erase s).loose h.notMem_erase)

/-- A node that stands in no list may be taken as a list of its own. -/
theorem adopt (h : t.Chained rows) {k : Nat} (hs : s < t.size) (hloose : ∀ o, s ∉ rows o)
    (hk : rows (.free k) = []) : t.Chained (Function.update rows (.free k) [s]) := by
  obtain ⟨hparent, hprev, hnext⟩ := h.loose hloose
  refine h.replace [s] le_rfl (by simp) (by simpa using hs) (by simp) ?_ (by simp) (by simp) ?_
    (fun _ _ _ => ⟨rfl, rfl, rfl⟩)
  · intro c hc q _
    rw [List.mem_singleton.mp hc]
    exact hloose q
  · intro c hc
    obtain rfl : c = s := by simpa [hk] using hc
    simp [hparent, hprev, hnext, adjacent_cons, not_adjacent_nil]

/-- What stands in place of a node in its list stands there in all lists. -/
theorem flatMap {t' : Forest} (h : t.Chained rows) {l m r : List NodeId} (hk : rows o = l ++ i :: r)
    (ht : t'.Chained (Function.update rows o (l ++ m ++ r))) :
    t'.Chained fun o => (rows o).flatMap fun a => if a = i then m else [a] := by
  convert ht using 1
  funext q
  by_cases hq : q = o
  · subst hq
    rw [Function.update_self, hk, flatMap_middle (h.nodup_middle hk)]
  · rw [Function.update_of_ne hq]
    refine flatMap_of_notMem (fun hiq => hq (h.unique q o i hiq ?_)) m
    simp [hk]

/-- The place of the receiver once the moved node is out. -/
theorem exists_beside (h : t.Chained rows) {e : Edit} (ha : e.Allowed t)
    (hcover : ∀ i : Nat, i < t.size → ∃ o, i ∈ rows o) (hi : e.receiver? = some i) :
    ∃ o l r, (rows o).erase e.moved = l ++ i :: r ∧ o ≠ .node e.moved := by
  obtain ⟨hit, hne, habove⟩ := ha.2 i hi
  obtain ⟨o, ho⟩ := hcover i hit
  obtain ⟨l, r, hk⟩ := List.append_of_mem ((List.mem_erase_of_ne hne.symm).mpr ho)
  refine ⟨o, l, r, hk, ?_⟩
  rintro rfl
  exact habove (.single ((h.parent _ i).mpr ho))

/-- What a move does to all lists. -/
theorem edit (h : t.Chained rows) {e : Edit} (ha : e.Allowed t)
    (hcover : ∀ i : Nat, i < t.size → ∃ o, i ∈ rows o) :
    (e.apply t).Chained fun o => e.onRow o.node? (rows o) := by
  have hrest := h.erase e.moved
  have hs : e.moved < (t.unlink e.moved).size := by simpa using ha.1
  have hloose := h.notMem_erase (s := e.moved)
  have htwice := h.unlink_unlink e.moved
  cases e with
  | append i s =>
    obtain ⟨hit, hne, -⟩ := ha.2 i rfl
    have ht := hrest.appendChild (by simpa using hit) hs hne.symm hloose
    rw [appendChild_of_unlink htwice] at ht
    have hrows : (fun o : Holder => (Edit.append i s).onRow o.node? (rows o)) =
        Function.update (fun o => (rows o).erase s) (.node i)
          ((rows (.node i)).erase s ++ [s]) := by
      funext q
      by_cases hq : q = .node i <;> simp [Edit.onRow, hq]
    rw [hrows]
    exact ht
  | after i s =>
    obtain ⟨o, l, r, hk, hos⟩ := h.exists_beside ha hcover (i := i) rfl
    have ht := hrest.insertAfter hk hs hos hloose
    rw [insertAfter_of_unlink htwice] at ht
    exact hrest.flatMap hk (m := [i, s]) (by simpa [Edit.apply] using ht)
  | before i s =>
    obtain ⟨o, l, r, hk, hos⟩ := h.exists_beside ha hcover (i := i) rfl
    have ht := hrest.insertBefore hk hs hos hloose
    rw [insertBefore_of_unlink htwice] at ht
    exact hrest.flatMap hk (m := [s, i]) (by simpa [Edit.apply] using ht)
  | unlink s => exact hrest

end Chained

/-- The lists of siblings hold every node, and there is always room for one more. -/
structure Arranged (t : Forest) (rows : Holder → List NodeId) : Prop extends t.Chained rows where
  cover : ∀ i : Nat, i < t.size → ∃ o, i ∈ rows o
  spare : ∃ k, ∀ j, k ≤ j → rows (.free j) = []

/-- A move does to the lists what its name says, and the moved node stands where it should. -/
structure Edit.Carries (e : Edit) (t : Forest) (rows rows' : Holder → List NodeId) : Prop where
  onRow : ∀ o, o.node? ≠ none ∨ rows o ≠ [] → rows' o = e.onRow o.node? (rows o)
  moved : ∃ o, e.moved ∈ rows' o ∧ rows' o = e.newRow t ∧ o.node? = e.newParent t

namespace Edit

variable {e : Edit} {t : Forest} {rows rows' : Holder → List NodeId}

theorem Carries.mem (h : e.Carries t rows rows') (ha : e.Allowed t) {o : Holder} {j : NodeId}
    (ho : j ∈ rows o) (hj : j ≠ e.moved) : j ∈ rows' o := by
  rw [h.onRow o (.inr (List.ne_nil_of_mem ho))]
  exact (mem_onRow ha hj).mpr ho

end Edit

namespace Arranged

variable {t : Forest} {rows : Holder → List NodeId} {e : Edit}

/-- The moved node stands in the list that the receiver stands in, or is the parent of. -/
theorem exists_moved (h : t.Arranged rows) (ha : e.Allowed t) {i : Nat}
    (hi : e.receiver? = some i) :
    ∃ o, e.moved ∈ e.onRow o.node? (rows o) ∧ e.onRow o.node? (rows o) = e.newRow t ∧
      o.node? = e.newParent t := by
  obtain ⟨hit, hne, -⟩ := ha.2 i hi
  obtain ⟨o, ho⟩ := h.cover i hit
  have hmem : i ∈ (rows o).erase e.moved := (List.mem_erase_of_ne hne.symm).mpr ho
  cases e with
  | append i' s =>
    obtain rfl : i' = i := by simpa using hi
    refine ⟨.node i', ?_, ?_, rfl⟩
    · simp [Edit.onRow]
    · rw [Edit.newRow, h.children_eq, Holder.node?_node]
  | after i' s =>
    obtain rfl : i' = i := by simpa using hi
    refine ⟨o, ?_, ?_, (h.parent_eq ho).symm⟩
    · exact List.mem_flatMap.mpr ⟨i', hmem, by simp⟩
    · simp only [Edit.newRow, h.parent_eq ho, h.row_eq ho]
  | before i' s =>
    obtain rfl : i' = i := by simpa using hi
    refine ⟨o, ?_, ?_, (h.parent_eq ho).symm⟩
    · exact List.mem_flatMap.mpr ⟨i', hmem, by simp⟩
    · simp only [Edit.newRow, h.parent_eq ho, h.row_eq ho]
  | unlink s => simp at hi

/-- A node that is put somewhere comes into the list there; a node that is taken out becomes a
list of its own. -/
theorem carries (h : t.Arranged rows) (ha : e.Allowed t) :
    ∃ rows', (e.apply t).Chained rows' ∧ (∃ k, ∀ j, k ≤ j → rows' (.free j) = []) ∧
      e.Carries t rows rows' := by
  have ht := h.edit ha h.cover
  obtain ⟨k, hk⟩ := h.spare
  cases hr : e.receiver? with
  | some i =>
    refine ⟨_, ht, ⟨k, fun j hj => ?_⟩, fun _ _ => rfl, h.exists_moved ha hr⟩
    simp [hk j hj, Edit.onRow_nil]
  | none =>
    obtain ⟨s, rfl⟩ : ∃ s, e = .unlink s := by cases e <;> simp_all
    have hspare : (rows (.free k)).erase s = [] := by simp [hk k le_rfl]
    refine ⟨_, ht.adopt (by simpa [Edit.apply] using ha.1) h.notMem_erase hspare,
      ⟨k + 1, fun j hj => ?_⟩, fun o ho => ?_, .free k, ?_⟩
    · have hjk : j ≠ k := by omega
      simp [hjk, hk j (by omega), Edit.onRow]
    · refine Function.update_of_ne ?_ _ _
      rintro rfl
      simp [hk k le_rfl] at ho
    · simp [Edit.newRow, Edit.newParent]

theorem edit (h : t.Arranged rows) (ha : e.Allowed t) :
    ∃ rows', (e.apply t).Arranged rows' ∧ e.Carries t rows rows' := by
  obtain ⟨rows', ht, hspare, hc⟩ := h.carries ha
  refine ⟨rows', ⟨ht, fun j hj => ?_, hspare⟩, hc⟩
  by_cases hjs : j = e.moved
  · obtain ⟨o, ho, -⟩ := hc.moved
    exact ⟨o, hjs ▸ ho⟩
  · obtain ⟨o, ho⟩ := h.cover j (by simpa using hj)
    exact ⟨o, hc.mem ha ho hjs⟩

theorem add (h : t.Arranged rows) {n : Node} (hn : n.links = {}) :
    ∃ rows', (t.add n).1.Arranged rows' := by
  obtain ⟨k, hk⟩ := h.spare
  have hsize : t.size < (t.add n).1.size := by simp
  have ht := h.congr_links hsize.le fun j => links_add t hn j
  refine ⟨_, ht.adopt hsize (fun o ho => (h.lt_size o _ ho).ne rfl) (hk k le_rfl),
    fun j hj => ?_, k + 1, fun j hj => ?_⟩
  · by_cases hjt : j = t.size
    · exact ⟨.free k, by simp [hjt]⟩
    · obtain ⟨o, ho⟩ := h.cover j (by rw [size_add] at hj; omega)
      refine ⟨o, ?_⟩
      rwa [Function.update_of_ne]
      rintro rfl
      simp [hk k le_rfl] at ho
  · have hjk : j ≠ k := by omega
    simp [hjk, hk j (by omega)]

theorem consistent (h : t.Arranged rows) (hloop : ∀ i, ¬ t.Above i i) : t.Consistent where
  next_iff_prev a b := (h.next a b).trans (h.prev a b).symm
  parent_of_next a b hab := by
    obtain ⟨o, ho⟩ := (h.next a b).mp hab
    rw [h.parent_eq ho.mem_left, h.parent_eq ho.mem_right]
  firstChild p := by rw [h.children_eq, h.firstChild]
  lastChild p := by rw [h.children_eq, h.lastChild]
  mem_children p c := by rw [h.children_eq, h.parent]
  children_eq_row p c hp := by rw [h.children_eq, h.row_eq ((h.parent p c).mp hp)]
  next_iff_adjacent a b ha := by
    obtain ⟨o, ho⟩ := h.cover a ha
    rw [h.next_iff ho, h.row_eq ho]
  mem_row i hi := by
    obtain ⟨o, ho⟩ := h.cover i hi
    rwa [h.row_eq ho]
  row_nodup i hi := by
    obtain ⟨o, ho⟩ := h.cover i hi
    rw [h.row_eq ho]
    exact h.nodup o
  row_unique i j hi hj := by
    obtain ⟨o, ho⟩ := h.cover i hi
    rw [h.row_eq ho] at hj ⊢
    exact h.row_eq hj
  next_acyclic := h.next_acyclic
  parent_acyclic := hloop

section Edited

variable {rows' : Holder → List NodeId}

theorem parent_edit (h : t.Arranged rows) (ha : e.Allowed t) (h' : (e.apply t).Arranged rows')
    (hc : e.Carries t rows rows') (j : NodeId) :
    ((e.apply t).links j).parent = if j = e.moved then e.newParent t else (t.links j).parent := by
  by_cases hjs : j = e.moved
  · obtain ⟨o, ho, -, hp⟩ := hc.moved
    rw [if_pos hjs, hjs, h'.parent_eq ho, hp]
  · rw [if_neg hjs]
    by_cases hj : j < t.size
    · obtain ⟨o, ho⟩ := h.cover j hj
      rw [h'.parent_eq (hc.mem ha ho hjs), h.parent_eq ho]
    · have hj : t.size ≤ j := Nat.not_lt.mp hj
      rw [links_of_size_le t hj, links_of_size_le (e.apply t) (by simpa using hj)]

theorem acts (h : t.Arranged rows) (ha : e.Allowed t) (h' : (e.apply t).Arranged rows')
    (hc : e.Carries t rows rows') : e.Acts t (e.apply t) := by
  have hchildren : ∀ p, (e.apply t).children p = e.onRow (some p) (t.children p) := fun p => by
    rw [h'.children_eq, h.children_eq, hc.onRow (.node p) (by simp), Holder.node?_node]
  refine ⟨by simp, by simp, h.parent_edit ha h' hc, hchildren, fun j hj hjs => ?_, ?_, fun p => ?_⟩
  · obtain ⟨o, ho⟩ := h.cover j hj
    rw [h'.row_eq (hc.mem ha ho hjs), hc.onRow o (.inr (List.ne_nil_of_mem ho)), h.row_eq ho,
      h.parent_eq ho]
  · obtain ⟨o, ho, hrow, -⟩ := hc.moved
    rw [h'.row_eq ho, hrow]
  · rw [hchildren, h.children_eq]
    exact Edit.erase_onRow ha (h.nodup _)

/-- No move of a node that is allowed brings a cycle. -/
theorem not_above_edit (h : t.Arranged rows) (hloop : ∀ i, ¬ t.Above i i) (ha : e.Allowed t)
    (h' : (e.apply t).Arranged rows') (hc : e.Carries t rows rows') (i : NodeId) :
    ¬ (e.apply t).Above i i := by
  have hparent := h.parent_edit ha h' hc
  refine not_above_self hloop (fun j hj => by rw [hparent, if_neg hj]) (fun p hp => ?_) i
  rw [hparent, if_pos rfl] at hp
  exact ha.newParent hp

end Edited

end Arranged

theorem chained_empty : ({} : Forest).Chained fun _ => [] := by
  have hlinks : ∀ i, ({} : Forest).links i = {} := fun i => links_of_size_le _ (Nat.zero_le i)
  constructor <;> simp [hlinks, not_adjacent_nil]

/-- What holds of every forest of nodes that were made and moved. -/
theorem Reached.arranged {t : Forest} (h : Reached t) :
    (∃ rows, t.Arranged rows) ∧ ∀ i, ¬ t.Above i i := by
  induction h with
  | empty =>
    refine ⟨⟨_, chained_empty, fun i hi => absurd hi (Nat.not_lt_zero i), 0, fun _ _ => rfl⟩, ?_⟩
    intro i hi
    obtain ⟨p, -, hp⟩ := Relation.TransGen.tail'_iff.mp hi
    rw [links_of_size_le _ (Nat.zero_le i)] at hp
    cases hp
  | make n _ hn ih =>
    obtain ⟨⟨rows, h⟩, hloop⟩ := ih
    refine ⟨h.add hn, fun i => ?_⟩
    simpa only [Above, links_add _ hn] using hloop i
  | edit e _ ha ih =>
    obtain ⟨⟨rows, h⟩, hloop⟩ := ih
    obtain ⟨rows', h', hc⟩ := h.edit ha
    exact ⟨⟨rows', h'⟩, h.not_above_edit hloop ha h' hc⟩

/-- However new nodes are moved, the links stay consistent, and the next move does to the lists of
siblings what its name says. -/
theorem Reached.consistent_and_acts {t : Forest} (h : Reached t) :
    t.Consistent ∧
      ∀ e : Edit, e.Allowed t → (e.apply t).Consistent ∧ e.Acts t (e.apply t) := by
  obtain ⟨⟨rows, h⟩, hloop⟩ := h.arranged
  refine ⟨h.consistent hloop, fun e ha => ?_⟩
  obtain ⟨rows', h', hc⟩ := h.edit ha
  exact ⟨h'.consistent (h.not_above_edit hloop ha h' hc), h.acts ha h' hc⟩

/-- Three nodes: the first two one after the other below none, and the third alone. -/
def pairAndOne : Forest :=
  (Edit.after 0 1).apply ((((({} : Forest).add { kind := "a" }).1.add { kind := "b" }).1.add
    { kind := "c" }).1)

theorem not_above_of_parent {t : Forest} {a i : NodeId} (hi : (t.links i).parent = none) :
    ¬ t.Above a i := by
  intro h
  obtain ⟨p, -, hp⟩ := Relation.TransGen.tail'_iff.mp h
  rw [hi] at hp
  cases hp

theorem Reached.consistent_and_acts_pair :
    Reached pairAndOne ∧ (Edit.append 2 0).Allowed pairAndOne ∧ pairAndOne.Consistent ∧
      (Edit.append 2 0).Acts pairAndOne ((Edit.append 2 0).apply pairAndOne) ∧
      pairAndOne.row 0 = [0, 1] ∧ ((Edit.append 2 0).apply pairAndOne).row 1 = [1] := by
  have hreached : Reached pairAndOne := by
    refine .edit _ (.make _ (.make _ (.make _ .empty rfl) rfl) rfl) ⟨by decide, ?_⟩
    rintro i ⟨⟩
    exact ⟨by decide, by decide, not_above_of_parent (by decide)⟩
  have hallowed : (Edit.append 2 0).Allowed pairAndOne := by
    refine ⟨by decide, ?_⟩
    rintro i ⟨⟩
    exact ⟨by decide, by decide, not_above_of_parent (by decide)⟩
  obtain ⟨hconsistent, hstep⟩ := Reached.consistent_and_acts hreached
  exact ⟨hreached, hallowed, hconsistent, (hstep _ hallowed).2, by decide, by decide⟩

end Forest

end Hyperstory
