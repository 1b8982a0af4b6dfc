import Hyperstory.Proofs.Traversal

/-!
A walk over a tree in which nodes are put in and taken out meanwhile. What was still to be visited
stays to be visited, and a walk that is sent to a new leaf goes on behind that leaf.
-/
namespace Hyperstory

open Hyperstory.Tree

namespace Cursor

variable {t : Forest} {c c' : Cursor} {v : Visit}

def pending (c : Cursor) : Option Visit := c.current.map fun i => ⟨i, c.entering⟩

theorem pending_of_next? (h : c.next? t = some (v, c')) : c.pending = some v := by
  obtain ⟨i, hi, heq⟩ := Option.map_eq_some_iff.mp h
  rw [pending, hi]
  exact congrArg some (Prod.mk.inj heq).1

theorem root_after (t : Forest) (root : NodeId) (v : Visit) : (after t root v).root = root :=
  congrArg Cursor.root (after_resumeAt t root v v.node v.entering)

theorem root_of_next? (h : c.next? t = some (v, c')) : c'.root = c.root := by
  obtain ⟨i, -, heq⟩ := Option.map_eq_some_iff.mp h
  rw [← (Prod.mk.inj heq).2]
  exact root_after ..

/-- Where a walk goes next is all there is to a position. -/
theorem ext_pending (hroot : c.root = c'.root) (h : c.pending = c'.pending)
    (hsome : c'.pending.isSome = true) : c = c' := by
  obtain ⟨root, current, entering⟩ := c
  obtain ⟨root', current', entering'⟩ := c'
  cases current <;> cases current' <;> simp_all [pending]

end Cursor

namespace Forest

/-- New nodes were put beside the node `i`, each of them right before or right after `i` or one
that was put there already. The list is what stands in the place of `i` then. -/
inductive Beside (t : Forest) (i : NodeId) : List NodeId → Forest → Prop where
  | alone : Beside t i [i] t
  | before {t' : Forest} {a b : List NodeId} {k : NodeId} {n : Node}
      (h : Beside t i (a ++ k :: b) t') (hn : n.links = {}) :
      Beside t i (a ++ t'.size :: k :: b) ((t'.add n).1.insertBefore k t'.size)
  | after {t' : Forest} {a b : List NodeId} {k : NodeId} {n : Node}
      (h : Beside t i (a ++ k :: b) t') (hn : n.links = {}) :
      Beside t i (a ++ k :: t'.size :: b) ((t'.add n).1.insertAfter k t'.size)

/-- New nodes were put beside the node `i`, and then it was left there or taken out. -/
inductive Spliced (t : Forest) (i : NodeId) : List NodeId → Forest → Prop where
  | kept {t' : Forest} {m : List NodeId} (h : Beside t i m t') : Spliced t i m t'
  | dropped {t' : Forest} {a b : List NodeId} (h : Beside t i (a ++ i :: b) t') :
      Spliced t i (a ++ b) (t'.unlink i)

/-- The visit is the last one to its node, and the walk does not end with it. -/
def Passes (t : Forest) (root : NodeId) (v : Visit) : Prop :=
  v.node ≠ root ∧ (v.entering = true → (t.label v.node).container = false)

instance (t : Forest) (root : NodeId) (v : Visit) : Decidable (t.Passes root v) :=
  inferInstanceAs (Decidable (_ ∧ _))

/-- A walk during which nodes are spliced: on the last visit to a node anything may be put beside
it, and it may be taken out. -/
inductive SplicedWalk : Forest → Cursor → List Visit → Forest → Cursor → Prop where
  | refl (t : Forest) (c : Cursor) : SplicedWalk t c [] t c
  | idle {t t' : Forest} {c c₁ c' : Cursor} {v : Visit} {vs : List Visit}
      (hnext : c.next? t = some (v, c₁)) (rest : SplicedWalk t c₁ vs t' c') :
      SplicedWalk t c (v :: vs) t' c'
  | splice {t t₁ t' : Forest} {c c₁ c' : Cursor} {v : Visit} {vs : List Visit} {m : List NodeId}
      (hnext : c.next? t = some (v, c₁)) (hlast : t.Passes c.root v)
      (hsplice : Spliced t v.node m t₁) (rest : SplicedWalk t₁ c₁ vs t' c') :
      SplicedWalk t c (v :: vs) t' c'

/-- On the last visit to a node something is put beside it, perhaps the node is taken out, and the
walk is sent to a new leaf `j`. In the place of the node stand `a`, the leaf and `b` then. -/
inductive Resumed (t : Forest) (c : Cursor) (a : List NodeId) (j : NodeId) (b : List NodeId) :
    Forest → Cursor → Prop where
  | mk {t' : Forest} {c₁ : Cursor} {v : Visit} (hnext : c.next? t = some (v, c₁))
      (hlast : t.Passes c.root v) (hsplice : Spliced t v.node (a ++ j :: b) t') (hne : j ≠ v.node)
      (hleaf : (t'.label j).container = false) :
      Resumed t c a j b t' (c₁.resumeAt j true)

/-- A walk comes from one moment to another, however it is spliced and sent on. -/
inductive Arrives (t : Forest) (c : Cursor) : Forest → Cursor → Prop where
  | start : Arrives t c t c
  | spliced {t₁ t' : Forest} {c₁ c' : Cursor} {vs : List Visit} (h : Arrives t c t₁ c₁)
      (hwalk : SplicedWalk t₁ c₁ vs t' c') : Arrives t c t' c'
  | resumed {t₁ t' : Forest} {c₁ c' : Cursor} {a b : List NodeId} {j : NodeId}
      (h : Arrives t c t₁ c₁) (hresume : Resumed t₁ c₁ a j b t' c') : Arrives t c t' c'

/-- What one place of a list becomes when `m` is put in the place of `i`. -/
def putFor (i : NodeId) (m : List NodeId) (a : NodeId) : List NodeId := if a = i then m else [a]

/-- In the lists of children `m` stands in the place of `i`, and the old nodes are the same
otherwise. -/
structure Replanted (t : Forest) (i : NodeId) (m : List NodeId) (t' : Forest) : Prop where
  wellLinked : t'.WellLinked
  size : t.size ≤ t'.size
  label : ∀ j : Nat, j < t.size → t'.label j = t.label j
  children : ∀ q, t'.children q = (t.children q).flatMap (putFor i m)

section Insert

variable {t t' : Forest} {p k : NodeId} {l r : List NodeId} {rows : Holder → List NodeId} {n : Node}

theorem Chained.not_above_size (h : t.Chained rows) (i : NodeId) : ¬ t.Above t.size i := by
  intro habove
  obtain ⟨c, hc, -⟩ := Relation.TransGen.head'_iff.mp habove
  exact (h.proper _ c ((h.parent _ c).mp hc)).2.ne rfl

theorem WellLinked.put (h : t.WellLinked) (hrows : t.Chained rows) (hp : p < t.size)
    (hk : rows (.node p) = l ++ r)
    (ht : t'.Chained (Function.update rows (.node p) (l ++ t.size :: r))) :
    t'.WellLinked ∧ ∀ q, t'.children q = if q = p then l ++ t.size :: r else t.children q := by
  have hchildren : ∀ q, t'.children q = if q = p then l ++ t.size :: r else t.children q := by
    intro q
    rw [ht.children_eq, hrows.children_eq, Function.update_apply]
    simp only [Holder.node.injEq]
  have hmem : ∀ j q, (t'.links j).parent = some q ↔
      j ∈ if q = p then l ++ t.size :: r else t.children q := fun j q => by
    rw [← hchildren, ht.children_eq, ht.parent]
  refine ⟨⟨⟨_, ht⟩, not_above_self (s := t.size) h.acyclic (fun j hj => ?_) fun q hq => ?_⟩,
    hchildren⟩
  · ext q
    rw [hmem, ← h.mem_children]
    split_ifs with hqp
    · rw [hqp, hrows.children_eq, hk, mem_middle_of_ne hj]
    · rfl
  · rw [hmem] at hq
    split_ifs at hq with hqp
    · exact ⟨hqp ▸ Nat.ne_of_lt hp, hrows.not_above_size q⟩
    · exact absurd (h.lt_size hq) (Nat.lt_irrefl _)

theorem WellLinked.insertBefore (h : t.WellLinked) (hk : t.children p = l ++ k :: r)
    (hn : n.links = {}) :
    ((t.add n).1.insertBefore k t.size).WellLinked ∧
      ∀ q, ((t.add n).1.insertBefore k t.size).children q =
        if q = p then l ++ t.size :: k :: r else t.children q := by
  obtain ⟨rows, hrows⟩ := h.chained
  have hk : rows (.node p) = l ++ k :: r := hrows.children_eq p ▸ hk
  have hp := (hrows.proper p k (by simp [hk])).2
  have hadd : (t.add n).1.Chained rows := hrows.congr_links (by simp) (links_add t hn)
  refine h.put hrows hp hk (hadd.insertBefore hk (by simp) ?_ fun o ho => ?_)
  · simpa using Nat.ne_of_lt hp
  · exact (hrows.lt_size o _ ho).ne rfl

theorem WellLinked.insertAfter (h : t.WellLinked) (hk : t.children p = l ++ k :: r)
    (hn : n.links = {}) :
    ((t.add n).1.insertAfter k t.size).WellLinked ∧
      ∀ q, ((t.add n).1.insertAfter k t.size).children q =
        if q = p then l ++ k :: t.size :: r else t.children q := by
  obtain ⟨rows, hrows⟩ := h.chained
  have hk : rows (.node p) = l ++ k :: r := hrows.children_eq p ▸ hk
  have hp := (hrows.proper p k (by simp [hk])).2
  have hadd : (t.add n).1.Chained rows := hrows.congr_links (by simp) (links_add t hn)
  have ht := hadd.insertAfter (s := t.size) hk (by simp) (by simpa using Nat.ne_of_lt hp)
    fun o ho => (hrows.lt_size o _ ho).ne rfl
  rw [List.append_cons] at hk ht ⊢
  exact h.put hrows hp hk ht

end Insert

section Replanted

variable {t t' : Forest} {p i : NodeId} {l r m a b : List NodeId}

theorem WellLinked.flatMap_children (h : t.WellLinked) (hk : t.children p = l ++ i :: r)
    (m : List NodeId) (q : NodeId) :
    (t.children q).flatMap (putFor i m) = if q = p then l ++ m ++ r else t.children q := by
  split_ifs with hqp
  · rw [hqp, hk]
    exact flatMap_middle (hk ▸ h.nodup_children p) m
  · exact flatMap_of_notMem (fun hi => hqp (h.parent_unique hi (by simp [hk]))) m

theorem Replanted.children_at (hr : Replanted t i m t') (h : t.WellLinked)
    (hk : t.children p = l ++ i :: r) : t'.children p = l ++ m ++ r := by
  rw [hr.children, h.flatMap_children hk, if_pos rfl]

theorem Replanted.step {t'' : Forest} {m' : List NodeId} (hr : Replanted t i m t')
    (h : t.WellLinked) (hk : t.children p = l ++ i :: r) (hsize : t'.size ≤ t''.size)
    (hlabel : ∀ j : Nat, j < t'.size → t''.label j = t'.label j)
    (hlinked : t''.WellLinked ∧
      ∀ q, t''.children q = if q = p then l ++ m' ++ r else t'.children q) :
    Replanted t i m' t'' where
  wellLinked := hlinked.1
  size := hr.size.trans hsize
  label j hj := (hlabel j (hj.trans_le hr.size)).trans (hr.label j hj)
  children q := by
    rw [hlinked.2, hr.children, h.flatMap_children hk, h.flatMap_children hk]
    split_ifs <;> rfl

theorem Beside.replanted (hb : Beside t i m t') (h : t.WellLinked)
    (hk : t.children p = l ++ i :: r) : Replanted t i m t' := by
  induction hb with
  | alone =>
    refine ⟨h, le_rfl, fun _ _ => rfl, fun q => ?_⟩
    rw [h.flatMap_children hk]
    split_ifs with hqp
    · rw [hqp, hk, List.append_assoc, List.singleton_append]
    · rfl
  | @before t' a b k n _ hn ih =>
    have hk' := ih.children_at h hk
    refine ih.step h hk (by simp) (fun j hj => ?_) ?_
    · rw [label_insertBefore, label_add, if_neg (Nat.ne_of_lt hj)]
    · have hput := ih.wellLinked.insertBefore (l := l ++ a) (r := b ++ r) (by simpa using hk') hn
      simpa using hput
  | @after t' a b k n _ hn ih =>
    have hk' := ih.children_at h hk
    refine ih.step h hk (by simp) (fun j hj => ?_) ?_
    · rw [label_insertAfter, label_add, if_neg (Nat.ne_of_lt hj)]
    · have hput := ih.wellLinked.insertAfter (l := l ++ a) (r := b ++ r) (by simpa using hk') hn
      simpa using hput

theorem Spliced.replanted (hs : Spliced t i m t') (h : t.WellLinked)
    (hk : t.children p = l ++ i :: r) : Replanted t i m t' := by
  cases hs with
  | kept hb => exact hb.replanted h hk
  | @dropped t' a b hb =>
    have hr := hb.replanted h hk
    have hk' : t'.children p = (l ++ a) ++ i :: (b ++ r) := by simpa using hr.children_at h hk
    refine hr.step h hk (by simp) (fun j _ => label_unlink t' i j) ⟨hr.wellLinked.unlink hk', ?_⟩
    simpa using hr.wellLinked.children_unlink hk'

end Replanted

section Parts

variable {t t' : Forest} {i root : NodeId} {l m ns : List NodeId} {vs ws done rest : List Visit}
  {v w : Visit}

theorem Traversed.entered_of_mem (h : t.Traversed l vs) (hi : i ∈ l) : ⟨i, true⟩ ∈ vs := by
  induction h with
  | nil => cases hi
  | leaf _ _ ih => rcases List.mem_cons.mp hi with rfl | hi <;> simp [*]
  | container _ _ _ _ ih => rcases List.mem_cons.mp hi with rfl | hi <;> simp [*]

/-- A node that is visited is entered. -/
theorem Traversed.entered (h : t.Traversed l vs) (hw : w ∈ vs) : ⟨w.node, true⟩ ∈ vs := by
  induction h with
  | nil => cases hw
  | leaf _ _ ih =>
    rcases List.mem_cons.mp hw with rfl | hw
    · exact List.mem_cons_self
    · exact List.mem_cons_of_mem _ (ih hw)
  | container _ _ _ ihbelow ihrest =>
    simp only [List.mem_cons, List.mem_append] at hw ⊢
    rcases hw with rfl | hw | rfl | hw
    · exact .inl rfl
    · exact .inr (.inl (ihbelow hw))
    · exact .inl rfl
    · exact .inr (.inr (.inr (ihrest hw)))

theorem Traversed.node_ne (h : t.Traversed l vs) (hi : ⟨i, true⟩ ∉ vs) : ∀ w ∈ vs, w.node ≠ i := by
  rintro w hw rfl
  exact hi (h.entered hw)

/-- Where `i` is not visited, the traversal stays as it was. -/
theorem Traversed.untouched (h : t.Traversed l vs) (hi : ∀ w ∈ vs, w.node ≠ i)
    (hlabel : ∀ w ∈ vs, t'.label w.node = t.label w.node)
    (hchildren : ∀ q, t'.children q = (t.children q).flatMap (putFor i m)) :
    t'.Traversed l vs := by
  induction h with
  | nil => exact .nil
  | @leaf j l vs hc _ ih =>
    rw [List.forall_mem_cons] at hi hlabel
    exact .leaf (hlabel.1 ▸ hc) (ih hi.2 hlabel.2)
  | @container j l inner vs hc below _ ihbelow ihrest =>
    simp only [List.forall_mem_cons, List.forall_mem_append] at hi hlabel
    have hsame : t'.children j = t.children j := by
      rw [hchildren]
      exact flatMap_of_notMem (fun hmem => hi.2.1 _ (below.entered_of_mem hmem) rfl) m
    refine .container (hlabel.1 ▸ hc) ?_ (ihrest hi.2.2.2 hlabel.2.2.2)
    rw [hsame]
    exact ihbelow hi.2.1 hlabel.2.1

theorem flatMap_putFor_of_traversed (h : t.Traversed l vs) (hi : ∀ w ∈ vs, w.node ≠ i) :
    l.flatMap (putFor i m) = l :=
  flatMap_of_notMem (fun hmem => hi _ (h.entered_of_mem hmem) rfl) m

/-- What is visited before a node and after it stays when something else stands in its place. -/
theorem Traversed.exists_part (h : t.Traversed ns vs) (hnodup : vs.Nodup) (hi : ⟨i, true⟩ ∈ vs) :
    ∃ before part rest, vs = before ++ (part ++ rest) ∧ t.Traversed [i] part ∧
      (∀ w ∈ before ++ rest, w.node ≠ i) ∧
      ∀ {t' : Forest} {m : List NodeId} {ws : List Visit},
        (∀ w ∈ before ++ rest, t'.label w.node = t.label w.node) →
        (∀ q, t'.children q = (t.children q).flatMap (putFor i m)) → t'.Traversed m ws →
          t'.Traversed (ns.flatMap (putFor i m)) (before ++ (ws ++ rest)) := by
  -- the node is the first of the row, or it is below the first, or it is further on
  induction h with
  | nil => cases hi
  | @leaf j l vs hc hl ih =>
    rw [List.nodup_cons] at hnodup
    by_cases hij : j = i
    · subst hij
      have hrest := hl.node_ne hnodup.1
      refine ⟨[], [⟨j, true⟩], vs, rfl, .leaf hc .nil, hrest, fun hlabel hchildren hws => ?_⟩
      rw [List.flatMap_cons, putFor, if_pos rfl, flatMap_putFor_of_traversed hl hrest]
      exact hws.append (hl.untouched hrest hlabel hchildren)
    · have hi : ⟨i, true⟩ ∈ vs := by simpa [Ne.symm hij] using hi
      obtain ⟨before, part, rest, rfl, hpart, hne, hput⟩ := ih hnodup.2 hi
      refine ⟨⟨j, true⟩ :: before, part, rest, rfl, hpart, ?_, fun hlabel hchildren hws => ?_⟩
      · exact List.forall_mem_cons.mpr ⟨hij, hne⟩
      · obtain ⟨hj, hlabel⟩ := List.forall_mem_cons.mp hlabel
        rw [List.flatMap_cons, putFor, if_neg hij]
        exact .leaf (hj ▸ hc) (hput hlabel hchildren hws)
  | @container j l inner vs hc below hl ihbelow ihrest =>
    obtain ⟨hj, hnodup⟩ := List.nodup_cons.mp hnodup
    rw [List.nodup_middle, List.nodup_cons, List.nodup_append'] at hnodup
    obtain ⟨-, hinner, hvs, hdisjoint⟩ := hnodup
    by_cases hij : j = i
    · subst hij
      have hrest := hl.node_ne (i := j) fun hv => hj (by simp [hv])
      refine ⟨[], ⟨j, true⟩ :: (inner ++ [⟨j, false⟩]), vs, by simp, .container hc below .nil,
        hrest, fun hlabel hchildren hws => ?_⟩
      rw [List.flatMap_cons, putFor, if_pos rfl, flatMap_putFor_of_traversed hl hrest]
      exact hws.append (hl.untouched hrest hlabel hchildren)
    · by_cases hbelow : ⟨i, true⟩ ∈ inner
      · obtain ⟨before, part, rest, rfl, hpart, hne, hput⟩ := ihbelow hinner hbelow
        have hafter := hl.node_ne fun hv => hdisjoint hbelow hv
        refine ⟨⟨j, true⟩ :: before, part, rest ++ ⟨j, false⟩ :: vs, by simp, hpart, ?_,
          fun hlabel hchildren hws => ?_⟩
        · simp only [List.forall_mem_append, List.cons_append, List.forall_mem_cons] at hne ⊢
          exact ⟨hij, hne.1, hne.2, hij, hafter⟩
        · simp only [List.forall_mem_append, List.cons_append, List.forall_mem_cons] at hlabel hput
          obtain ⟨hlabelj, hbefore, hrest, -, hlater⟩ := hlabel
          have hinside := hput ⟨hbefore, hrest⟩ hchildren hws
          rw [← hchildren] at hinside
          rw [List.flatMap_cons, putFor, if_neg hij, flatMap_putFor_of_traversed hl hafter]
          simpa using Traversed.container (hlabelj ▸ hc) hinside
            (hl.untouched hafter hlater hchildren)
      · have hvisited : ⟨i, true⟩ ∈ vs := by
          simpa [Ne.symm hij, hbelow] using hi
        obtain ⟨before, part, rest, rfl, hpart, hne, hput⟩ := ihrest hvs hvisited
        have hbefore := below.node_ne hbelow
        refine ⟨⟨j, true⟩ :: (inner ++ ⟨j, false⟩ :: before), part, rest, by simp, hpart, ?_,
          fun hlabel hchildren hws => ?_⟩
        · simp only [List.forall_mem_append, List.cons_append, List.forall_mem_cons,
            List.append_assoc] at hne ⊢
          exact ⟨hij, hbefore, hij, hne⟩
        · simp only [List.forall_mem_append, List.cons_append, List.forall_mem_cons,
            List.append_assoc] at hlabel hput
          obtain ⟨hlabelj, hinside, -, hrest⟩ := hlabel
          have hsame := below.untouched hbefore hinside hchildren
          rw [← flatMap_putFor_of_traversed below hbefore, ← hchildren] at hsame
          rw [List.flatMap_cons, putFor, if_neg hij]
          simpa using Traversed.container (hlabelj ▸ hc) hsame (hput hrest hchildren hws)

/-- The traversal of a node ends with the last visit to it. -/
theorem Traversed.exists_concat (h : t.Traversed [v.node] vs) (hv : v ∈ vs)
    (hlast : v.entering = true → (t.label v.node).container = false) :
    ∃ init, vs = init ++ [v] := by
  obtain ⟨i, entering⟩ := v
  cases h with
  | leaf _ rest =>
    cases rest
    exact ⟨[], congrArg (fun w => [w]) (List.mem_singleton.mp hv).symm⟩
  | @container _ _ inner _ hc _ rest =>
    cases rest
    cases entering with
    | true =>
      rw [hlast rfl] at hc
      cases hc
    | false => exact ⟨⟨i, true⟩ :: inner, rfl⟩

namespace WellLinked

/-- A node below the root of a walk stands in a list of children. -/
theorem exists_siblings (h : t.WellLinked) (ht : t.Traversed [root] vs) (hv : v ∈ vs)
    (hne : v.node ≠ root) : ∃ p l r, t.children p = l ++ v.node :: r := by
  obtain ⟨vs', ht', -, hplaces⟩ := h.exists_traversed root
  obtain rfl := ht.unique ht'
  obtain _ | @⟨p, _, -, hc⟩ := (hplaces v.node).mp ⟨v, hv, rfl⟩
  · exact absurd rfl hne
  · obtain ⟨l, r, hk⟩ := List.append_of_mem (mem_walked.mp hc).2
    exact ⟨p, l, r, hk⟩

/-- A walk that goes below its root comes to nodes of the table only. -/
theorem lt_size_of_traversed (h : t.WellLinked) (ht : t.Traversed [root] vs) (hv : v ∈ vs)
    (hne : v.node ≠ root) (hw : w ∈ vs) : w.node < t.size := by
  by_cases hwroot : w.node = root
  · have hc : (t.label root).container = true := by
      cases ht with
      | leaf _ rest =>
        cases rest
        obtain rfl := List.mem_singleton.mp hv
        exact absurd rfl hne
      | container hc _ _ => exact hc
    refine Nat.lt_of_not_le fun hle => ?_
    rw [hwroot] at hle
    rw [label_of_size_le t hle] at hc
    cases hc
  · obtain ⟨p, l, r, hk⟩ := h.exists_siblings ht hw hwroot
    exact h.lt_size (p := p) (by simp [hk])

theorem exists_traversed_list (h : t.WellLinked) (l : List NodeId) : ∃ vs, t.Traversed l vs := by
  induction l with
  | nil => exact ⟨[], .nil⟩
  | cons i l ih =>
    obtain ⟨vs, hvs, -⟩ := h.exists_traversed i
    obtain ⟨vs', hvs'⟩ := ih
    exact ⟨vs ++ vs', hvs.append hvs'⟩

end WellLinked

/-- What comes after the last visit to a node still comes after what is put in its place. -/
theorem Replanted.traversed (hr : Replanted t v.node m t') (h : t.WellLinked)
    (ht : t.Traversed [root] (done ++ v :: rest)) (hlast : t.Passes root v)
    (hws : t'.Traversed m ws) : ∃ before, t'.Traversed [root] (before ++ (ws ++ rest)) := by
  have hnodup := h.nodup_traversed ht
  have hv : v ∈ done ++ v :: rest := by simp
  have hsize : ∀ w ∈ done ++ v :: rest, w.node < t.size := fun w hw =>
    h.lt_size_of_traversed ht hv hlast.1 hw
  obtain ⟨before, part, rest', heq, hpart, hne, hput⟩ := ht.exists_part hnodup (ht.entered hv)
  rw [List.nodup_middle, List.nodup_cons, List.mem_append, not_or] at hnodup
  rw [heq] at hv hsize
  have hmem : v ∈ part := by
    simp only [List.mem_append] at hv hne
    rcases hv with hv | hv | hv
    · exact absurd rfl (hne v (.inl hv))
    · exact hv
    · exact absurd rfl (hne v (.inr hv))
  obtain ⟨init, rfl⟩ := hpart.exists_concat hmem hlast.2
  have hsplit : done ++ v :: rest = (before ++ init) ++ v :: rest' := by simpa using heq
  obtain ⟨-, -, rfl⟩ := (List.append_cons_inj_of_notMem hnodup.1.1 hnodup.1.2).mp hsplit
  have htop : [root].flatMap (putFor v.node m) = [root] := by
    rw [List.flatMap_singleton, putFor, if_neg (Ne.symm hlast.1)]
  refine ⟨before, htop ▸ hput (fun w hw => hr.label _ (hsize w ?_)) hr.children hws⟩
  simp only [List.mem_append] at hw ⊢
  tauto

end Parts

section Moments

variable {t t' : Forest} {c c' c₁ : Cursor} {root j : NodeId} {v : Visit} {m : List NodeId}
  {vs rest : List Visit}

theorem Walks.root_eq (h : t.Walks c vs c') : c'.root = c.root := by
  induction h with
  | refl c => rfl
  | turn hnext _ ih => exact ih.trans (Cursor.root_of_next? hnext)

theorem WalksOut.pending_eq (h : t.WalksOut c vs) : c.pending = vs.head? := by
  obtain ⟨c', hwalks, hend⟩ := h
  cases hwalks with
  | refl => rw [Cursor.pending, hend]; rfl
  | turn hnext _ => exact Cursor.pending_of_next? hnext

theorem WalksOut.eq_of_visitsUpTo (h : t.WalksOut c vs) {limit : Nat} {ws : List Visit}
    (heval : t.visitsUpTo limit c = some ws) : vs = ws := by
  obtain ⟨c', hwalks, hend⟩ := h
  rw [hwalks.visitsUpTo hend] at heval
  split_ifs at heval
  exact Option.some.inj heval

/-- Below `root`, the cursor stands right before the visits `rest` of the traversal. -/
structure StandsBefore (t : Forest) (root : NodeId) (c : Cursor) (rest : List Visit) : Prop where
  wellLinked : t.WellLinked
  root_eq : c.root = root
  pending : c.pending = rest.head?
  traversed : ∃ done, t.Traversed [root] (done ++ rest)

namespace StandsBefore

theorem start (h : t.WellLinked) (root : NodeId) :
    ∃ rest, StandsBefore t root (.start root) rest := by
  obtain ⟨vs, ht, -⟩ := h.exists_traversed root
  exact ⟨vs, h, rfl, (h.walksOut ht).pending_eq, [], ht⟩

theorem walksOut (h : StandsBefore t root c rest) : t.WalksOut c rest := by
  obtain ⟨done, ht⟩ := h.traversed
  obtain ⟨last, hwalks, hend⟩ := h.wellLinked.walksOut ht
  obtain ⟨c', hdone, hrest⟩ := hwalks.exists_between
  have hpending : c'.pending = c.pending :=
    (WalksOut.pending_eq ⟨last, hrest, hend⟩).trans h.pending.symm
  cases rest with
  | nil => exact ⟨c, .refl c, Option.map_eq_none_iff.mp h.pending⟩
  | cons v rest =>
    obtain rfl : c' = c := by
      refine Cursor.ext_pending (hdone.root_eq.trans h.root_eq.symm) hpending ?_
      rw [h.pending]
      rfl
    exact ⟨last, hrest, hend⟩

theorem within (h : StandsBefore t root c rest) (hv : v ∈ rest) : t.Within root v.node := by
  obtain ⟨done, ht⟩ := h.traversed
  obtain ⟨vs, hvs, -, hplaces⟩ := h.wellLinked.exists_traversed root
  obtain rfl := ht.unique hvs
  exact (hplaces _).mp ⟨v, List.mem_append_right _ hv, rfl⟩

theorem nodup (h : StandsBefore t root c rest) : rest.Nodup := by
  obtain ⟨done, ht⟩ := h.traversed
  exact (List.nodup_append'.mp (h.wellLinked.nodup_traversed ht)).2.1

theorem turn (h : StandsBefore t root c rest) (hnext : c.next? t = some (v, c₁)) :
    ∃ rest', rest = v :: rest' ∧ StandsBefore t root c₁ rest' := by
  obtain ⟨last, hwalks, hend⟩ := h.walksOut
  cases hwalks with
  | refl =>
    rw [Cursor.next?, hend] at hnext
    cases hnext
  | @turn _ _ _ _ rest' hnext' hrest =>
    obtain ⟨rfl, rfl⟩ := Prod.mk.inj (Option.some.inj (hnext.symm.trans hnext'))
    obtain ⟨done, ht⟩ := h.traversed
    refine ⟨rest', rfl, h.wellLinked, (Cursor.root_of_next? hnext).trans h.root_eq,
      WalksOut.pending_eq ⟨last, hrest, hend⟩, done ++ [v], ?_⟩
    rwa [← List.append_cons]

/-- What is put in the place of a node on the last visit to it comes before the visits to
come. -/
theorem exists_traversed (h : StandsBefore t root c (v :: rest)) (hlast : t.Passes root v)
    (hsplice : Spliced t v.node m t') :
    t'.WellLinked ∧
      ∀ {ws}, t'.Traversed m ws → ∃ before, t'.Traversed [root] (before ++ (ws ++ rest)) := by
  obtain ⟨done, ht⟩ := h.traversed
  obtain ⟨p, l, r, hk⟩ := h.wellLinked.exists_siblings ht (by simp) hlast.1
  have hr := hsplice.replanted h.wellLinked hk
  exact ⟨hr.wellLinked, hr.traversed h.wellLinked ht hlast⟩

/-- The cursor has gone on before a node is spliced, and stands where it stood. -/
theorem splice (h : StandsBefore t root c rest) (hnext : c.next? t = some (v, c₁))
    (hlast : t.Passes root v) (hsplice : Spliced t v.node m t') :
    ∃ rest', rest = v :: rest' ∧ StandsBefore t' root c₁ rest' := by
  obtain ⟨rest', rfl, hgone⟩ := h.turn hnext
  obtain ⟨hlinked, hput⟩ := h.exists_traversed hlast hsplice
  obtain ⟨ws, hws⟩ := hlinked.exists_traversed_list m
  obtain ⟨before, ht⟩ := hput hws
  rw [← List.append_assoc] at ht
  exact ⟨rest', rfl, hlinked, hgone.root_eq, hgone.pending, _, ht⟩

theorem walk (h : StandsBefore t root c rest) (hwalk : SplicedWalk t c vs t' c') :
    ∃ rest', rest = vs ++ rest' ∧ StandsBefore t' root c' rest' := by
  induction hwalk generalizing rest with
  | refl t c => exact ⟨rest, rfl, h⟩
  | idle hnext _ ih =>
    obtain ⟨rest₁, rfl, h₁⟩ := h.turn hnext
    obtain ⟨rest', rfl, h'⟩ := ih h₁
    exact ⟨rest', rfl, h'⟩
  | splice hnext hlast hsplice _ ih =>
    obtain ⟨rest₁, rfl, h₁⟩ := h.splice hnext (h.root_eq ▸ hlast) hsplice
    obtain ⟨rest', rfl, h'⟩ := ih h₁
    exact ⟨rest', rfl, h'⟩

/-- A walk that is sent to a leaf has that leaf before it, what stands behind the leaf in the place
of the node, and what was to come. -/
theorem resume {a b : List NodeId} (h : StandsBefore t root c rest)
    (hresume : Resumed t c a j b t' c') :
    ∃ v rest' extra, rest = v :: rest' ∧ t'.Traversed b extra ∧
      StandsBefore t' root c' (⟨j, true⟩ :: (extra ++ rest')) := by
  obtain ⟨hnext, hlast, hsplice, -, hleaf⟩ := hresume
  obtain ⟨rest', rfl, hgone⟩ := h.turn hnext
  obtain ⟨hlinked, hput⟩ := h.exists_traversed (h.root_eq ▸ hlast) hsplice
  obtain ⟨first, hfirst⟩ := hlinked.exists_traversed_list a
  obtain ⟨extra, hextra⟩ := hlinked.exists_traversed_list b
  obtain ⟨before, ht⟩ := hput (hfirst.append (.leaf hleaf hextra))
  refine ⟨_, rest', extra, rfl, hextra, hlinked, hgone.root_eq, rfl, before ++ first, ?_⟩
  simpa using ht

theorem arrives (h : StandsBefore t root c rest) (harrives : Arrives t c t' c') :
    ∃ rest', StandsBefore t' root c' rest' := by
  induction harrives with
  | start => exact ⟨rest, h⟩
  | spliced _ hwalk ih =>
    obtain ⟨rest₁, h₁⟩ := ih
    obtain ⟨rest', -, h'⟩ := h₁.walk hwalk
    exact ⟨rest', h'⟩
  | resumed _ hresume ih =>
    obtain ⟨rest₁, h₁⟩ := ih
    obtain ⟨_, _, _, -, -, h'⟩ := h₁.resume hresume
    exact ⟨_, h'⟩

end StandsBefore

/-- Take any moment of a walk over linked trees during which nodes are spliced and the walk is sent
to new leaves. What it would visit from then on in the tree left alone is what it does visit however
nodes are spliced. If it is sent to a new leaf, it visits that leaf and what comes after the leaf in
the order of the tree. -/
theorem WellLinked.walk_tolerates_splicing {t₀ : Forest} (h : t₀.WellLinked)
    (harrives : Arrives t₀ (.start root) t c) :
    ∃ rest, t.WalksOut c rest ∧ (∃ done, t.Traversed [root] (done ++ rest)) ∧ rest.Nodup ∧
      (∀ v ∈ rest, t.Within root v.node) ∧
      (∀ {vs t' c'}, SplicedWalk t c vs t' c' →
        ∃ rest', rest = vs ++ rest' ∧ t'.WalksOut c' rest' ∧ (c'.current = none → vs = rest)) ∧
      ∀ {a j b t' c'}, Resumed t c a j b t' c' →
        ∃ v rest' extra done, rest = v :: rest' ∧ t'.Traversed b extra ∧
          t'.Traversed [root] (done ++ ⟨j, true⟩ :: (extra ++ rest')) ∧
          t'.WalksOut c' (⟨j, true⟩ :: (extra ++ rest')) := by
  obtain ⟨_, hstart⟩ := StandsBefore.start h root
  obtain ⟨rest, hstands⟩ := hstart.arrives harrives
  refine ⟨rest, hstands.walksOut, hstands.traversed, hstands.nodup, fun v => hstands.within,
    fun {vs t' c'} hwalk => ?_, fun {a j b t' c'} hresume => ?_⟩
  · obtain ⟨rest', rfl, h'⟩ := hstands.walk hwalk
    refine ⟨rest', rfl, h'.walksOut, fun hend => ?_⟩
    have hnil : rest'.head? = none := by rw [← h'.pending, Cursor.pending, hend]; rfl
    rw [List.head?_eq_none_iff.mp hnil, List.append_nil]
  · obtain ⟨v, rest', extra, rfl, hextra, h'⟩ := hstands.resume hresume
    obtain ⟨done, ht⟩ := h'.traversed
    exact ⟨v, rest', extra, done, rfl, hextra, ht, h'.walksOut⟩

end Moments

/-- A leaf of markup. -/
def mark : Node := { kind := "html_inline", literal := some "<hr>" }

theorem WellLinked.walk_tolerates_splicing_quotation :
    quotation.WellLinked ∧
      Arrives quotation (.start 0) (quotation.unlink 1) ⟨0, some 4, true⟩ ∧
      ∃ t', Resumed (quotation.unlink 1) ⟨0, some 4, true⟩ [] 7 [] t' ⟨0, some 7, true⟩ ∧
        t'.children 3 = [7, 5] ∧
        t'.WalksOut ⟨0, some 7, true⟩ [⟨7, true⟩, ⟨5, true⟩, ⟨5, false⟩, ⟨3, false⟩, ⟨2, false⟩,
          ⟨6, true⟩, ⟨0, false⟩] := by
  have hlinked := quotation_wellLinked
  have harrives : Arrives quotation (.start 0) (quotation.unlink 1) ⟨0, some 4, true⟩ := by
    have henter : (Cursor.start 0).next? quotation = some (⟨0, true⟩, ⟨0, some 1, true⟩) := by
      decide +kernel
    have hempty : (⟨0, some 1, true⟩ : Cursor).next? quotation =
        some (⟨1, true⟩, ⟨0, some 1, false⟩) := by decide +kernel
    have hleave : (⟨0, some 1, false⟩ : Cursor).next? quotation =
        some (⟨1, false⟩, ⟨0, some 2, true⟩) := by decide +kernel
    have hdrop : Spliced quotation 1 [] (quotation.unlink 1) := .dropped (a := []) .alone
    have hdown : (⟨0, some 2, true⟩ : Cursor).next? (quotation.unlink 1) =
        some (⟨2, true⟩, ⟨0, some 3, true⟩) := by decide +kernel
    have hfurther : (⟨0, some 3, true⟩ : Cursor).next? (quotation.unlink 1) =
        some (⟨3, true⟩, ⟨0, some 4, true⟩) := by decide +kernel
    exact .spliced .start (.idle henter (.idle hempty (.splice hleave (by decide +kernel) hdrop
      (.idle hdown (.idle hfurther (.refl _ _))))))
  have hsize : (quotation.unlink 1).size = 7 := by decide +kernel
  have hput : Beside (quotation.unlink 1) 4 [4, (quotation.unlink 1).size] _ :=
    .after (a := []) (n := mark) .alone rfl
  rw [hsize] at hput
  have hleaf : (⟨0, some 4, true⟩ : Cursor).next? (quotation.unlink 1) =
      some (⟨4, true⟩, ⟨0, some 5, true⟩) := by decide +kernel
  have hresume := Resumed.mk (a := []) (j := 7) (b := []) hleaf (by decide +kernel)
    (.dropped (a := []) hput) (by decide) (by decide +kernel)
  obtain ⟨rest, hwalks, -, -, -, -, hresumed⟩ := hlinked.walk_tolerates_splicing harrives
  obtain ⟨v, rest', extra, -, rfl, hextra, -, hout⟩ := hresumed hresume
  obtain rfl : [] = extra := Traversed.nil.unique hextra
  have heval : (quotation.unlink 1).visitsUpTo 20 ⟨0, some 4, true⟩ = some (⟨4, true⟩ :: [⟨5, true⟩,
      ⟨5, false⟩, ⟨3, false⟩, ⟨2, false⟩, ⟨6, true⟩, ⟨0, false⟩]) := by decide +kernel
  obtain ⟨rfl, rfl⟩ := List.cons.inj (hwalks.eq_of_visitsUpTo heval)
  exact ⟨hlinked, harrives, _, hresume, by decide +kernel, hout⟩

end Forest

end Hyperstory
