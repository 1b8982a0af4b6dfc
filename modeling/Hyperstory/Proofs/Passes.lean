import Hyperstory.Proofs.Built
import Hyperstory.Proofs.Recursion

/-! Passes over a document that leave its shape alone: removing escapes, and writing a stream. -/
namespace Hyperstory

open Hyperstory.Tree

namespace Cursor

variable {t : Forest} {kids : NodeId → List NodeId} {root p i : Nat} {l r : List NodeId}

/-- The position before the places `l` below `p`, or before `p` is left. -/
def ahead (root p : NodeId) : List NodeId → Cursor
  | [] => ⟨root, some p, false⟩
  | i :: _ => ⟨root, some i, true⟩

theorem after_of_firstChild (hc : (t.label i).container = true)
    (hfirst : (t.links i).firstChild = l.head?) : after t root ⟨i, true⟩ = ahead root i l := by
  have hc : (t.node i).container = true := hc
  have hfirst : (t.node i).links.firstChild = l.head? := hfirst
  unfold after
  simp only [hc, hfirst, Bool.and_self, if_true]
  cases l <;> rfl

theorem after_of_next (hnext : (t.links i).next = r.head?) (hparent : (t.links i).parent = some p)
    (hroot : i ≠ root) {entering : Bool}
    (he : entering = true → (t.label i).container = false) :
    after t root ⟨i, entering⟩ = ahead root p r := by
  have hnext : (t.node i).links.next = r.head? := hnext
  have hparent : (t.node i).links.parent = some p := hparent
  have hstay : (entering && (t.node i).container) = false := by
    cases entering with
    | false => rfl
    | true => exact he rfl
  unfold after
  simp only [hstay, hroot, hnext, hparent, Bool.false_eq_true, if_false]
  cases r <;> rfl

theorem after_enter (h : t.Linked kids) (hc : (t.label i).container = true) :
    after t root ⟨i, true⟩ = ahead root i (kids i) :=
  after_of_firstChild hc (h.firstChild i)

/-- After a leaf, and after leaving a container, the walk goes on to what stands next. -/
theorem after_last (h : t.Linked kids) (hk : kids p = l ++ i :: r) (hroot : i ≠ root)
    {entering : Bool} (he : entering = true → (t.label i).container = false) :
    after t root ⟨i, entering⟩ = ahead root p r :=
  after_of_next (h.next_eq hk) (h.parent_eq hk) hroot he

theorem after_resumeAt (t : Forest) (root : NodeId) (v : Visit) (j : NodeId) (entering : Bool) :
    (after t root v).resumeAt j entering = ⟨root, some j, entering⟩ := by
  unfold after
  dsimp only
  split_ifs
  · split <;> rfl
  · rfl
  · split <;> rfl

theorem after_root (t : Forest) (root : NodeId) :
    after t root ⟨root, false⟩ = ⟨root, none, false⟩ := by
  simp [after]

end Cursor

namespace Forest

open Expansion

variable {t t' t'' : Forest} {kids : NodeId → List NodeId} {root p i : Nat}

theorem unescaped_eq_self {n : Node} (h : isScanned n.kind = true → n.literal = none) :
    unescaped n = n := by
  unfold unescaped
  split_ifs with hs
  · obtain ⟨⟩ := n
    obtain rfl := h hs
    rfl
  · rfl

theorem unescaped_sameRole (n : Node) : SameRole n (unescaped n) := by
  unfold unescaped
  split_ifs
  · exact ⟨rfl, rfl, fun _ h => by simp [h]⟩
  · exact .refl n

/-- The escapes are removed at the given places and nothing else has changed. -/
structure Stripped (t : Forest) (places : List NodeId) (t' : Forest) : Prop where
  size : t'.size = t.size
  links : ∀ j, t'.links j = t.links j
  label : ∀ j, t'.label j = if j ∈ places then unescaped (t.label j) else t.label j

theorem Stripped.append {l r : List NodeId} (h : Stripped t l t') (h' : Stripped t' r t'')
    (hlr : ∀ j ∈ l, j ∉ r) : Stripped t (l ++ r) t'' := by
  refine ⟨h'.size.trans h.size, fun j => (h'.links j).trans (h.links j), fun j => ?_⟩
  rw [h'.label, h.label]
  have := hlr j
  by_cases hl : j ∈ l <;> by_cases hr : j ∈ r <;> simp_all

theorem stripNode_stripped (hi : i < t.size) : Stripped t [i] (t.stripNode i) := by
  unfold stripNode
  split_ifs with hs
  · refine ⟨by simp, fun j => links_modify t i j fun _ => rfl, fun j => ?_⟩
    have hs : isScanned (t.label i).kind = true := hs
    rw [label_modify]
    by_cases hij : i = j
    · subst hij
      simp only [hi, and_self, if_true, List.mem_singleton, unescaped, hs]
      rfl
    · simp [hij, Ne.symm hij]
  · refine ⟨rfl, fun _ => rfl, fun j => ?_⟩
    have hs : isScanned (t.label i).kind ≠ true := hs
    split_ifs with hj
    · obtain rfl := List.mem_singleton.mp hj
      exact (unescaped_eq_self fun h => absurd h hs).symm
    · rfl

/-- Nothing happens to a container, which has no text of its own. -/
theorem stripNode_of_literal (hi : i < t.size)
    (h : isScanned (t.label i).kind = true → (t.label i).literal = none) :
    Stripped t [] (t.stripNode i) := by
  have hstrip := stripNode_stripped hi
  refine ⟨hstrip.size, hstrip.links, fun j => ?_⟩
  rw [hstrip.label]
  split_ifs with hj hj'
  · cases hj'
  · obtain rfl := List.mem_singleton.mp hj
    exact unescaped_eq_self h
  · contradiction
  · rfl

theorem Document.stripped (hd : t.Document kids) {places : List NodeId}
    (h : Stripped t places t') : t'.Document kids := by
  have hrole : ∀ j, SameRole (t.label j) (t'.label j) := by
    intro j
    rw [h.label]
    split_ifs
    · exact unescaped_sameRole _
    · exact .refl _
  refine hd.step (hd.linked.congr_links h.size.ge h.links) h.size.ge (fun j _ => hrole j) ?_ ?_
  · intro j hj hc
    rw [(hrole j).container, label_of_size_le t hj] at hc
    cases hc
  · exact fun j hc => hd.leaf j ((hrole j).container ▸ hc)

private theorem stripFrom_step (t : Forest) (root i : NodeId) (entering : Bool) (fuel : Nat) :
    stripFrom (fuel + 1) ⟨root, some i, entering⟩ t =
      stripFrom fuel (.after t root ⟨i, entering⟩) (t.stripNode i) := rfl

/-- The pass goes from one position to another, in at most `bound` turns, and strips the nodes at
the places. -/
def Strips (t : Forest) (c : Cursor) (bound : Nat) (places : List NodeId) (t' : Forest)
    (c' : Cursor) : Prop :=
  Stripped t places t' ∧
    ∃ n ≤ bound, ∀ fuel, stripFrom (n + fuel) c t = stripFrom fuel c' t'

/-- The pass goes over one child, if it goes over the row below it. -/
private theorem stripFrom_child {i : Nat} {cs : List (Tree NodeId)} {l r : List NodeId}
    (hd : t.Document kids) (hk : kids p = l ++ i :: r) (htop : kids i = cs.map value)
    (hcs : Follows kids cs) (hroot : root ≠ i)
    (hbelow : ∀ t₁ : Forest, t₁.Document kids → ∃ t₂,
      Strips t₁ (.ahead root i (cs.map value)) (2 * (valuesAll cs).length) (valuesAll cs) t₂
        (.ahead root i [])) :
    ∃ t', Strips t (.ahead root p (i :: r)) (2 * (valuesAll cs).length + 2) (i :: valuesAll cs) t'
      (.ahead root p r) := by
  have hi := (hd.linked.later p i (by simp [hk])).2
  have hone := stripNode_stripped (t := t) hi
  have henter : ∀ fuel, stripFrom (fuel + 1) (.ahead root p (i :: r)) t =
      stripFrom fuel (.after t root ⟨i, true⟩) (t.stripNode i) := stripFrom_step t root i true
  cases hc : (t.label i).container with
  | false =>
    have hnil := hd.leaf i hc
    rw [htop, List.map_eq_nil_iff] at hnil
    subst hnil
    refine ⟨t.stripNode i, by simpa using hone, 1, by simp, fun fuel => ?_⟩
    rw [Nat.add_comm, henter, Cursor.after_last hd.linked hk (Ne.symm hroot) fun _ => hc]
  | true =>
    obtain ⟨t₁, hstrip, n, hn, hrun⟩ := hbelow _ (hd.stripped hone)
    have hall := hone.append hstrip (by simpa using hd.linked.notMem_below htop hcs)
    have hd₂ := hd.stripped hall
    have hrole : SameRole (t.label i) (t₁.label i) := by
      rw [hall.label, if_pos (by simp)]
      exact unescaped_sameRole _
    have hleave := stripNode_of_literal (hall.size ▸ hi) (hd₂.literal i (hrole.container.trans hc))
    refine ⟨t₁.stripNode i, by simpa using hall.append hleave (by simp), n + 2, by omega,
      fun fuel => ?_⟩
    rw [show n + 2 + fuel = (n + (fuel + 1)) + 1 by omega, henter,
      Cursor.after_enter hd.linked hc, htop, hrun, Cursor.ahead, stripFrom_step,
      Cursor.after_last hd₂.linked hk (Ne.symm hroot) (by simp)]

/-- The pass goes over a row and stands before what comes after it. -/
theorem stripFrom_row {row : List (Tree NodeId)} (hd : t.Document kids) (hrow : Follows kids row)
    {l r : List NodeId} (hk : kids p = l ++ row.map value ++ r) (hroot : root ∉ valuesAll row) :
    ∃ t', Strips t (.ahead root p (row.map value ++ r)) (2 * (valuesAll row).length)
      (valuesAll row) t' (.ahead root p r) := by
  induction row using row_induction generalizing t p l r with
  | nil => exact ⟨t, ⟨rfl, fun _ => rfl, by simp⟩, 0, le_rfl, by simp⟩
  | cons i cs rest ihcs ihrest =>
    obtain _ | ⟨htop, hcs, hrest⟩ := hrow
    simp only [valuesAll_cons, values_node, List.cons_append, List.mem_cons, List.mem_append,
      not_or] at hroot
    simp only [List.map_cons, value_node, List.append_assoc, List.cons_append] at hk
    have hdisj := hd.linked.disjoint_of_append (p := p) (l := [.node i cs]) (u := l) (v := r)
      (by simp [hk]) (.cons htop hcs .nil) hrest
    obtain ⟨t₁, hstrip₁, n₁, hn₁, hrun₁⟩ := stripFrom_child hd hk htop hcs hroot.1 fun t₁ hd₁ => by
      simpa using ihcs hd₁ hcs (p := i) (l := []) (r := []) (by simpa using htop) hroot.2.1
    obtain ⟨t₂, hstrip₂, n₂, hn₂, hrun₂⟩ := ihrest (hd.stripped hstrip₁) hrest (p := p)
      (l := l ++ [i]) (r := r) (by simp [hk]) hroot.2.2
    refine ⟨t₂, by simpa using hstrip₁.append hstrip₂ (by simpa using hdisj), n₁ + n₂, ?_,
      fun fuel => ?_⟩
    · simp only [valuesAll_cons, values_node, List.length_append, List.length_cons]
      omega
    · rw [Nat.add_assoc]
      simpa [hrun₂] using hrun₁ (n₂ + fuel)

/-- There are more nodes than places below one of them. -/
theorem Linked.length_places_lt (h : t.Linked kids) {cs : List (Tree NodeId)} (hi : i < t.size)
    (htop : kids i = cs.map value) (hcs : Follows kids cs) : (valuesAll cs).length < t.size := by
  have hlater : ∀ c : Nat, c ∈ cs.map value → i < c ∧ c < t.size := fun c hc =>
    h.later i c (htop ▸ hc)
  have hnd := h.nodup_valuesAll hcs ⟨i, fun c hc => htop ▸ hc⟩ (htop ▸ h.nodup i)
  have hnot := h.notMem_below htop hcs
  have hsub : i :: valuesAll cs ⊆ List.range t.size := by
    intro j hj
    rw [List.mem_range]
    rcases List.mem_cons.mp hj with rfl | hj
    · exact hi
    · exact h.lt_size_of_mem_valuesAll hcs (fun c hc => (hlater c hc).2) hj
  have hle := ((List.nodup_cons.mpr ⟨hnot, hnd⟩).subperm hsub).length_le
  rw [List.length_cons, List.length_range] at hle
  exact hle

/-- The pass ends and has removed the escapes at every place below a container. -/
theorem stripEscapes_stripped (hd : t.Document kids) {cs : List (Tree NodeId)} (hi : i < t.size)
    (hc : (t.label i).container = true) (htop : kids i = cs.map value) (hcs : Follows kids cs) :
    Stripped t (i :: valuesAll cs) (t.stripEscapes i) := by
  have hnot := hd.linked.notMem_below htop hcs
  have hone := stripNode_stripped (t := t) hi
  obtain ⟨t₁, hstrip, n, hn, hrun⟩ := stripFrom_row (hd.stripped hone) hcs (p := i) (l := [])
    (r := []) (by simpa using htop) hnot
  have hall := hone.append hstrip (by simpa using hnot)
  have hrole : SameRole (t.label i) (t₁.label i) := by
    rw [hall.label, if_pos (by simp)]
    exact unescaped_sameRole _
  have hleave := stripNode_of_literal (hall.size ▸ hi)
    ((hd.stripped hall).literal i (hrole.container.trans hc))
  have hlen := hd.linked.length_places_lt hi htop hcs
  obtain ⟨fuel, hfuel⟩ : ∃ fuel, t.visitBound = (n + (fuel + 1)) + 1 :=
    ⟨t.visitBound - n - 2, by unfold visitBound; omega⟩
  have hrun := hrun (fuel + 1)
  rw [List.append_nil] at hrun
  have hend : t.stripEscapes i = t₁.stripNode i := by
    rw [stripEscapes, hfuel, Cursor.start, stripFrom_step, Cursor.after_enter hd.linked hc, htop,
      hrun, Cursor.ahead, stripFrom_step, Cursor.after_root]
    cases fuel <;> rfl
  rw [hend]
  simpa using hall.append hleave (by simp)

/-- The pass over a whole document, as its tree reads. -/
theorem stripEscapes_tree (hd : t.Document kids) :
    (∃ kids', (t.stripEscapes 0).Document kids') ∧
      (t.stripEscapes 0).tree 0 =
        .node (t.tree 0).value (mapAll unescaped (t.tree 0).row) := by
  obtain ⟨cs, hvalues, hcs⟩ := hd.linked.exists_row (kids 0)
  have hrow := Follows.cons hvalues.symm hcs .nil
  have hstrip := stripEscapes_stripped hd hd.size_pos hd.rootContainer hvalues.symm hcs
  have hd' := hd.stripped hstrip
  have hroot : unescaped (t.label 0) = t.label 0 := by
    refine unescaped_eq_self fun h => ?_
    rw [hd.rootKind] at h
    exact absurd h (by decide)
  have hlabels : mapAll (t.stripEscapes 0).label cs = mapAll unescaped (mapAll t.label cs) := by
    rw [mapAll_mapAll]
    refine mapAll_congr fun j hj => ?_
    rw [hstrip.label, if_pos (List.mem_cons_of_mem _ hj)]
  refine ⟨⟨kids, hd'⟩, ?_⟩
  rw [hd'.linked.tree_eq hrow, hd.linked.tree_eq hrow]
  rw [value_node, row_node, hlabels, hstrip.label, if_pos List.mem_cons_self, hroot]

/-- The part of a stream that a child gives, when `below` gives the stream below a node. -/
def part (t : Forest) (below : Layout → NodeId → Except Fault (List Slot)) (c : NodeId) :
    Except Fault (Bool × List Slot) := do
  let n := t.label c
  let slots ←
    if n.kind == "image" then
      match n.token with
      | none => .error .tokenless
      | some tok => do
        let inner ← below .inline c
        .ok [Slot.filled tok (some inner)]
    else if n.container then do
      let inner ← below (if n.inline then .inline else .block) c
      .ok (Slot.ofToken? n.token :: inner ++ [Slot.ofToken? n.closing])
    else .ok [leafSlot n]
  .ok (n.inline, slots)

/-- The parts laid out as inline content or as blocks. -/
def Layout.join : Layout → List (Bool × List Slot) → List Slot
  | .inline, parts => parts.flatMap (·.2)
  | .block, parts => groupRuns [] parts

theorem slotsBelow_succ (t : Forest) (depth : Nat) (layout : Layout) (i : NodeId) :
    t.slotsBelow (depth + 1) layout i =
      (t.children i).mapM (t.part (t.slotsBelow depth)) >>= fun parts =>
        .ok (layout.join parts) := by
  cases layout <;> rfl

theorem part_eq {below : Layout → NodeId → Except Fault (List Slot)} {cs : List (Tree NodeId)}
    (h : ∀ layout, below layout i =
      streamsOf (mapAll t.label cs) >>= fun parts => .ok (Layout.join layout parts)) :
    t.part below i = streamOf (.node (t.label i) (mapAll t.label cs)) := by
  simp only [part, streamOf, h]
  generalize streamsOf (mapAll t.label cs) = inner
  split_ifs
  · cases (t.label i).token <;> cases inner <;> rfl
  · cases inner with
    | error e => rfl
    | ok parts => simp_all [bind, Except.bind, Layout.join]
  · cases inner with
    | error e => rfl
    | ok parts => simp_all [bind, Except.bind, Layout.join]
  · rfl

theorem mapM_part (h : t.Linked kids) {row : List (Tree NodeId)} (hrow : Follows kids row) :
    ∀ depth : Nat, (∀ c : Nat, c ∈ row.map value → t.size ≤ depth + c) →
      (row.map value).mapM (t.part (t.slotsBelow depth)) = streamsOf (mapAll t.label row) := by
  induction hrow with
  | nil => simp [streamsOf]; rfl
  | @cons i cs rest htop _ _ ihcs ihrest =>
    intro depth hdepth
    have hi := hdepth i (by simp)
    have hbelow : ∀ layout, t.slotsBelow depth layout i =
        streamsOf (mapAll t.label cs) >>= fun parts => .ok (Layout.join layout parts) := by
      intro layout
      cases depth with
      | zero =>
        have hnil := h.kids_eq_nil (j := i) (by omega)
        rw [htop, List.map_eq_nil_iff] at hnil
        subst hnil
        cases layout <;> simp [streamsOf] <;> rfl
      | succ depth =>
        rw [slotsBelow_succ, h.children_eq, htop, ihcs depth fun c hc => by
          have := (h.later i c (htop ▸ hc)).1
          omega]
    simp only [List.map_cons, value_node, List.mapM_cons, part_eq hbelow, mapAll_cons, map_node,
      streamsOf]
    rw [ihrest depth fun c hc => hdepth c (by simp [hc])]
    rfl

/-- The stream below a node is the stream of the trees that are read below it. -/
theorem slotsBelow_eq (h : t.Linked kids) {cs : List (Tree NodeId)} (htop : kids i = cs.map value)
    (hcs : Follows kids cs) (layout : Layout) :
    t.slotsBelow (t.size + 1) layout i =
      streamsOf (mapAll t.label cs) >>= fun parts => .ok (layout.join parts) := by
  rw [slotsBelow_succ, h.children_eq, htop, mapM_part h hcs t.size fun c _ => Nat.le_add_right _ _]

end Forest

end Hyperstory
