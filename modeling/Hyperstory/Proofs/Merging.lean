import Mathlib.Data.List.SplitBy
import Hyperstory.Proofs.WellLinked

/-! Neighbouring texts joined into one: what is left of each list of siblings, and that nothing is
left to join. -/
namespace Hyperstory

open Hyperstory.Tree

/-- A node and what it holds. -/
abbrev Labelled := NodeId × Node

namespace Labelled

def isText (x : Labelled) : Bool := x.2.kind == "text"

def bothTexts (x y : Labelled) : Bool := x.isText && y.isText

/-- The text of a node; none reads as the empty text. -/
def text (x : Labelled) : String := x.2.literal.getD ""

/-- The first of several neighbouring texts with the text of all of them; anything else as it
is. -/
def joinRun : List Labelled → List Labelled
  | x :: y :: rest =>
    [(x.1, { x.2 with literal := some (String.join ((x :: y :: rest).map text)) })]
  | run => run

/-- Each longest run of neighbouring texts joined into one. -/
def joinTexts (l : List Labelled) : List Labelled :=
  (l.splitBy bothTexts).flatMap joinRun

def join (x y : Labelled) : Labelled := (x.1, { x.2 with literal := some (x.text ++ y.text) })

/-- No two neighbours are texts. -/
def Parted (l : List Labelled) : Prop := l.IsChain fun x y => bothTexts x y = false

/-- A node put before a list in which no two neighbours are texts. -/
def push (x : Labelled) : List Labelled → List Labelled
  | [] => [x]
  | y :: l => if bothTexts x y then join x y :: l else x :: y :: l

section Lists

variable {x y a b : Labelled} {l r : List Labelled}

@[simp]
theorem isText_join : (join x y).isText = x.isText := rfl

theorem splitBy_cons_of_rel {α : Type} {rel : α → α → Bool} {x y : α} {l g : List α}
    {gs : List (List α)} (hsplit : l.splitBy rel = (y :: g) :: gs) (hxy : rel x y = true) :
    (x :: l).splitBy rel = (x :: y :: g) :: gs := by
  rw [List.splitBy_eq_iff] at hsplit ⊢
  obtain ⟨rfl, hnil, hchain, hgroups⟩ := hsplit
  refine ⟨rfl, by simpa using hnil, ?_, ?_⟩
  · rw [List.forall_mem_cons] at hchain ⊢
    exact ⟨hchain.1.cons_cons hxy, hchain.2⟩
  · cases gs with
    | nil => simp
    | cons g' gs => simpa using hgroups

theorem splitBy_cons_of_not_rel {α : Type} {rel : α → α → Bool} {x y : α} {l : List α}
    (hxy : rel x y = false) : (x :: y :: l).splitBy rel = [x] :: (y :: l).splitBy rel := by
  exact List.splitBy_append (r := rel) (l := [x]) (m := y :: l) (by simpa using hxy)

theorem exists_group {α : Type} (rel : α → α → Bool) (y : α) (l : List α) :
    ∃ g gs, (y :: l).splitBy rel = (y :: g) :: gs := by
  have hflat := List.flatten_splitBy rel (y :: l)
  have hnil := List.nil_notMem_splitBy rel (y :: l)
  cases hsplit : (y :: l).splitBy rel with
  | nil =>
    rw [hsplit] at hflat
    cases hflat
  | cons group gs =>
    rw [hsplit] at hflat hnil
    cases group with
    | nil => simp at hnil
    | cons z g =>
      obtain rfl : z = y := (List.cons.inj hflat).1
      exact ⟨g, gs, rfl⟩

/-- A run becomes one node of the same kind with all of the text. -/
theorem exists_joinRun (y : Labelled) (g : List Labelled) :
    ∃ z, joinRun (y :: g) = [z] ∧ z.isText = y.isText ∧
      z.text = String.join ((y :: g).map text) := by
  cases g with
  | nil => exact ⟨y, rfl, rfl, by simp⟩
  | cons z g => exact ⟨_, rfl, rfl, rfl⟩

/-- The joined list is made from its end by putting one node after the other in front. -/
theorem joinTexts_cons (x : Labelled) (l : List Labelled) :
    joinTexts (x :: l) = push x (joinTexts l) := by
  cases l with
  | nil => rfl
  | cons y l =>
    obtain ⟨g, gs, hgroup⟩ := exists_group bothTexts y l
    obtain ⟨z, hrun, hkind, htext⟩ := exists_joinRun y g
    have htail : joinTexts (y :: l) = z :: gs.flatMap joinRun := by
      rw [joinTexts, hgroup, List.flatMap_cons, hrun, List.singleton_append]
    have hboth : bothTexts x z = bothTexts x y := by rw [bothTexts, bothTexts, hkind]
    cases hxy : bothTexts x y with
    | true =>
      rw [htail, push, hboth, hxy, if_pos rfl, joinTexts, splitBy_cons_of_rel hgroup hxy,
        List.flatMap_cons, joinRun, join, htext, List.map_cons, String.join_cons,
        List.singleton_append]
    | false =>
      rw [htail, push, hboth, hxy, if_neg Bool.false_ne_true, joinTexts,
        splitBy_cons_of_not_rel hxy, List.flatMap_cons, ← joinTexts, htail]
      rfl

theorem join_join (x y z : Labelled) : join x (join y z) = join (join x y) z := by
  simp [join, text, String.append_assoc]

/-- Two neighbouring texts may be joined first. -/
theorem joinTexts_join (hx : x.isText = true) (hy : y.isText = true) (l r : List Labelled) :
    joinTexts (l ++ x :: y :: r) = joinTexts (l ++ join x y :: r) := by
  induction l with
  | nil =>
    simp only [List.nil_append, joinTexts_cons]
    cases hr : joinTexts r with
    | nil => simp [push, bothTexts, hx, hy]
    | cons z r =>
      cases hz : z.isText with
      | true => simp [push, bothTexts, hx, hy, hz, join_join]
      | false => simp [push, bothTexts, hx, hy, hz]
  | cons w l ih => rw [List.cons_append, List.cons_append, joinTexts_cons, joinTexts_cons, ih]

/-- Where no two neighbours are texts there is nothing to join. -/
theorem joinTexts_of_parted (h : Parted l) : joinTexts l = l := by
  induction l with
  | nil => rfl
  | cons x l ih =>
    rw [joinTexts_cons, ih h.tail]
    cases l with
    | nil => rfl
    | cons y l => rw [push, (List.isChain_cons_cons.mp h).1, if_neg Bool.false_ne_true]

end Lists

end Labelled

open Labelled

/-- A text is a leaf and has a literal. -/
def TextLeaf (n : Node) : Prop := n.kind = "text" → n.container = false ∧ n.literal.isSome = true

namespace Forest

/-- Nodes with what they hold. -/
def labelled (t : Forest) (l : List NodeId) : List Labelled := l.map fun i => (i, t.label i)

theorem labelled_congr {t t' : Forest} {l : List NodeId} (h : ∀ j ∈ l, t'.label j = t.label j) :
    t'.labelled l = t.labelled l :=
  List.map_congr_left fun j hj => by rw [h j hj]

/-- Neighbouring texts were joined among the children of the nodes `S`, and nothing else has
changed. -/
structure Condenses (S : NodeId → Prop) (t t' : Forest) : Prop where
  size : t'.size = t.size
  label : ∀ j, { t'.label j with literal := (t.label j).literal } = t.label j
  literal : ∀ j, (t.label j).literal.isSome = true → (t'.label j).literal.isSome = true
  subset : ∀ q, t'.children q ⊆ t.children q
  children : ∀ q, ¬ S q → t'.children q = t.children q
  others : ∀ j, (∀ q, S q → j ∉ t.children q) →
    t'.label j = t.label j ∧ t'.around j = t.around j
  joined : ∀ q, joinTexts (t'.labelled (t'.children q)) = joinTexts (t.labelled (t.children q))

namespace Condenses

variable {S S' : NodeId → Prop} {t t' t'' : Forest}

theorem refl (S : NodeId → Prop) (t : Forest) : Condenses S t t where
  size := rfl
  label _ := rfl
  literal _ := id
  subset _ := List.Subset.refl _
  children _ _ := rfl
  others _ _ := ⟨rfl, rfl⟩
  joined _ := rfl

theorem trans (h : Condenses S t t') (h' : Condenses S t' t'') : Condenses S t t'' where
  size := h'.size.trans h.size
  label j := by
    have hj := h.label j
    rw [← h'.label j] at hj
    exact hj
  literal j hj := h'.literal j (h.literal j hj)
  subset q := List.Subset.trans (h'.subset q) (h.subset q)
  children q hq := (h'.children q hq).trans (h.children q hq)
  others j hj := by
    obtain ⟨hlabel, haround⟩ := h.others j hj
    obtain ⟨hlabel', haround'⟩ := h'.others j fun q hq hmem => hj q hq (h.subset q hmem)
    exact ⟨hlabel'.trans hlabel, haround'.trans haround⟩
  joined q := (h'.joined q).trans (h.joined q)

theorem mono (h : Condenses S t t') (hS : ∀ q, S q → S' q) : Condenses S' t t' where
  size := h.size
  label := h.label
  literal := h.literal
  subset := h.subset
  children q hq := h.children q fun hs => hq (hS q hs)
  others j hj := h.others j fun q hq => hj q (hS q hq)
  joined := h.joined

theorem kind (h : Condenses S t t') (j : NodeId) : (t'.label j).kind = (t.label j).kind := by
  rw [← h.label j]

theorem container (h : Condenses S t t') (j : NodeId) :
    (t'.label j).container = (t.label j).container := by
  rw [← h.label j]

theorem textLeaf (h : Condenses S t t') {j : NodeId} (hj : TextLeaf (t.label j)) :
    TextLeaf (t'.label j) := by
  intro hkind
  obtain ⟨hc, hlit⟩ := hj ((h.kind j).symm.trans hkind)
  exact ⟨(h.container j).trans hc, h.literal j hlit⟩

theorem walked (h : Condenses S t t') {q : NodeId} (hq : ¬ S q) : t'.walked q = t.walked q := by
  unfold Forest.walked
  rw [h.container, h.children q hq]

theorem parted (h : Condenses S t t') (l : List NodeId) :
    Parted (t'.labelled l) ↔ Parted (t.labelled l) := by
  have hboth : ∀ i j, bothTexts (i, t'.label i) (j, t'.label j) =
      bothTexts (i, t.label i) (j, t.label j) := fun i j => by
    simp only [bothTexts, isText, h.kind]
  unfold Parted labelled
  rw [List.isChain_map, List.isChain_map]
  simp only [hboth]

end Condenses

section Step

variable {t : Forest} {p a i : NodeId} {l r : List NodeId}

/-- The forest after a text `i` was joined to the text `a`. -/
def joinInto (t : Forest) (a i : NodeId) : Forest :=
  (t.modify a fun n =>
    { n with literal := some (Labelled.text (a, t.label a) ++ Labelled.text (i, t.label i)) }).unlink i

theorem mergeStep_joins (ha : TextLeaf (t.label a)) (hat : (t.label a).kind = "text")
    (hit : (t.label i).kind = "text") :
    t.mergeStep (some a) i = (t.joinInto a i, .ok (some a)) := by
  obtain ⟨text, htext⟩ := Option.isSome_iff_exists.mp (ha hat).2
  have hat : (t.node a).kind = "text" := hat
  have hit : (t.node i).kind = "text" := hit
  have hlit : (t.node a).literal = some text := htext
  simp only [mergeStep, hat, hit, hlit, beq_self_eq_true, Bool.and_self, if_true]
  rw [joinInto, Labelled.text, htext]
  rfl

theorem mergeStep_passes (h : bothTexts (a, t.label a) (i, t.label i) = false) :
    t.mergeStep (some a) i = (t, .ok (some i)) := by
  have hkinds : ((t.node i).kind == "text" && (t.node a).kind == "text") = false := by
    rw [Bool.and_comm]
    exact h
  simp only [mergeStep, hkinds, Bool.false_eq_true, if_false]

theorem label_joinInto (ha : a < t.size) (j : NodeId) :
    (t.joinInto a i).label j =
      if j = a then (Labelled.join (a, t.label a) (i, t.label i)).2 else t.label j := by
  rw [joinInto, label_unlink, label_modify]
  by_cases hja : j = a
  · subst hja
    rw [if_pos ⟨rfl, ha⟩, if_pos rfl]
    rfl
  · rw [if_neg fun h => hja h.1.symm, if_neg hja]

theorem joinInto_wellLinked (h : t.WellLinked) (hk : t.children p = l ++ a :: i :: r) :
    (t.joinInto a i).WellLinked ∧
      (∀ q, (t.joinInto a i).children q = if q = p then l ++ a :: r else t.children q) ∧
      ∀ j, j ∉ t.children p → (t.joinInto a i).around j = t.around j := by
  unfold joinInto
  generalize Labelled.text (a, t.label a) ++ Labelled.text (i, t.label i) = joined
  have hlinks : ∀ n : Node, { n with literal := some joined }.links = n.links := fun _ => rfl
  have hmod := h.modify a hlinks
  have hchildren := h.children_modify a hlinks
  have hk' : (t.modify a fun n => { n with literal := some joined }).children p =
      (l ++ [a]) ++ i :: r := by
    rw [hchildren, hk, List.append_cons]
  refine ⟨hmod.unlink hk', fun q => ?_, fun j hj => ?_⟩
  · rw [hmod.children_unlink hk', hchildren, ← List.append_cons]
  · rw [hmod.around_unlink hk' (by rwa [hchildren])]
    simp only [around, links_modify t a j hlinks]

theorem joinInto_condenses (h : t.WellLinked) (hk : t.children p = l ++ a :: i :: r)
    (hat : (t.label a).kind = "text") (hit : (t.label i).kind = "text") :
    Condenses (· = p) t (t.joinInto a i) := by
  obtain ⟨-, hchildren, haround⟩ := joinInto_wellLinked h hk
  have hmem : a ∈ t.children p := by simp [hk]
  have hlabel := label_joinInto (t := t) (i := i) (h.lt_size hmem)
  have hsub : l ++ a :: r ⊆ l ++ a :: i :: r := by
    intro c hc
    simp only [List.mem_append, List.mem_cons] at hc ⊢
    tauto
  refine ⟨?_, fun j => ?_, fun j hj => ?_, fun q => ?_, fun q hq => ?_, fun j hj => ?_, fun q => ?_⟩
  · simp [joinInto]
  · rw [hlabel]
    split_ifs with hja
    · rw [hja]
      rfl
    · rfl
  · rw [hlabel]
    split_ifs with hja
    · rfl
    · exact hj
  · rw [hchildren]
    split_ifs with hqp
    · rw [hqp, hk]
      exact hsub
    · exact List.Subset.refl _
  · rw [hchildren, if_neg hq]
  · have hjp := hj p rfl
    refine ⟨?_, haround j hjp⟩
    rw [hlabel, if_neg]
    rintro rfl
    exact hjp hmem
  · have hold : ∀ {m : List NodeId}, a ∉ m → (t.joinInto a i).labelled m = t.labelled m := by
      refine fun ha => labelled_congr fun j hj => ?_
      rw [hlabel, if_neg]
      rintro rfl
      exact ha hj
    rw [hchildren]
    split_ifs with hqp
    · have hnd := h.nodup_children p
      rw [hk, List.nodup_middle, List.nodup_cons, List.mem_append, List.mem_cons, not_or,
        not_or] at hnd
      obtain ⟨⟨hal, -, har⟩, -⟩ := hnd
      have hnew : (t.joinInto a i).labelled (l ++ a :: r) =
          t.labelled l ++ Labelled.join (a, t.label a) (i, t.label i) :: t.labelled r := by
        rw [← hold hal, ← hold har]
        simp only [labelled, List.map_append, List.map_cons, hlabel, if_true]
        rfl
      rw [hnew, hqp, hk,
        ← joinTexts_join (by simpa [isText] using hat) (by simpa [isText] using hit)]
      simp only [labelled, List.map_append, List.map_cons]
    · rw [hold fun haq => hqp (h.parent_unique haq hmem)]

end Step

/-- The node visited last before what stands behind `l` below `p`. -/
def behind (p : NodeId) (l : List NodeId) : NodeId := l.getLast?.getD p

/-- The pass goes over a row that stands behind `l` below `p`. It leaves `l'` of both, joins texts
only below nodes that it enters, leaves no neighbouring texts below those, and changes nothing
where there are none. -/
structure PassesOver (t : Forest) (root p : NodeId) (l : List NodeId) (row : List (Tree NodeId))
    (r : List NodeId) (t' : Forest) (l' : List NodeId) : Prop where
  wellLinked : t'.WellLinked
  condenses : Condenses (fun q => q ∈ p :: valuesAll row ∧ (t.label q).container = true) t t'
  children : t'.children p = l' ++ r
  parted : Parted (t.labelled l) → Parted (t'.labelled l')
  below : ∀ q ∈ valuesAll row, (t.label q).container = true →
    Parted (t'.labelled (t'.children q))
  same : Parted (t.labelled (t.children p)) →
    (∀ q ∈ valuesAll row, (t.label q).container = true → Parted (t.labelled (t.children q))) →
      t' = t
  run : ∃ n ≤ 2 * (valuesAll row).length, ∀ fuel,
    mergeFrom (n + fuel) (some (behind p l)) (.ahead root p (row.map value ++ r)) t =
      mergeFrom fuel (some (behind p l')) (.ahead root p r) t'

section Pass

variable {t t' t'' : Forest} {root p a i : NodeId} {l l' l'' r : List NodeId}
  {row row' : List (Tree NodeId)}

theorem PassesOver.append (h : PassesOver t root p l row (row'.map value ++ r) t' l')
    (h' : PassesOver t' root p l' row' r t'' l'')
    (hnd : (p :: (valuesAll row ++ valuesAll row')).Nodup) :
    PassesOver t root p l (row ++ row') r t'' l'' := by
  have hcontainer := h.condenses.container
  have hp : ∀ q ∈ valuesAll row, q ∉ p :: valuesAll row' := by
    intro q hq hmem
    rw [List.nodup_cons, List.nodup_append'] at hnd
    rcases List.mem_cons.mp hmem with rfl | hmem
    · exact hnd.1 (List.mem_append_left _ hq)
    · exact hnd.2.2.2 hq hmem
  refine ⟨h'.wellLinked, ?_, h'.children, fun hl => h'.parted (h.parted hl), ?_, ?_, ?_⟩
  · refine (h.condenses.mono fun q hq => ?_).trans (h'.condenses.mono fun q hq => ?_)
    · exact ⟨List.mem_cons.mpr ((List.mem_cons.mp hq.1).imp_right fun h => by simp [h]), hq.2⟩
    · rw [hcontainer] at hq
      exact ⟨List.mem_cons.mpr ((List.mem_cons.mp hq.1).imp_right fun h => by simp [h]), hq.2⟩
  · intro q hq hc
    rw [valuesAll_append, List.mem_append] at hq
    rcases hq with hq | hq
    · rw [h'.condenses.children q fun hs => hp q hq hs.1, h'.condenses.parted]
      exact h.below q hq hc
    · exact h'.below q hq ((hcontainer q).trans hc)
  · intro hparted hbelow
    obtain rfl := h.same hparted fun q hq => hbelow q (by simp [hq])
    exact h'.same hparted fun q hq => hbelow q (by simp [hq])
  · obtain ⟨n, hn, hrun⟩ := h.run
    obtain ⟨n', hn', hrun'⟩ := h'.run
    refine ⟨n + n', ?_, fun fuel => ?_⟩
    · rw [valuesAll_append, List.length_append]
      omega
    · rw [List.map_append, List.append_assoc, Nat.add_assoc, hrun, hrun']

theorem mergeFrom_joins (ha : TextLeaf (t.label a)) (hat : (t.label a).kind = "text")
    (hit : (t.label i).kind = "text") (root : NodeId) (entering : Bool) (fuel : Nat) :
    mergeFrom (fuel + 1) (some a) ⟨root, some i, entering⟩ t =
      mergeFrom fuel (some a) (.after t root ⟨i, entering⟩) (t.joinInto a i) := by
  rw [mergeFrom]
  simp only [Cursor.next?, Option.map_some, mergeStep_joins ha hat hit]

theorem mergeFrom_passes (h : bothTexts (a, t.label a) (i, t.label i) = false) (root : NodeId)
    (entering : Bool) (fuel : Nat) :
    mergeFrom (fuel + 1) (some a) ⟨root, some i, entering⟩ t =
      mergeFrom fuel (some i) (.after t root ⟨i, entering⟩) t := by
  rw [mergeFrom]
  simp only [Cursor.next?, Option.map_some, mergeStep_passes h]

theorem PassesOver.nil (h : t.WellLinked) (hk : t.children p = l ++ r) :
    PassesOver t root p l [] r t l := by
  refine ⟨h, .refl _ t, hk, id, by simp, fun _ _ => rfl, 0, le_rfl, fun fuel => ?_⟩
  rw [Nat.zero_add, List.map_nil, List.nil_append]

theorem not_bothTexts (hi : (t.label i).kind ≠ "text") (x : Labelled) :
    bothTexts x (i, t.label i) = false := by
  rw [bothTexts, show isText (i, t.label i) = false from beq_eq_false_iff_ne.mpr hi, Bool.and_false]

theorem parted_concat (hl : Parted (t.labelled l))
    (hboth : bothTexts (behind p l, t.label (behind p l)) (i, t.label i) = false) :
    Parted (t.labelled (l ++ [i])) := by
  rw [labelled, List.map_append, Parted, List.isChain_append]
  refine ⟨hl, by simp, fun x hx y hy => ?_⟩
  obtain ⟨a, ha, rfl⟩ : ∃ a, l.getLast? = some a ∧ (a, t.label a) = x := by
    simpa [List.getLast?_map] using hx
  obtain rfl : (i, t.label i) = y := by simpa using hy
  rwa [behind, ha] at hboth

@[simp]
theorem behind_concat (p : NodeId) (l : List NodeId) (i : NodeId) : behind p (l ++ [i]) = i := by
  simp [behind]

/-- A leaf that is not joined to what was visited before it. -/
theorem PassesOver.leaf (h : t.WellLinked) (hk : t.children p = l ++ i :: r) (hroot : i ≠ root)
    (hc : (t.label i).container = false)
    (hboth : bothTexts (behind p l, t.label (behind p l)) (i, t.label i) = false) :
    PassesOver t root p l [.node i []] r t (l ++ [i]) := by
  refine ⟨h, .refl _ t, by rw [hk, List.append_cons], fun hl => parted_concat hl hboth, ?_,
    fun _ _ => rfl, 1, by simp, fun fuel => ?_⟩
  · intro q hq hqc
    obtain rfl : q = i := by simpa using hq
    rw [hc] at hqc
    cases hqc
  · rw [Nat.add_comm, behind_concat]
    exact (mergeFrom_passes hboth root true fuel).trans (by rw [h.after_last hk hroot fun _ => hc])

/-- A text that is joined to the text before it. -/
theorem PassesOver.joined (h : t.WellLinked) (hk : t.children p = l ++ a :: i :: r)
    (hroot : i ≠ root) (hpc : (t.label p).container = true) (ha : TextLeaf (t.label a))
    (hi : TextLeaf (t.label i)) (hat : (t.label a).kind = "text")
    (hit : (t.label i).kind = "text") :
    PassesOver t root p (l ++ [a]) [.node i []] r (t.joinInto a i) (l ++ [a]) := by
  obtain ⟨hlinked, hchildren, -⟩ := joinInto_wellLinked h hk
  have hcondenses := joinInto_condenses h hk hat hit
  have hc := (hi hit).1
  refine ⟨hlinked, hcondenses.mono ?_, ?_, (hcondenses.parted _).mpr, ?_, ?_, 1, by simp,
    fun fuel => ?_⟩
  · rintro q rfl
    exact ⟨List.mem_cons_self, hpc⟩
  · rw [hchildren, if_pos rfl, List.append_cons]
  · intro q hq hqc
    obtain rfl : q = i := by simpa using hq
    rw [hc] at hqc
    cases hqc
  · intro hparted
    have hnext : bothTexts (a, t.label a) (i, t.label i) = false := by
      rw [hk, labelled, List.map_append, Parted, List.isChain_append] at hparted
      exact (List.isChain_cons_cons.mp hparted.2.1).1
    simp [bothTexts, isText, hat, hit] at hnext
  · rw [Nat.add_comm, behind_concat]
    refine (mergeFrom_joins ha hat hit root true fuel).trans ?_
    rw [h.after_last (l := l ++ [a]) (by rw [hk, List.append_cons]) hroot fun _ => hc]

/-- A container, if the pass goes over what stands below it. -/
theorem PassesOver.container {cs : List (Tree NodeId)} (h : t.WellLinked)
    (hk : t.children p = l ++ i :: r) (hroot : i ≠ root) (hc : (t.label i).container = true)
    (hit : (t.label i).kind ≠ "text") (htop : t.walked i = cs.map value)
    (hp : p ∉ i :: valuesAll cs) (hbelow : PassesOver t root i [] cs [] t' l') :
    PassesOver t root p l [.node i cs] r t' (l ++ [i]) := by
  have hcondenses := hbelow.condenses
  have hk' : t'.children p = l ++ i :: r := (hcondenses.children p fun hs => hp hs.1).trans hk
  have hlast : t'.children i = l' := by rw [hbelow.children, List.append_nil]
  rw [walked_eq_children hc] at htop
  refine ⟨hbelow.wellLinked, hcondenses.mono fun q hq => ?_, by rw [hk', List.append_cons], ?_, ?_,
    ?_, ?_⟩
  · exact ⟨List.mem_cons_of_mem _ (by simpa using hq.1), hq.2⟩
  · intro hl
    exact (hcondenses.parted _).mpr (parted_concat (p := p) hl (not_bothTexts hit _))
  · intro q hq hqc
    rcases List.mem_cons.mp (show q ∈ i :: valuesAll cs by simpa using hq) with rfl | hq
    · rw [hlast]
      exact hbelow.parted List.isChain_nil
    · exact hbelow.below q hq hqc
  · intro _ hsame
    exact hbelow.same (hsame i (by simp) hc) fun q hq => hsame q (by simp [hq])
  · obtain ⟨n, hn, hrun⟩ := hbelow.run
    refine ⟨n + 2, by simp; omega, fun fuel => ?_⟩
    have henter := mergeFrom_passes (not_bothTexts hit (behind p l, t.label (behind p l))) root true
      (n + (fuel + 1))
    have hleave := mergeFrom_passes (t := t') (a := behind i l') (i := i)
      (not_bothTexts (by rwa [hcondenses.kind]) _) root false fuel
    rw [h.after_enter hc, htop] at henter
    rw [hbelow.wellLinked.after_last hk' hroot (by simp)] at hleave
    rw [behind_concat, show n + 2 + fuel = n + (fuel + 1) + 1 by omega]
    refine henter.trans (Eq.trans ?_ hleave)
    have hinner := hrun (fuel + 1)
    rwa [List.append_nil] at hinner

/-- The pass goes over one child, if it goes over what stands below it. -/
theorem exists_passesOver_child {cs : List (Tree NodeId)} (h : t.WellLinked)
    (hk : t.children p = l ++ i :: r) (hroot : i ≠ root) (hp : (t.label p).kind ≠ "text")
    (hpc : (t.label p).container = true) (htext : ∀ j ∈ t.children p, TextLeaf (t.label j))
    (htop : t.walked i = cs.map value) (hnd : p ∉ i :: valuesAll cs)
    (hbelow : (t.label i).container = true → (t.label i).kind ≠ "text" →
      ∃ t' l', PassesOver t root i [] cs [] t' l') :
    ∃ t' l', PassesOver t root p l [.node i cs] r t' l' := by
  have hi := htext i (by simp [hk])
  cases hc : (t.label i).container with
  | true =>
    have hit : (t.label i).kind ≠ "text" := fun hit => by
      rw [(hi hit).1] at hc
      cases hc
    obtain ⟨t', l', hpass⟩ := hbelow hc hit
    exact ⟨t', l ++ [i], .container h hk hroot hc hit htop hnd hpass⟩
  | false =>
    obtain rfl : cs = [] := by
      rw [walked_eq_nil hc] at htop
      exact List.map_eq_nil_iff.mp htop.symm
    cases hboth : bothTexts (behind p l, t.label (behind p l)) (i, t.label i) with
    | false => exact ⟨t, l ++ [i], .leaf h hk hroot hc hboth⟩
    | true =>
      -- The node above is no text, so the text before stands beside.
      simp only [bothTexts, isText, Bool.and_eq_true, beq_iff_eq] at hboth
      rcases List.eq_nil_or_concat' l with rfl | ⟨l, a, rfl⟩
      · exact absurd hboth.1 hp
      · rw [behind_concat] at hboth
        rw [← List.append_cons] at hk
        have ha := htext a (by simp [hk])
        exact ⟨_, _, .joined h hk hroot hpc ha hi hboth.1 hboth.2⟩

/-- The pass goes over every row. -/
theorem exists_passesOver (h : t.WellLinked) (hrow : Follows t.walked row)
    (hk : t.children p = l ++ (row.map value ++ r)) (hnd : (p :: valuesAll row).Nodup)
    (hroot : root ∉ valuesAll row) (hp : (t.label p).kind ≠ "text")
    (hpc : (t.label p).container = true) (hchildren : ∀ j ∈ t.children p, TextLeaf (t.label j))
    (htext : ∀ j ∈ valuesAll row, TextLeaf (t.label j)) :
    ∃ t' l', PassesOver t root p l row r t' l' := by
  induction row using row_induction generalizing t p l r with
  | nil => exact ⟨t, l, .nil h hk⟩
  | cons i cs rest ihcs ihrest =>
    obtain _ | ⟨htop, hcs, hrest⟩ := hrow
    simp only [valuesAll_cons, values_node, List.cons_append, List.mem_cons, List.mem_append,
      not_or] at hroot htext
    rw [valuesAll_cons, values_node, List.nodup_cons, List.mem_append, not_or,
      List.nodup_append'] at hnd
    obtain ⟨⟨hpi, hprest⟩, hndi, hndrest, hdisjoint⟩ := hnd
    obtain ⟨t₁, l₁, hpass₁⟩ := exists_passesOver_child (l := l) h hk (Ne.symm hroot.1) hp hpc
      hchildren htop hpi fun hc hit => by
        have htop := (walked_eq_children hc).symm.trans htop
        refine ihcs h hcs (by simpa using htop) hndi hroot.2.1 hit hc ?_
          fun j hj => htext j (.inr (.inl hj))
        exact fun j hj => htext j (.inr (.inl (top_subset (htop ▸ hj))))
    have hcondenses := hpass₁.condenses
    have hrest' : Follows t₁.walked rest := hrest.congr fun j hj => by
      refine hcondenses.walked fun hs => ?_
      rcases List.mem_cons.mp hs.1 with rfl | hs
      · exact hprest hj
      · exact hdisjoint (by simpa using hs) hj
    obtain ⟨t₂, l₂, hpass₂⟩ := ihrest hpass₁.wellLinked hrest' hpass₁.children
      (List.nodup_cons.mpr ⟨hprest, hndrest⟩) hroot.2.2 (by rwa [hcondenses.kind])
      (by rwa [hcondenses.container])
      (fun j hj => hcondenses.textLeaf (hchildren j (hcondenses.subset p hj)))
      fun j hj => hcondenses.textLeaf (htext j (.inr (.inr hj)))
    refine ⟨t₂, l₂, hpass₁.append hpass₂ ?_⟩
    simp only [valuesAll_cons, values_node, valuesAll_nil, List.append_nil]
    rw [List.nodup_cons, List.mem_append, not_or, List.nodup_append']
    exact ⟨⟨hpi, hprest⟩, hndi, hndrest, hdisjoint⟩

end Pass

section Whole

variable {t t' : Forest} {root : NodeId}

theorem Within.of_condenses {S : NodeId → Prop} (h : Condenses S t t') {j : NodeId}
    (hj : t'.Within root j) : t.Within root j := by
  induction hj with
  | root => exact .root
  | child _ hc ih =>
    rw [mem_walked, h.container] at hc
    exact .child ih (mem_walked.mpr ⟨hc.1, h.subset _ hc.2⟩)

theorem mergeFrom_done (fuel : Nat) (previous : Option NodeId) (entering : Bool) :
    mergeFrom fuel previous ⟨root, none, entering⟩ t = (t, none) := by
  cases fuel <;> rfl

theorem mergeText_eq (t : Forest) (root : NodeId) :
    ∃ fuel, (0 < t.size → 2 * t.size + 1 ≤ fuel) ∧
      t.mergeText root = mergeFrom fuel (some root) (.after t root ⟨root, true⟩) t := by
  have hbound : t.passBound = (t.passBound - 1) + 1 :=
    (Nat.sub_add_cancel (Nat.mul_pos (Nat.succ_pos _) (Nat.succ_pos _))).symm
  refine ⟨t.passBound - 1, fun hsize => ?_, ?_⟩
  · have hmul : 2 * t.visitBound ≤ t.passBound := Nat.mul_le_mul_right _ (by omega)
    unfold visitBound at hmul
    omega
  · rw [mergeText, hbound]
    rfl

/-- The pass ends, having joined texts below the containers of the tree and left none to join. -/
theorem exists_mergeText (h : t.WellLinked) (htext : ∀ i, t.Within root i → TextLeaf (t.label i)) :
    ∃ t', t.mergeText root = (t', none) ∧ t'.WellLinked ∧
      Condenses (fun q => t.Within root q ∧ (t.label q).container = true) t t' ∧
      (∀ q, t.Within root q → (t.label q).container = true →
        Parted (t'.labelled (t'.children q))) ∧
      ((∀ q, t.Within root q → (t.label q).container = true →
        Parted (t.labelled (t.children q))) → t' = t) := by
  obtain ⟨fuel, hfuel, hmerge⟩ := mergeText_eq t root
  obtain ⟨cs, htop, hcs⟩ := h.exists_row root
  have hwithin : ∀ {j}, t.Within root j ↔ j ∈ root :: valuesAll cs := WellLinked.within_iff htop hcs
  have hnd := h.nodup_below htop hcs
  cases hc : (t.label root).container with
  | false =>
    obtain rfl : cs = [] := by
      rw [walked_eq_nil hc] at htop
      exact List.map_eq_nil_iff.mp htop.symm
    have hafter : Cursor.after t root ⟨root, true⟩ = ⟨root, none, true⟩ := by
      have hc : (t.node root).container = false := hc
      simp [Cursor.after, hc]
    refine ⟨t, ?_, h, .refl _ t, fun q hq hqc => ?_, fun _ => rfl⟩
    · rw [hmerge, hafter, mergeFrom_done]
    · obtain rfl : q = root := by simpa using hwithin.mp hq
      rw [hc] at hqc
      cases hqc
  | true =>
    have hkind : (t.label root).kind ≠ "text" := fun hkind => by
      rw [(htext root .root hkind).1] at hc
      cases hc
    rw [walked_eq_children hc] at htop
    have hbelow : ∀ j ∈ valuesAll cs, TextLeaf (t.label j) := fun j hj =>
      htext j (hwithin.mpr (List.mem_cons_of_mem _ hj))
    obtain ⟨t', l', hpass⟩ := exists_passesOver (l := []) (r := []) h hcs (by simpa using htop) hnd
      (List.nodup_cons.mp hnd).1 hkind hc (fun j hj => hbelow j (top_subset (htop ▸ hj))) hbelow
    have hlast : t'.children root = l' := by rw [hpass.children, List.append_nil]
    refine ⟨t', ?_, hpass.wellLinked, ?_, fun q hq hqc => ?_, fun hparted => ?_⟩
    · obtain ⟨n, hn, hrun⟩ := hpass.run
      have hplaces := h.length_places_le ((walked_eq_children hc).trans htop) hcs
      have hroot : root < t.size := Nat.lt_of_not_le fun hle => by
        rw [label_of_size_le t hle] at hc
        cases hc
      obtain ⟨more, rfl⟩ : ∃ more, fuel = n + (more + 1) := by
        have hle := hfuel (Nat.zero_lt_of_lt hroot)
        exact ⟨fuel - n - 1, by omega⟩
      have hinner := hrun (more + 1)
      have hleave := mergeFrom_passes (t := t') (a := behind root l') (i := root)
        (not_bothTexts (by rwa [hpass.condenses.kind]) _) root false more
      rw [Cursor.after_root, mergeFrom_done] at hleave
      rw [List.append_nil] at hinner
      rw [hmerge, h.after_enter hc, htop]
      exact hinner.trans hleave
    · exact hpass.condenses.mono fun q hq => ⟨hwithin.mpr hq.1, hq.2⟩
    · rcases List.mem_cons.mp (hwithin.mp hq) with rfl | hq
      · rw [hlast]
        exact hpass.parted List.isChain_nil
      · exact hpass.below q hq hqc
    · exact hpass.same (hparted root .root hc) fun q hq =>
        hparted q (hwithin.mpr (List.mem_cons_of_mem _ hq))

/-- Below every container of the tree each longest run of neighbouring texts becomes its first
text with the texts of all of them. All else stays as it is, and there is nothing left to join. -/
theorem mergeText_joins_runs (h : t.WellLinked)
    (htext : ∀ i, t.Within root i → TextLeaf (t.label i)) :
    ∃ t', t.mergeText root = (t', none) ∧ t'.WellLinked ∧ t'.size = t.size ∧
      (∀ p, t.Within root p → (t.label p).container = true →
        t'.labelled (t'.children p) = joinTexts (t.labelled (t.children p)) ∧
          Parted (t'.labelled (t'.children p))) ∧
      (∀ p, ¬ (t.Within root p ∧ (t.label p).container = true) → t'.children p = t.children p) ∧
      (∀ i, (∀ p, t.Within root p → (t.label p).container = true → i ∉ t.children p) →
        t'.label i = t.label i ∧ t'.around i = t.around i) ∧
      t'.mergeText root = (t', none) := by
  obtain ⟨t', hmerge, hlinked, hcondenses, hparted, -⟩ := exists_mergeText h htext
  have hwithin : ∀ {q}, t'.Within root q → t.Within root q := .of_condenses hcondenses
  obtain ⟨t'', hagain, -, -, -, hsame⟩ := exists_mergeText hlinked fun i hi =>
    hcondenses.textLeaf (htext i (hwithin hi))
  obtain rfl := hsame fun q hq hc => hparted q (hwithin hq) ((hcondenses.container q).symm.trans hc)
  refine ⟨t'', hmerge, hlinked, hcondenses.size, fun p hp hc => ?_, hcondenses.children,
    fun i hi => hcondenses.others i fun q hq => hi q hq.1 hq.2, hagain⟩
  have hp := hparted p hp hc
  refine ⟨?_, hp⟩
  rw [← hcondenses.joined p, joinTexts_of_parted hp]

end Whole

/-- Texts, a paragraph and an empty container, in no order. -/
def scatteredNodes : List Node :=
  let text (s : String) : Node := { kind := "text", literal := some s }
  [text "b", text "a", { kind := "paragraph", container := true }, text "c", text "d",
    { kind := "em", container := true }]

/-- The paragraph with the others below it. -/
def scatteredTexts : Forest :=
  let t : Forest := scatteredNodes.foldl (fun t n => (t.add n).1) {}
  ((((t.appendChild 2 1).appendChild 2 0).appendChild 2 5).appendChild 2 3).appendChild 2 4

theorem mergeText_joins_runs_scatteredTexts :
    scatteredTexts.WellLinked ∧
      (∀ i, scatteredTexts.Within 2 i → TextLeaf (scatteredTexts.label i)) ∧
      ∃ t', scatteredTexts.mergeText 2 = (t', none) ∧ t'.children 2 = [1, 5, 3] ∧
        (t'.label 1).literal = some "ab" ∧ (t'.label 3).literal = some "cd" ∧
        t'.mergeText 2 = (t', none) := by
  have hreached : Reached scatteredTexts := by
    unfold scatteredTexts
    refine .append (.append (.append (.append (.append (.adds .empty ?_) ?_ ?_ ?_ ?_) ?_ ?_ ?_ ?_)
      ?_ ?_ ?_ ?_) ?_ ?_ ?_ ?_) ?_ ?_ ?_ ?_
    all_goals decide +kernel
  have htext : ∀ i, scatteredTexts.Within 2 i → TextLeaf (scatteredTexts.label i) := by
    intro i _
    have hsize : scatteredTexts.size = 6 := by decide +kernel
    by_cases hi : i < 6
    · have hall : ∀ i : Fin 6, (scatteredTexts.label i.1).kind = "text" →
          (scatteredTexts.label i.1).container = false ∧
            (scatteredTexts.label i.1).literal.isSome = true := by decide +kernel
      exact hall ⟨i, hi⟩
    · rw [label_of_size_le _ (hsize ▸ Nat.not_lt.mp hi)]
      nofun
  obtain ⟨t', hmerge, -, -, -, -, -, hagain⟩ := mergeText_joins_runs hreached.wellLinked htext
  obtain rfl : (scatteredTexts.mergeText 2).1 = t' := congrArg Prod.fst hmerge
  exact ⟨hreached.wellLinked, htext, _, hmerge, by decide +kernel, by decide +kernel,
    by decide +kernel, hagain⟩

end Forest

end Hyperstory
