import Hyperstory.Proofs.Passes

/-! What replacing a node in place does to a document: new rows stand where old nodes stood. -/
namespace Hyperstory

open Hyperstory.Tree

namespace Forest

variable {t t' t'' : Forest} {kids kids' kids'' : NodeId → List NodeId} {p i s : Nat}
  {l r old : List NodeId}

namespace Document

/-- Only containers have children. -/
theorem container_of_mem (hd : t.Document kids) (hi : i ∈ kids p) :
    (t.label p).container = true := by
  by_contra hc
  rw [hd.leaf p (by simpa using hc)] at hi
  cases hi

theorem add (hd : t.Document kids) {n : Node} (hn : n.links = {}) (hc : n.container = false) :
    (t.add n).1.Document kids := by
  refine hd.step (hd.linked.add hn) (by simp) (fun j hj => ?_) (fun j _ hcj _ => ?_) fun j hcj => ?_
  · rw [label_add, if_neg hj.ne]
    exact .refl _
  · rw [label_add] at hcj
    split_ifs at hcj with hj
    · exact absurd hcj (by simp [hc])
    · rw [label_of_size_le t (by assumption)] at hcj
      cases hcj
  · rw [label_add] at hcj
    split_ifs at hcj with hj
    · exact hd.linked.kids_eq_nil hj.ge
    · exact hd.leaf j hcj

/-- New links among nodes that keep their labels, when one container gets other children. -/
theorem relinked (hd : t.Document kids) (hi : i ∈ kids p) {m : List NodeId}
    (hlinked : t'.Linked (Function.update kids p m)) (hsize : t'.size = t.size)
    (hlabel : ∀ j, t'.label j = t.label j) : t'.Document (Function.update kids p m) := by
  refine hd.step hlinked hsize.ge (fun j _ => ?_) (fun j hj hc => ?_) fun j hc => ?_
  · rw [hlabel]
    exact .refl _
  · rw [hlabel, label_of_size_le t hj] at hc
    cases hc
  · rw [hlabel] at hc
    have hne : j ≠ p := by
      rintro rfl
      rw [hd.container_of_mem hi] at hc
      cases hc
    rw [Function.update_of_ne hne]
    exact hd.leaf j hc

theorem unlink_at (hd : t.Document kids) (hk : kids p = l ++ i :: r) :
    (t.unlink i).Document (Function.update kids p (l ++ r)) :=
  hd.relinked (i := i) (by simp [hk]) (hd.linked.unlink hk) (by simp) (by simp)

theorem insertAfter (hd : t.Document kids) (hk : kids p = l ++ i :: r) (hps : p < s)
    (hs : s < t.size) (hloose : ∀ q, s ∉ kids q) :
    (t.insertAfter i s).Document (Function.update kids p (l ++ i :: s :: r)) :=
  hd.relinked (i := i) (by simp [hk]) (hd.linked.insertAfter hk hps hs hloose) (by simp) (by simp)

theorem insertBefore (hd : t.Document kids) (hk : kids p = l ++ i :: r) (hps : p < s)
    (hs : s < t.size) (hloose : ∀ q, s ∉ kids q) :
    (t.insertBefore i s).Document (Function.update kids p (l ++ s :: i :: r)) :=
  hd.relinked (i := i) (by simp [hk]) (hd.linked.insertBefore hk hps hs hloose) (by simp) (by simp)

end Document

/-- Of the nodes that were there, only `p` has got other children, the `old` ones apart. -/
structure Frame (t : Forest) (kids : NodeId → List NodeId) (p : NodeId) (old : List NodeId)
    (t' : Forest) (kids' : NodeId → List NodeId) : Prop where
  size_le : t.size ≤ t'.size
  label : ∀ j : Nat, j < t.size → j ∉ old → t'.label j = t.label j
  kids : ∀ j : Nat, j < t.size → j ≠ p → j ∉ old → kids' j = kids j

theorem Frame.trans {old' : List NodeId} (h : Frame t kids p old t' kids')
    (h' : Frame t' kids' p old' t'' kids'') (hold : ∀ j : Nat, j ∈ old' → j ∈ old ∨ t.size ≤ j) :
    Frame t kids p old t'' kids'' := by
  have hout : ∀ j : Nat, j < t.size → j ∉ old → j ∉ old' := by
    intro j hj hjo hjo'
    rcases hold j hjo' with hj' | hj'
    · exact hjo hj'
    · omega
  refine ⟨h.size_le.trans h'.size_le, fun j hj hjo => ?_, fun j hj hjp hjo => ?_⟩
  · rw [h'.label j (hj.trans_le h.size_le) (hout j hj hjo), h.label j hj hjo]
  · rw [h'.kids j (hj.trans_le h.size_le) hjp (hout j hj hjo), h.kids j hj hjp hjo]

theorem Frame.mono {old' : List NodeId} (h : Frame t kids p old t' kids')
    (hsub : ∀ j ∈ old, j ∈ old') : Frame t kids p old' t' kids' :=
  ⟨h.size_le, fun j hj hjo => h.label j hj fun hj' => hjo (hsub j hj'),
    fun j hj hjp hjo => h.kids j hj hjp fun hj' => hjo (hsub j hj')⟩

/-- The rest of a row is as it was when its first tree is replaced. -/
theorem Frame.rest {cs rest : List (Tree NodeId)} (hd : t.Document kids)
    (hk : kids p = l ++ i :: rest.map value) (htop : kids i = cs.map value)
    (hcs : Follows kids cs) (hrest : Follows kids rest)
    (h : Frame t kids p (i :: valuesAll cs) t' kids') :
    Follows kids' rest ∧ mapAll t'.label rest = mapAll t.label rest := by
  have hdisj := hd.linked.disjoint_of_append (p := p) (l := [.node i cs]) (u := l) (v := [])
    (by simp [hk]) (.cons htop hcs .nil) hrest
  have hout : ∀ j ∈ valuesAll rest, j ∉ i :: valuesAll cs := fun j hj hj' =>
    hdisj j (by simpa using hj') hj
  have htops : ∀ c : Nat, c ∈ rest.map value → p < c ∧ c < t.size := fun c hc =>
    hd.linked.later p c (by simp [hk, List.mem_map.mp hc])
  have hlater : ∀ j : Nat, j ∈ valuesAll rest → p < j ∧ j < t.size := fun j hj =>
    ⟨hd.linked.lt_of_mem_valuesAll hrest (fun c hc => (htops c hc).1) hj,
      hd.linked.lt_size_of_mem_valuesAll hrest (fun c hc => (htops c hc).2) hj⟩
  exact ⟨hrest.congr fun j hj => h.kids j (hlater j hj).2 (hlater j hj).1.ne' (hout j hj),
    mapAll_congr fun j hj => h.label j (hlater j hj).2 (hout j hj)⟩

/-- Between the children `l` and `r` of `p`, the places of `new` stand where nodes of `old` stood,
and their labels read `out`. -/
structure Rewrites (t : Forest) (kids : NodeId → List NodeId) (p : NodeId) (l old r : List NodeId)
    (out : List (Tree Node)) (t' : Forest) (kids' : NodeId → List NodeId)
    (new : List (Tree NodeId)) : Prop where
  document : t'.Document kids'
  frame : Frame t kids p old t' kids'
  here : kids' p = l ++ new.map value ++ r
  follows : Follows kids' new
  fresh : ∀ j : Nat, j ∈ valuesAll new → j ∈ old ∨ t.size ≤ j
  reads : mapAll t'.label new = out

namespace Rewrites

variable {out out' : List (Tree Node)} {new new' : List (Tree NodeId)}

/-- The places of a new row belong to the new table and are not the node above. -/
theorem place_bounds (h : Rewrites t kids p l old r out t' kids' new) {j : Nat}
    (hj : j ∈ valuesAll new) : p < j ∧ j < t'.size := by
  have hlater : ∀ c : Nat, c ∈ new.map value → p < c ∧ c < t'.size := fun c hc =>
    h.document.linked.later p c (by rw [h.here]; simp [List.mem_map.mp hc])
  exact ⟨h.document.linked.lt_of_mem_valuesAll h.follows (fun c hc => (hlater c hc).1) hj,
    h.document.linked.lt_size_of_mem_valuesAll h.follows (fun c hc => (hlater c hc).2) hj⟩

theorem mono {old' : List NodeId} (h : Rewrites t kids p l old r out t' kids' new)
    (hsub : ∀ j ∈ old, j ∈ old') : Rewrites t kids p l old' r out t' kids' new :=
  ⟨h.document, h.frame.mono hsub, h.here, h.follows, fun j hj => (h.fresh j hj).imp_left (hsub j),
    h.reads⟩

theorem ne_nil (h : Rewrites t kids p l old r out t' kids' new) (hout : out ≠ []) : new ≠ [] := by
  rintro rfl
  exact hout (by simpa using h.reads.symm)

/-- One row is replaced and then the row right after it. -/
theorem append (row : List (Tree NodeId)) {old' : List NodeId}
    (h : Rewrites t kids p l old (row.map value ++ r) out t' kids' new)
    (hrow : Follows kids' row)
    (h' : Rewrites t' kids' p (l ++ new.map value) (valuesAll row) r out' t'' kids'' new')
    (hsub : ∀ j ∈ old, j ∈ old') (hold : ∀ j : Nat, j ∈ valuesAll row → j ∈ old' ∨ t.size ≤ j) :
    Rewrites t kids p l old' r (out ++ out') t'' kids'' (new ++ new') := by
  have hdisj := h.document.linked.disjoint_of_append (p := p) (u := l) (v := r)
    (by simp [h.here]) h.follows hrow
  have hkeep : ∀ j ∈ valuesAll new, kids'' j = kids' j := fun j hj =>
    h'.frame.kids j (h.place_bounds hj).2 (h.place_bounds hj).1.ne' (hdisj j hj)
  have hlabel : ∀ j ∈ valuesAll new, t''.label j = t'.label j := fun j hj =>
    h'.frame.label j (h.place_bounds hj).2 (hdisj j hj)
  refine ⟨h'.document, (h.frame.mono hsub).trans h'.frame hold, ?_, ?_, fun j hj => ?_, ?_⟩
  · simp [h'.here]
  · exact Follows.append_iff.mpr ⟨h.follows.congr hkeep, h'.follows⟩
  · rw [valuesAll_append, List.mem_append] at hj
    rcases hj with hj | hj
    · exact (h.fresh j hj).imp_left (hsub j)
    · rcases h'.fresh j hj with hj | hj
      · exact hold j hj
      · exact Or.inr (h.frame.size_le.trans hj)
  · rw [mapAll_append, mapAll_congr hlabel, h.reads, h'.reads]

/-- A replacement may follow a change of nodes that it does away with. -/
theorem after {old' : List NodeId} (hframe : Frame t kids p old t' kids')
    (h : Rewrites t' kids' p l old' r out t'' kids'' new)
    (hold : ∀ j : Nat, j ∈ old' → j ∈ old ∨ t.size ≤ j) :
    Rewrites t kids p l old r out t'' kids'' new := by
  refine ⟨h.document, hframe.trans h.frame hold, h.here, h.follows, fun j hj => ?_, h.reads⟩
  rcases h.fresh j hj with hj | hj
  · exact hold j hj
  · exact Or.inr (hframe.size_le.trans hj)

/-- The children of `p` are linked anew around a row. -/
theorem relink (h : Rewrites t kids p l old r out t' kids' new) (new' : List (Tree NodeId))
    (r' : List NodeId)
    (hd : t''.Document (Function.update kids' p (l ++ new'.map value ++ r')))
    (hsize : t'.size ≤ t''.size) (hlabel : ∀ j : Nat, j < t'.size → t''.label j = t'.label j)
    (hnew : Follows kids' new') (hfresh : ∀ j : Nat, j ∈ valuesAll new' → j ∈ old ∨ t.size ≤ j)
    (hp : p ∉ valuesAll new') :
    Rewrites t kids p l old r' (mapAll t''.label new') t''
      (Function.update kids' p (l ++ new'.map value ++ r')) new' := by
  have hframe : Frame t' kids' p [] t'' (Function.update kids' p (l ++ new'.map value ++ r')) :=
    ⟨hsize, fun j hj _ => hlabel j hj, fun j _ hjp _ => Function.update_of_ne hjp _ _⟩
  refine ⟨hd, h.frame.trans hframe (by simp), by simp, ?_, hfresh, rfl⟩
  refine hnew.congr fun j hj => Function.update_of_ne ?_ _ _
  rintro rfl
  exact hp hj

/-- What stands below a node is rewritten, and the node stays over it. -/
theorem wrap {cs : List (Tree NodeId)} (hd : t.Document kids) (hk : kids p = l ++ i :: r)
    (htop : kids i = cs.map value) (hcs : Follows kids cs)
    (h : Rewrites t kids i [] (valuesAll cs) [] out t' kids' new) :
    Rewrites t kids p l (i :: valuesAll cs) r [.node (t.label i) out] t' kids' [.node i new] := by
  obtain ⟨hpi, hi⟩ := hd.linked.later p i (by simp [hk])
  have hbelow : ∀ c : Nat, c ∈ cs.map value → i < c := fun c hc =>
    (hd.linked.later i c (htop ▸ hc)).1
  have hpcs : p ∉ valuesAll cs := fun hp =>
    (hpi.trans (hd.linked.lt_of_mem_valuesAll hcs hbelow hp)).ne rfl
  have hics := hd.linked.notMem_below htop hcs
  refine ⟨h.document, ⟨h.frame.size_le, fun j hj hjo => ?_, fun j hj hjp hjo => ?_⟩, ?_, ?_, ?_, ?_⟩
  · exact h.frame.label j hj fun hj' => hjo (by simp [hj'])
  · exact h.frame.kids j hj (fun hji => hjo (by simp [hji])) fun hj' => hjo (by simp [hj'])
  · rw [h.frame.kids p (hpi.trans hi) hpi.ne hpcs, hk]
    simp
  · exact .cons (by simpa using h.here) h.follows .nil
  · intro j hj
    simp only [valuesAll_cons, values_node, valuesAll_nil, List.append_nil, List.mem_cons] at hj ⊢
    rcases hj with rfl | hj
    · exact Or.inl (Or.inl rfl)
    · exact (h.fresh j hj).imp_left Or.inr
  · simp [h.frame.label i hi hics, h.reads]

theorem same {row : List (Tree NodeId)} (hd : t.Document kids) (hrow : Follows kids row)
    (hk : kids p = l ++ row.map value ++ r) :
    Rewrites t kids p l (valuesAll row) r (mapAll t.label row) t kids row :=
  ⟨hd, ⟨le_rfl, fun _ _ _ => rfl, fun _ _ _ _ => rfl⟩, hk, hrow, fun _ hj => Or.inl hj, rfl⟩

theorem same_node (hd : t.Document kids) (hk : kids p = l ++ i :: r) {cs : List (Tree NodeId)}
    (htop : kids i = cs.map value) (hcs : Follows kids cs) :
    Rewrites t kids p l (i :: valuesAll cs) r [.node (t.label i) (mapAll t.label cs)] t kids
      [.node i cs] := by
  simpa using same hd (.cons htop hcs .nil) (p := p) (l := l) (r := r) (by simp [hk])

theorem same_leaf (hd : t.Document kids) (hk : kids p = l ++ i :: r)
    (hc : (t.label i).container = false) :
    Rewrites t kids p l [i] r [.node (t.label i) []] t kids [.node i []] := by
  simpa using same hd (.cons (hd.leaf i hc) .nil .nil) (p := p) (l := l) (r := r) (by simp [hk])

/-- A new leaf takes the place of a node. -/
theorem leaf (hd : t.Document kids) (hk : kids p = l ++ i :: r) {n : Node} (hn : n.links = {})
    (hd' : t'.Document (Function.update kids p (l ++ t.size :: r))) (hsize : t'.size = t.size + 1)
    (hlabel : ∀ j, t'.label j = (t.add n).1.label j) :
    Rewrites t kids p l [] r [.node n []] t' (Function.update kids p (l ++ t.size :: r))
      [.node t.size []] := by
  obtain ⟨hpi, hi⟩ := hd.linked.later p i (by simp [hk])
  have hsame : Rewrites t kids p l [] (i :: r) [] t kids [] := by
    simpa using same hd Follows.nil (r := i :: r) (by simpa using hk)
  have hrel := hsame.relink [.node t.size []] r (by simpa using hd') (by omega)
    (fun j hj => by rw [hlabel, label_add, if_neg hj.ne])
    (.cons (hd.linked.kids_eq_nil le_rfl) .nil .nil) (by simp) (by simpa using (hpi.trans hi).ne)
  have hself : { n with links := {} } = n := by
    obtain ⟨⟩ := n
    obtain rfl := hn
    rfl
  simpa [hlabel, label_add, hself] using hrel

end Rewrites

end Forest

namespace Expansion

open Forest

variable {t : Forest} {kids : NodeId → List NodeId} {p i : Nat} {l r : List NodeId}

theorem add_snd (t : Forest) (n : Node) : (t.add n).2 = t.size := rfl

theorem markupNode_label (t : Forest) (i : NodeId) (markup : String) :
    markupNode (t.label i) markup = markupNode (t.node i) markup := rfl

theorem replace_fst (t : Forest) (i : NodeId) (markup : String) : (replace t i markup).1 =
    ((t.add (markupNode (t.label i) markup)).1.insertBefore i t.size).unlink i := by
  rw [markupNode_label, ← add_snd t (markupNode (t.node i) markup)]
  unfold replace
  rfl

theorem replace_rewrites (hd : t.Document kids) (hk : kids p = l ++ i :: r) (markup : String) :
    ∃ kids', Rewrites t kids p l [] r [.node (markupNode (t.label i) markup) []]
      (replace t i markup).1 kids' [.node t.size []] := by
  obtain ⟨hpi, hi⟩ := hd.linked.later p i (by simp [hk])
  have hadd := hd.add (n := markupNode (t.label i) markup) rfl rfl
  have hput := hadd.insertBefore hk (hpi.trans hi) (by simp) hd.linked.size_notMem
  have hcut := hput.unlink_at (p := p) (l := l ++ [t.size]) (r := r) (i := i) (by simp)
  rw [Function.update_idem, List.append_assoc, List.singleton_append] at hcut
  rw [replace_fst]
  exact ⟨_, .leaf hd hk rfl hcut (by simp) (by simp)⟩

/-- The expansion of a directive right after a leaf that keeps what stands before it. -/
def marked (t : Forest) (i : NodeId) (d : Directive) : Forest :=
  let n := t.label i
  ((t.add (markupNode n (Markup.expansionIn n.kind d.reference))).1.modify i fun n' =>
    { n' with literal := some (String.ofList (n.characters.take d.start)) }).insertAfter i t.size

/-- The same with a leaf for what stands after the directive, if that is anything. -/
def trailed (t : Forest) (i : NodeId) (d : Directive) (o : Opening) : Forest :=
  if ((t.label i).characters.drop d.stop).isEmpty then marked t i d
  else ((marked t i d).add (remainder (t.label i) d o)).1.insertAfter t.size (marked t i d).size

theorem splice_eq (t : Forest) (i : NodeId) (d : Directive) (o : Opening) :
    splice t i d o =
      (if ((t.label i).characters.take d.start).isEmpty then (trailed t i d o).unlink i
        else trailed t i d o, t.size) := by
  rfl

@[simp]
theorem size_marked (t : Forest) (i : NodeId) (d : Directive) :
    (marked t i d).size = t.size + 1 := by simp [marked]

theorem label_marked (t : Forest) (d : Directive) (hi : i < t.size) (j : Nat) :
    (marked t i d).label j =
      if j = t.size then
        markupNode (t.label i) (Markup.expansionIn (t.label i).kind d.reference)
      else if j = i then shortened (t.label i) d
      else t.label j := by
  unfold marked
  rw [label_insertAfter, label_modify]
  by_cases hij : i = j
  · subst hij
    have hlt : i < (t.add (markupNode (t.label i)
        (Markup.expansionIn (t.label i).kind d.reference))).1.size := by simp; omega
    simp only [hlt, and_self, if_true, hi.ne, if_false]
    rw [node_add, if_neg hi.ne]
    rfl
  · rw [if_neg (fun h => hij h.1), label_add, if_neg (Ne.symm hij)]
    rfl

theorem marked_rewrites (hd : t.Document kids) (hk : kids p = l ++ i :: r)
    (hc : (t.label i).container = false) (d : Directive) :
    ∃ kids', Rewrites t kids p l [i] r
      [.node (shortened (t.label i) d) [], expanded (t.label i) d]
      (marked t i d) kids' [.node i [], .node t.size []] := by
  obtain ⟨hpi, hi⟩ := hd.linked.later p i (by simp [hk])
  have hlabel := label_marked t d hi
  have hadd := hd.add
    (n := markupNode (t.label i) (Markup.expansionIn (t.label i).kind d.reference)) rfl rfl
  have hleaf : ((t.add (markupNode (t.label i)
      (Markup.expansionIn (t.label i).kind d.reference))).1.node i).container = false := by
    rw [node_add, if_neg hi.ne]
    exact hc
  have hmod := hadd.modify i
    (f := fun n' => { n' with
      literal := some (String.ofList ((t.label i).characters.take d.start)) })
    (fun _ => rfl) ⟨rfl, rfl, fun h => by rw [hleaf] at h; cases h⟩
  have hput := hmod.insertAfter hk (hpi.trans hi) (by simp) hd.linked.size_notMem
  refine ⟨_, hput, ⟨by simp [marked], fun j hj hji => ?_, fun j _ hjp _ => ?_⟩, ?_, ?_, ?_, ?_⟩
  · have hji : j ≠ i := by simpa using hji
    have := hlabel j
    rw [if_neg hj.ne, if_neg hji] at this
    exact this
  · exact Function.update_of_ne hjp _ _
  · simp
  · have hnil : Function.update kids p (l ++ i :: t.size :: r) i = [] := by
      rw [Function.update_of_ne hpi.ne']
      exact hd.leaf i hc
    have hnew : Function.update kids p (l ++ i :: t.size :: r) t.size = [] := by
      rw [Function.update_of_ne (hpi.trans hi).ne']
      exact hd.linked.kids_eq_nil le_rfl
    exact .cons hnil .nil (.cons hnew .nil .nil)
  · simp
  · simp [hlabel, hi.ne, expanded]

theorem trailed_rewrites (hd : t.Document kids) (hk : kids p = l ++ i :: r)
    (hc : (t.label i).container = false) (d : Directive) (o : Opening) :
    ∃ kids' tail, Rewrites t kids p l [i] (tail ++ r)
      [.node (shortened (t.label i) d) [], expanded (t.label i) d]
      (trailed t i d o) kids' [.node i [], .node t.size []] ∧
      if ((t.label i).characters.drop d.stop).isEmpty then tail = []
      else tail = [t.size + 1] ∧
        (trailed t i d o).label (t.size + 1) = remainder (t.label i) d o := by
  obtain ⟨kids₁, h₁⟩ := marked_rewrites hd hk hc d
  obtain ⟨hps, -⟩ := h₁.place_bounds (j := t.size) (by simp)
  unfold trailed
  split_ifs with hrest
  · exact ⟨kids₁, [], h₁, rfl⟩
  · have hadd := h₁.document.add (n := remainder (t.label i) d o) rfl rfl
    have hput := hadd.insertAfter (p := p) (l := l ++ [i]) (i := t.size) (r := r)
      (s := (marked t i d).size) (by simp [h₁.here]) (by simp; omega) (by simp)
      h₁.document.linked.size_notMem
    rw [show l ++ [i] ++ t.size :: (marked t i d).size :: r =
      l ++ [Tree.node i [], .node t.size []].map value ++ (marked t i d).size :: r by simp] at hput
    have h₂ := h₁.relink [.node i [], .node t.size []] ((marked t i d).size :: r) hput (by simp)
      (fun j hj => by rw [label_insertAfter, label_add, if_neg hj.ne]) h₁.follows h₁.fresh
      (fun hp => (h₁.place_bounds hp).1.ne rfl)
    have hreads : mapAll (((marked t i d).add (remainder (t.label i) d o)).1.insertAfter t.size
        (marked t i d).size).label [.node i [], .node t.size []] =
        mapAll (marked t i d).label [.node i [], .node t.size []] :=
      mapAll_congr fun j hj => by
        rw [label_insertAfter, label_add, if_neg (h₁.place_bounds hj).2.ne]
    rw [hreads, h₁.reads] at h₂
    refine ⟨_, [t.size + 1], by simpa using h₂, rfl, ?_⟩
    rw [label_insertAfter, label_add]
    simp [remainder, splitOff]

/-- The children of the node above once a directive of `i` has given way to its expansion. -/
theorem splice_rewrites (hd : t.Document kids) (hk : kids p = l ++ i :: r)
    (hc : (t.label i).container = false) (d : Directive) (o : Opening) :
    ∃ t' kids' first tail, splice t i d o = (t', t.size) ∧
      Rewrites t kids p l [i] (tail ++ r) (kept (t.label i) d ++ [expanded (t.label i) d]) t' kids'
        (first ++ [.node t.size []]) ∧
      if ((t.label i).characters.drop d.stop).isEmpty then tail = []
      else tail = [t.size + 1] ∧ t'.label (t.size + 1) = remainder (t.label i) d o := by
  obtain ⟨kids₂, tail, h₂, htail⟩ := trailed_rewrites hd hk hc d o
  rw [splice_eq, kept]
  by_cases hbefore : ((t.label i).characters.take d.start).isEmpty = true
  · -- An empty leaf goes.
    have hcut := h₂.document.unlink_at (p := p) (l := l) (i := i) (r := t.size :: (tail ++ r))
      (by simp [h₂.here])
    obtain _ | ⟨-, -, hfollows⟩ := h₂.follows
    have h₃ := h₂.relink [.node t.size []] (tail ++ r) (by simpa using hcut) (by simp) (by simp)
      hfollows (by simp) (by simpa using (h₂.place_bounds (j := t.size) (by simp)).1.ne)
    have hreads := h₂.reads
    simp only [mapAll_cons, mapAll_nil, List.cons.injEq] at hreads
    have hread : mapAll ((trailed t i d o).unlink i).label [.node t.size []] =
        [expanded (t.label i) d] := by
      simpa using hreads.2.1
    rw [hread] at h₃
    rw [if_pos hbefore, if_pos hbefore]
    exact ⟨_, _, [], tail, rfl, h₃, by simpa using htail⟩
  · rw [if_neg hbefore, if_neg hbefore]
    exact ⟨_, kids₂, [.node i []], tail, rfl, h₂, htail⟩

theorem beginSection_eq (t : Forest) (tally : Tally) (c : NodeId) (d : Directive)
    (hc : (t.links c).parent = some i) :
    beginSection t tally c d =
      (tally.declare d.identifier,
        ((t.add (sectionNode .standard tally (t.label i) d)).1.insertAfter i t.size).unlink i,
        t.size) := by
  unfold beginSection
  rw [hc]
  rfl

/-- The beginning of a section stands in place of the paragraph. -/
theorem beginSection_rewrites (hd : t.Document kids) (hk : kids p = l ++ i :: r) (tally : Tally)
    {c : NodeId} (hc : (t.links c).parent = some i) (d : Directive) :
    ∃ t' kids', beginSection t tally c d = (tally.declare d.identifier, t', t.size) ∧
      Rewrites t kids p l [] r [.node (sectionNode .standard tally (t.label i) d) []] t' kids'
        [.node t.size []] := by
  obtain ⟨hpi, hi⟩ := hd.linked.later p i (by simp [hk])
  have hadd := hd.add (n := sectionNode .standard tally (t.label i) d) rfl rfl
  have hput := hadd.insertAfter hk (hpi.trans hi) (by simp) hd.linked.size_notMem
  have hcut := hput.unlink_at (p := p) (l := l) (r := t.size :: r) (i := i) (by simp)
  rw [Function.update_idem] at hcut
  rw [beginSection_eq t tally c d hc]
  exact ⟨_, _, rfl, .leaf hd hk rfl hcut (by simp) (by simp)⟩

theorem altText_eq (h : t.Linked kids) {cs : List (Tree NodeId)} (htop : kids i = cs.map value) :
    altText t i = altOf (mapAll t.label cs) := by
  unfold altText altOf
  rw [h.firstChild, htop]
  cases cs with
  | nil => rfl
  | cons x cs =>
    obtain ⟨c, below⟩ := x
    rfl

/-- The text that an image begins with goes, and the image keeps its place. -/
theorem dropAlt_frame (hd : t.Document kids) (hk : kids p = l ++ i :: r) :
    ∃ kids', (dropAlt t i).Document kids' ∧ Frame t kids p [i] (dropAlt t i) kids' ∧
      kids' p = l ++ i :: r ∧ (dropAlt t i).size = t.size ∧
      ∀ j, (dropAlt t i).label j = t.label j := by
  obtain ⟨hpi, -⟩ := hd.linked.later p i (by simp [hk])
  have hsame : ∃ kids', t.Document kids' ∧ Frame t kids p [i] t kids' ∧ kids' p = l ++ i :: r ∧
      t.size = t.size ∧ ∀ j, t.label j = t.label j :=
    ⟨kids, hd, ⟨le_rfl, fun _ _ _ => rfl, fun _ _ _ _ => rfl⟩, hk, rfl, fun _ => rfl⟩
  unfold dropAlt
  rw [hd.linked.firstChild]
  cases hcs : kids i with
  | nil => exact hsame
  | cons c rest =>
    dsimp only [List.head?_cons]
    split_ifs
    · have hcut := hd.unlink_at (p := i) (l := []) (i := c) (r := rest) hcs
      refine ⟨_, hcut, ⟨by simp, by simp, fun j _ _ hji => ?_⟩, ?_, by simp, by simp⟩
      · exact Function.update_of_ne (by simpa using hji) _ _
      · rw [Function.update_of_ne hpi.ne, hk]
    · exact hsame

/-- An image gives way to its markup, or the loop ends with the problem that is found. -/
theorem image_rewrites (path : String) (hd : t.Document kids) (hk : kids p = l ++ i :: r)
    {cs : List (Tree NodeId)} (htop : kids i = cs.map value) :
    match expandImage path (t.label i) (mapAll t.label cs) with
    | .error e => image path t i = .error e
    | .ok out => ∃ t' kids', image path t i = .ok (t', t.size) ∧
        Rewrites t kids p l [i] r out t' kids' [.node t.size []] := by
  obtain ⟨kids₁, hd₁, hframe, hk₁, hsize, hlabel⟩ := dropAlt_frame hd hk
  unfold expandImage image
  rw [altText_eq hd.linked htop]
  cases altOf (mapAll t.label cs) with
  | none => rfl
  | some alt =>
    dsimp only
    rw [show (t.node i).destination = (t.label i).destination from rfl]
    cases AttrValue.destination (t.label i).destination with
    | error f => rfl
    | ok destination =>
      dsimp only
      cases imageMarkup destination alt with
      | error cause => rfl
      | ok markup =>
        obtain ⟨kids₂, hrewrites⟩ := replace_rewrites hd₁ hk₁ markup
        rw [hsize, hlabel] at hrewrites
        refine ⟨_, kids₂, ?_, .after hframe hrewrites (by simp)⟩
        rw [← hsize]
        rfl

/-- A link gives way to its anchor, unless its text cannot be written. -/
theorem replaceLink_rewrites (hd : t.Document kids) (hk : kids p = l ++ i :: r)
    (hc : (t.label i).container = true) (hkind : (t.label i).kind = "link")
    {cs : List (Tree NodeId)} (htop : kids i = cs.map value) (hcs : Follows kids cs)
    (id : Option String) (action target : String) :
    match anchored (t.label i) (mapAll t.label cs) id action target with
    | .error e => replaceLink t i id action target = .error e
    | .ok out => ∃ t' kids', replaceLink t i id action target = .ok t' ∧
        Rewrites t kids p l (i :: valuesAll cs) r out t' kids' [.node t.size []] := by
  obtain ⟨hpi, hi⟩ := hd.linked.later p i (by simp [hk])
  have hstrip := stripEscapes_stripped hd hi hc htop hcs
  have hd₁ := hd.stripped hstrip
  have hlabel : mapAll (t.stripEscapes i).label cs = mapAll unescaped (mapAll t.label cs) := by
    rw [mapAll_mapAll]
    exact mapAll_congr fun j hj => by rw [hstrip.label, if_pos (List.mem_cons_of_mem i hj)]
  have hself : (t.stripEscapes i).label i = t.label i := by
    rw [hstrip.label, if_pos (by simp)]
    exact unescaped_eq_self fun h => by
      rw [hkind] at h
      exact absurd h (by decide)
  have hframe : Frame t kids p (i :: valuesAll cs) (t.stripEscapes i) kids :=
    ⟨hstrip.size.ge, fun j _ hj => by rw [hstrip.label, if_neg hj], fun _ _ _ _ => rfl⟩
  unfold anchored replaceLink inlineText inlineTokens
  dsimp only
  rw [slotsBelow_eq hd₁.linked htop hcs, hlabel]
  cases streamsOf (mapAll unescaped (mapAll t.label cs)) with
  | error f => rfl
  | ok streams =>
    simp only [bind, Except.bind, Layout.join]
    cases Slot.renderInline (streams.flatMap (·.2)) with
    | error f => rfl
    | ok text =>
      obtain ⟨kids₂, hrewrites⟩ := replace_rewrites hd₁ hk (Markup.anchor id action target text)
      rw [hstrip.size, hself] at hrewrites
      exact ⟨_, kids₂, rfl, .after hframe hrewrites (by simp)⟩

theorem link_eq (path : String) (tally : Tally) (t : Forest) (i : NodeId) :
    link path tally t i =
      match anchorOf? path (t.label i) with
      | .error e => (tally, .error e)
      | .ok none => (tally, .ok t)
      | .ok (some a) =>
        (tally.link a, replaceLink t i (a.id? .standard tally) a.action a.target) := by
  unfold link anchorOf?
  dsimp only
  rw [show (t.node i).destination = (t.label i).destination from rfl]
  cases AttrValue.destination (t.label i).destination with
  | error f => rfl
  | ok destination =>
    dsimp only
    split_ifs
    · rfl
    · cases Destination.ofUrl? (Url.decodeDestination destination) with
      | none => rfl
      | some d =>
        dsimp only
        cases d.modifier with
        | some m =>
          dsimp only
          split_ifs
          · cases d.kind? with
            | none => rfl
            | some kind => cases kind <;> rfl
          · rfl
        | none =>
          cases d.kind? with
          | none => rfl
          | some kind => cases kind <;> rfl

/-- A link stays or gives way to an anchor as the recursion says. -/
theorem link_rewrites (path : String) (tally : Tally) (hd : t.Document kids)
    (hk : kids p = l ++ i :: r) (hc : (t.label i).container = true)
    (hkind : (t.label i).kind = "link") {cs : List (Tree NodeId)} (htop : kids i = cs.map value)
    (hcs : Follows kids cs) :
    match expandLink .standard path tally (t.label i) (mapAll t.label cs) with
    | (tally', .error e) => link path tally t i = (tally', .error e)
    | (tally', .ok out) => ∃ t' kids' new, link path tally t i = (tally', .ok t') ∧
        Rewrites t kids p l (i :: valuesAll cs) r out t' kids' new := by
  rw [link_eq, expandLink]
  cases anchorOf? path (t.label i) with
  | error e => rfl
  | ok a? =>
    cases a? with
    | none => exact ⟨t, kids, _, rfl, .same_node hd hk htop hcs⟩
    | some a =>
      have hreplace := replaceLink_rewrites hd hk hc hkind htop hcs (a.id? .standard tally) a.action
        a.target
      dsimp only
      cases hx : anchored (t.label i) (mapAll t.label cs) (a.id? .standard tally) a.action
          a.target with
      | error e =>
        rw [hx] at hreplace
        exact congrArg _ hreplace
      | ok out =>
        rw [hx] at hreplace
        obtain ⟨t', kids', heq, hrewrites⟩ := hreplace
        exact ⟨t', kids', _, congrArg _ heq, hrewrites⟩

end Expansion

end Hyperstory
