import Hyperstory.Proofs.Reading
import Hyperstory.Tree.Leaves
import Hyperstory.Tree.OfTokens

/-! Trees made from token streams, and what joining texts leaves of them. -/
namespace Hyperstory

/-- A paragraph, and the lines that it stands on. -/
def paragraphTokens (inlines : List Token) (map : Option (Int × Int) := none) : List Token :=
  [{ kind := "paragraph_open", tag := "p", nesting := .opens, map, block := true },
    { kind := "inline", map, children := some inlines, block := true },
    { kind := "paragraph_close", tag := "p", nesting := .closes, block := true }]

def textTokens (text : String) : List Token := [{ kind := "text", content := text }]

/-- A link, to a section that is shown in its place if nothing else is said. -/
def linkTokens (inlines : List Token) (href : String := "\x7b@B:inline\x7d") : List Token :=
  { kind := "link_open", tag := "a", nesting := .opens, attrs := [("href", href)] } ::
    inlines ++ [{ kind := "link_close", tag := "a", nesting := .closes }]

/-- A token stands in a stream, among blocks or as inline content. -/
inductive Stands : Bool → List Token → Bool → Token → Prop where
  | here {inline : Bool} {tokens : List Token} {tok : Token} (h : tok ∈ tokens) :
      Stands inline tokens inline tok
  | inside {inline within : Bool} {tokens : List Token} {outer tok : Token} (h : outer ∈ tokens)
      (hkind : outer.kind = "inline" ∨ outer.kind = "image")
      (hkids : Stands true outer.kids within tok) : Stands inline tokens within tok

theorem exists_of_bind_ok {ε α β : Type} {x : Except ε α} {f : α → Except ε β} {b : β}
    (h : (x >>= f) = .ok b) : ∃ a, x = .ok a ∧ f a = .ok b := by
  cases x with
  | error e => cases h
  | ok a => exact ⟨a, rfl, h⟩

namespace Stands

variable {inline within : Bool} {tok first : Token} {rest : List Token}

theorem mono {others : List Token} (hsub : rest ⊆ others) (h : Stands inline rest within tok) :
    Stands inline others within tok := by
  cases h with
  | here h => exact .here (hsub h)
  | inside h hkind hkids => exact .inside (hsub h) hkind hkids

theorem tail (h : Stands inline rest within tok) : Stands inline (first :: rest) within tok :=
  h.mono (List.subset_cons_self first rest)

theorem head_kids (hkind : first.kind = "inline" ∨ first.kind = "image")
    (h : Stands true first.kids within tok) : Stands inline (first :: rest) within tok :=
  .inside (by simp) hkind h

end Stands

namespace Token

@[simp]
theorem toNode_links (tok : Token) (inline : Bool) (line : Option Int) :
    (tok.toNode inline line).links = {} := by
  unfold toNode
  dsimp only
  split_ifs <;> rfl

@[simp]
theorem toNode_inline (tok : Token) (inline : Bool) (line : Option Int) :
    (tok.toNode inline line).inline = inline := by
  unfold toNode
  dsimp only
  split_ifs <;> rfl

@[simp]
theorem toNode_kind (tok : Token) (inline : Bool) (line : Option Int) :
    (tok.toNode inline line).kind = tok.nodeKind := by
  unfold toNode
  dsimp only
  split_ifs <;> rfl

@[simp]
theorem toNode_container (tok : Token) (inline : Bool) (line : Option Int) :
    (tok.toNode inline line).container = (tok.nesting = .opens || tok.kind == "image") := by
  unfold toNode
  dsimp only
  split_ifs <;> rfl

/-- A container has text only if it is made from a text that was escaped or named. -/
theorem toNode_literal_of_container {tok : Token} {inline : Bool} {line : Option Int}
    (hc : (tok.toNode inline line).container = true)
    (hs : isScanned (tok.toNode inline line).kind = true) :
    (tok.toNode inline line).literal = none := by
  rw [toNode_container] at hc
  rw [toNode_kind] at hs
  by_cases hspecial : tok.kind = "text_special"
  · have hopens : tok.nesting = .opens := by simpa [hspecial] using hc
    simp [nodeKind, hopens, hspecial, isScanned] at hs
    exact absurd hs (by decide)
  · unfold toNode
    simp only [hspecial, beq_iff_eq, if_false, hc, if_true]
    split_ifs <;> rfl

end Token

namespace Forest

/-- A table made from the root of a document by hanging in nodes of tokens and by closing
containers. `Q` holds of the tokens, with their being inline content or not. -/
inductive Grown (Q : Bool → Token → Prop) : Forest → Prop where
  | root : Grown Q (Forest.add {} { kind := "document", container := true }).1
  | close {t : Forest} (h : Grown Q t) (top : NodeId) (tok : Token) :
      Grown Q (t.modify top fun n => { n with closing := some tok })
  | hang {t : Forest} (h : Grown Q t) {top : Nat} {tok : Token} {inline : Bool}
      (line : Option Int) (hsize : top < t.size) (htop : (t.label top).container = true)
      (hinline : (t.label top).inline = true → inline = true) (hq : Q inline tok)
      (hnesting : tok.nesting ≠ .closes) :
      Grown Q ((t.add (tok.toNode inline line)).1.appendChild top t.size)

/-- Later nodes may come, and what kind of container a node is stays. -/
structure Extends (t t' : Forest) : Prop where
  size_le : t.size ≤ t'.size
  container : ∀ i : Nat, i < t.size → (t'.label i).container = (t.label i).container
  inline : ∀ i : Nat, i < t.size → (t'.label i).inline = (t.label i).inline

theorem Extends.refl (t : Forest) : Extends t t := ⟨le_rfl, fun _ _ => rfl, fun _ _ => rfl⟩

theorem Extends.trans {t t' t'' : Forest} (h : Extends t t') (h' : Extends t' t'') :
    Extends t t'' := by
  refine ⟨h.size_le.trans h'.size_le, fun i hi => ?_, fun i hi => ?_⟩
  · rw [h'.container i (hi.trans_le h.size_le), h.container i hi]
  · rw [h'.inline i (hi.trans_le h.size_le), h.inline i hi]

theorem label_modify (t : Forest) (i j : NodeId) (f : Node → Node) :
    (t.modify i f).label j =
      if i = j ∧ j < t.size then { f (t.node j) with links := {} } else t.label j := by
  unfold label
  rw [node_modify]
  split_ifs <;> rfl

theorem extends_close (t : Forest) (top : NodeId) (tok : Token) :
    Extends t (t.modify top fun n => { n with closing := some tok }) := by
  refine ⟨by simp, fun i _ => ?_, fun i _ => ?_⟩ <;> rw [label_modify] <;> split_ifs <;> rfl

theorem extends_hang (t : Forest) (top : NodeId) (n : Node) :
    Extends t ((t.add n).1.appendChild top t.size) := by
  refine ⟨by simp, fun i hi => ?_, fun i hi => ?_⟩ <;> rw [label_appendChild, label_add] <;>
    simp [hi.ne]

/-- Every node on the stack is a container, and inline content stands below it only if that is
what is being read. -/
def IsStack (t : Forest) (inline : Bool) (stack : List NodeId) : Prop :=
  ∀ s : Nat, s ∈ stack → s < t.size ∧ (t.label s).container = true ∧
    ((t.label s).inline = true → inline = true)

theorem IsStack.mono {t t' : Forest} {inline : Bool} {stack : List NodeId}
    (h : t.IsStack inline stack) (hext : Extends t t') : t'.IsStack inline stack := by
  intro s hs
  obtain ⟨hsize, hc, hi⟩ := h s hs
  rw [hext.container s hsize, hext.inline s hsize]
  exact ⟨hsize.trans_le hext.size_le, hc, hi⟩

private theorem hang_step {Q : Bool → Token → Prop} {t : Forest} {top : NodeId}
    {below : List NodeId} {tok : Token} {inline : Bool} (hgrown : Grown Q t)
    (hstack : t.IsStack inline (top :: below)) (hq : Q inline tok) (hn : tok.nesting ≠ .closes)
    (line : Option Int) :
    let t' := (t.add (tok.toNode inline line)).1.appendChild top t.size
    Grown Q t' ∧ Extends t t' ∧ t.size < t'.size ∧
      (t'.label t.size).container = (tok.nesting = .opens || tok.kind == "image") ∧
        (t'.label t.size).inline = inline := by
  obtain ⟨hsize, hc, hi⟩ := hstack top (by simp)
  refine ⟨hgrown.hang line hsize hc hi hq hn, t.extends_hang top _, by simp, ?_, ?_⟩
  · simp [label_add]
  · simp [label_add]

theorem attach_grown {Q : Bool → Token → Prop} {t t' : Forest} {stack : List NodeId}
    {tokens : List Token} {inline : Bool} {line : Option Int}
    (h : t.attach stack tokens inline line = .ok t') (hstack : t.IsStack inline stack)
    (hgrown : Grown Q t) (hQ : ∀ within tok, Stands inline tokens within tok → Q within tok) :
    Grown Q t' ∧ Extends t t' := by
  fun_induction Forest.attach t stack tokens inline line generalizing t' with
  | case1 t =>
    obtain rfl := Except.ok.inj h
    exact ⟨hgrown, .refl t⟩
  | case2 => cases h
  | case3 t inline line tok rest hcloses top below ih =>
    have hext := t.extends_close top tok
    have hbelow : t.IsStack inline below := fun s hs => hstack s (List.mem_cons_of_mem top hs)
    obtain ⟨hg, he⟩ := ih h (hbelow.mono hext) (hgrown.close top tok) fun w x hx => hQ w x hx.tail
    exact ⟨hg, hext.trans he⟩
  | case4 => cases h
  | case5 t inline line tok rest hcloses hkind top below ihkids ihrest =>
    obtain ⟨t₁, hkids, hrest⟩ := exists_of_bind_ok h
    have htop : t.IsStack true [top] := by
      intro s hs
      obtain ⟨hsize, hc, -⟩ := hstack s (by simp at hs; simp [hs])
      exact ⟨hsize, hc, fun _ => rfl⟩
    obtain ⟨hg, he⟩ := ihkids hkids htop hgrown fun w x hx =>
      hQ w x (.head_kids (Or.inl (by simpa using hkind)) hx)
    obtain ⟨hg', he'⟩ := ihrest t₁ hrest (hstack.mono he) hg fun w x hx => hQ w x hx.tail
    exact ⟨hg', he.trans he'⟩
  | case6 => cases h
  | case7 t inline line tok rest hcloses hkind top below t₁ i hadd t₂ next hopens =>
    rename_i ih
    obtain ⟨rfl, rfl⟩ := Prod.mk.inj hadd
    obtain ⟨hg, he, hi⟩ := hang_step hgrown hstack (hQ _ _ (.here (by simp))) hcloses line
    have hstack' : t₂.IsStack inline (t.size :: top :: below) := by
      intro s hs
      rcases List.mem_cons.mp hs with rfl | hs
      · exact ⟨hi.1, hi.2.1.trans (by simp [hopens]), fun h => hi.2.2.symm.trans h⟩
      · exact hstack.mono he s hs
    obtain ⟨hg', he'⟩ := ih h hstack' hg fun w x hx => hQ w x hx.tail
    exact ⟨hg', he.trans he'⟩
  | case8 t inline line tok rest hcloses hkind top below t₁ i hadd t₂ next hopens himage ihkids =>
    rename_i ihrest
    obtain ⟨rfl, rfl⟩ := Prod.mk.inj hadd
    obtain ⟨t₃, hkids, hrest⟩ := exists_of_bind_ok h
    obtain ⟨hg, he, hi⟩ := hang_step hgrown hstack (hQ _ _ (.here (by simp))) hcloses line
    have hstack' : t₂.IsStack true [t.size] := by
      intro s hs
      obtain rfl := List.mem_singleton.mp hs
      exact ⟨hi.1, hi.2.1.trans (by simp [himage]), fun _ => rfl⟩
    obtain ⟨hg', he'⟩ := ihkids hkids hstack' hg fun w x hx =>
      hQ w x (.head_kids (Or.inr (by simpa using himage)) hx)
    obtain ⟨hg'', he''⟩ := ihrest t₃ hrest (hstack.mono (he.trans he')) hg' fun w x hx =>
      hQ w x hx.tail
    exact ⟨hg'', (he.trans he').trans he''⟩
  | case9 t inline line tok rest hcloses hkind top below t₁ i hadd t₂ next hopens himage =>
    rename_i ih
    obtain ⟨rfl, rfl⟩ := Prod.mk.inj hadd
    obtain ⟨hg, he, -⟩ := hang_step hgrown hstack (hQ _ _ (.here (by simp))) hcloses line
    obtain ⟨hg', he'⟩ := ih h (hstack.mono he) hg fun w x hx => hQ w x hx.tail
    exact ⟨hg', he.trans he'⟩

theorem ofTokens_grown {Q : Bool → Token → Prop} {tokens : List Token} {t : Forest}
    (h : ofTokens tokens = .ok t)
    (hQ : ∀ within tok, Stands false tokens within tok → Q within tok) : Grown Q t := by
  refine (attach_grown h ?_ .root hQ).1
  intro s hs
  obtain rfl : s = 0 := by simpa [add] using hs
  simp [size, label, node]

/-- A well-linked document: leaves have no children, only leaves have text that is read for
directives, and the first node of the table is the root. -/
structure Document (t : Forest) (kids : NodeId → List NodeId) : Prop where
  linked : t.Linked kids
  leaf : ∀ i, (t.label i).container = false → kids i = []
  literal : ∀ i, (t.label i).container = true → isScanned (t.label i).kind = true →
    (t.label i).literal = none
  size_pos : 0 < t.size
  rootKind : (t.label 0).kind = "document"
  rootContainer : (t.label 0).container = true

theorem label_of_size_le (t : Forest) {i : NodeId} (hi : t.size ≤ i) : t.label i = default := by
  have hi : ¬ i < t.nodes.size := Nat.not_lt.mpr hi
  simp only [label, node, Array.getD, hi, dite_false]
  rfl

/-- The parts of a label that tell what may stand below a node and whether it may have text. -/
structure SameRole (n n' : Node) : Prop where
  container : n'.container = n.container
  kind : n'.kind = n.kind
  literal : n.container = true → n.literal = none → n'.literal = none

theorem SameRole.refl (n : Node) : SameRole n n := ⟨rfl, rfl, fun _ => id⟩

namespace Document

variable {t t' : Forest} {kids kids' : NodeId → List NodeId}

/-- A document stays one when the old nodes keep their roles and new ones have a proper role. -/
theorem step (hd : t.Document kids) (hlinked : t'.Linked kids') (hsize : t.size ≤ t'.size)
    (hold : ∀ i : Nat, i < t.size → SameRole (t.label i) (t'.label i))
    (hnew : ∀ i : Nat, t.size ≤ i → (t'.label i).container = true →
      isScanned (t'.label i).kind = true → (t'.label i).literal = none)
    (hleaf : ∀ i, (t'.label i).container = false → kids' i = []) : t'.Document kids' := by
  have hroot := hold 0 hd.size_pos
  refine ⟨hlinked, hleaf, fun i hc hs => ?_, hd.size_pos.trans_le hsize, ?_, ?_⟩
  · rcases Nat.lt_or_ge i t.size with hi | hi
    · have hrole := hold i hi
      have hc := hrole.container ▸ hc
      exact hrole.literal hc (hd.literal i hc (hrole.kind ▸ hs))
    · exact hnew i hi hc hs
  · rw [hroot.kind, hd.rootKind]
  · rw [hroot.container, hd.rootContainer]

theorem modify (hd : t.Document kids) (i : NodeId) {f : Node → Node}
    (hlinks : ∀ n, (f n).links = n.links) (hrole : SameRole (t.node i) (f (t.node i))) :
    (t.modify i f).Document kids := by
  have hsame : ∀ j, SameRole (t.label j) ((t.modify i f).label j) := by
    intro j
    rw [label_modify]
    split_ifs with hij
    · obtain ⟨rfl, -⟩ := hij
      exact ⟨hrole.container, hrole.kind, hrole.literal⟩
    · exact .refl _
  refine hd.step (hd.linked.modify i hlinks) (by simp) (fun j _ => hsame j) ?_ ?_
  · intro j hj hc
    rw [(hsame j).container, label_of_size_le t hj] at hc
    cases hc
  · exact fun j hc => hd.leaf j ((hsame j).container ▸ hc)

theorem unlink (hd : t.Document kids) (i : NodeId) :
    ∃ kids', (t.unlink i).Document kids' ∧ ∀ q, (kids' q).Sublist (kids q) := by
  by_cases hi : ∃ p, i ∈ kids p
  · obtain ⟨p, hp⟩ := hi
    obtain ⟨l, r, hk⟩ := List.append_of_mem hp
    refine ⟨Function.update kids p (l ++ r), hd.step (hd.linked.unlink hk) (by simp)
      (fun j _ => ?_) (fun j hj hc => ?_) (fun j hc => ?_), fun q => ?_⟩
    · rw [label_unlink]
      exact .refl _
    · rw [label_unlink, label_of_size_le t hj] at hc
      cases hc
    · rw [label_unlink] at hc
      have hj := hd.leaf j hc
      by_cases hjp : j = p
      · subst hjp
        simp [hj] at hk
      · simpa [hjp] using hj
    · by_cases hqp : q = p
      · subst hqp
        simp [hk]
      · simp [hqp]
  · rw [not_exists] at hi
    exact ⟨kids, (unlink_of_loose (hd.linked.loose hi)).symm ▸ hd, fun q => .refl _⟩

end Document

theorem document_root :
    (Forest.add {} { kind := "document", container := true }).1.Document fun _ => [] := by
  have hlabel : ∀ i, ((Forest.add {} { kind := "document", container := true }).1.label i) =
      if i = 0 then { kind := "document", container := true } else default := by
    intro i
    rw [label_add]
    rfl
  have hlinks : ∀ i, (Forest.add {} { kind := "document", container := true }).1.links i = {} := by
    intro i
    rw [links_add _ rfl]
    rfl
  refine ⟨⟨?_, ?_, ?_, ?_, ?_, ?_, ?_⟩, fun _ _ => rfl, ?_, by simp, ?_, ?_⟩
  all_goals simp [hlinks, hlabel]
  intro i
  split_ifs <;> simp [isScanned]
  decide

theorem label_hang (t : Forest) (top : NodeId) (tok : Token) (inline : Bool) (line : Option Int)
    (i : NodeId) : ((t.add (tok.toNode inline line)).1.appendChild top t.size).label i =
      if i = t.size then tok.toNode inline line else t.label i := by
  rw [label_appendChild, label_add, ← tok.toNode_links inline line]

theorem Document.hang {t : Forest} {kids : NodeId → List NodeId} (hd : t.Document kids) {top : Nat}
    (hsize : top < t.size) (htop : (t.label top).container = true) (tok : Token) (inline : Bool)
    (line : Option Int) :
    ((t.add (tok.toNode inline line)).1.appendChild top t.size).Document
      (Function.update kids top (kids top ++ [t.size])) := by
  refine hd.step (hd.linked.appendChild_add hsize (tok.toNode_links inline line)) (by simp)
    (fun i hi => ?_) (fun i hi hc hs => ?_) (fun i hc => ?_)
  · rw [label_hang, if_neg hi.ne]
    exact .refl _
  · rw [label_hang] at hc hs ⊢
    split_ifs at hc hs ⊢
    · exact Token.toNode_literal_of_container hc hs
    · rw [label_of_size_le t hi] at hc
      cases hc
  · have hne : i ≠ top := by
      rintro rfl
      rw [label_hang, if_neg hsize.ne, htop] at hc
      cases hc
    rw [Function.update_of_ne hne]
    by_cases hi : i = t.size
    · exact hd.linked.kids_eq_nil hi.ge
    · rw [label_hang, if_neg hi] at hc
      exact hd.leaf i hc

/-- A grown table is a document in which only inline content stands below inline content. -/
theorem Grown.exists_kids {Q : Bool → Token → Prop} {t : Forest} (h : Grown Q t) :
    ∃ kids, t.Document kids ∧
      ∀ p, ∀ c ∈ kids p, (t.label p).inline = true → (t.label c).inline = true := by
  induction h with
  | root => exact ⟨_, document_root, fun p c hc => by cases hc⟩
  | @close t _ top tok ih =>
    obtain ⟨kids, hd, hinline⟩ := ih
    refine ⟨kids, hd.modify top (fun _ => rfl) ⟨rfl, rfl, fun _ => id⟩, ?_⟩
    have hsame : ∀ i, ((t.modify top fun n => { n with closing := some tok }).label i).inline =
        (t.label i).inline := by
      intro i
      rw [label_modify]
      split_ifs <;> rfl
    simpa only [hsame] using hinline
  | @hang t _ top tok inline line hsize htop hbelow _ _ ih =>
    obtain ⟨kids, hd, hinline⟩ := ih
    refine ⟨_, hd.hang hsize htop tok inline line, fun p c hc => ?_⟩
    have hold {i : Nat} (hi : i < t.size) :=
      (t.label_hang top tok inline line i).trans (if_neg hi.ne)
    by_cases hp : p = top
    · subst hp
      rw [Function.update_self] at hc
      rw [hold hsize]
      rcases List.mem_append.mp hc with hc | hc
      · rw [hold (hd.linked.later p c hc).2]
        exact hinline p c hc
      · obtain rfl := List.mem_singleton.mp hc
        rw [label_hang, if_pos rfl, tok.toNode_inline]
        exact hbelow
    · rw [Function.update_of_ne hp] at hc
      obtain ⟨hpc, hc'⟩ := hd.linked.later p c hc
      rw [hold (hpc.trans hc'), hold hc']
      exact hinline p c hc

theorem Grown.document {Q : Bool → Token → Prop} {t : Forest} (h : Grown Q t) :
    ∃ kids, t.Document kids := by
  obtain ⟨kids, hd, -⟩ := h.exists_kids
  exact ⟨kids, hd⟩

/-- Every container but the root is made from a token that opens one, or is an image. -/
theorem Grown.exists_token {Q : Bool → Token → Prop} {t : Forest} (h : Grown Q t) {j : Nat}
    (hj : 0 < j) (hc : (t.label j).container = true) :
    (∃ tok, Q (t.label j).inline tok ∧ tok.nesting = .opens ∧ (t.label j).kind = tok.nodeKind) ∨
      (t.label j).kind = "image" := by
  induction h with
  | root =>
    rw [label_add, if_neg (show j ≠ ({} : Forest).size from hj.ne')] at hc
    cases hc
  | @close t _ top tok ih =>
    have hsame : { (t.modify top fun n => { n with closing := some tok }).label j with
        closing := (t.label j).closing } = t.label j := by
      rw [label_modify]
      split_ifs <;> rfl
    rw [← hsame] at ih
    exact ih hc
  | @hang t _ top tok inline line hsize htop _ hq hnesting ih =>
    rw [label_appendChild, label_add] at hc ⊢
    split_ifs at hc ⊢ with hnew
    · have hkind : (tok.toNode inline line).kind = tok.nodeKind := tok.toNode_kind inline line
      have hinline : (tok.toNode inline line).inline = inline := tok.toNode_inline inline line
      by_cases hopens : tok.nesting = .opens
      · exact Or.inl ⟨tok, by rwa [hinline], hopens, hkind⟩
      · have himage : tok.kind = "image" := by
          have hcontainer := tok.toNode_container inline line
          rw [show (tok.toNode inline line).container = true from hc] at hcontainer
          simpa [hopens] using hcontainer.symm
        exact Or.inr (hkind.trans (by simp [Token.nodeKind, hopens, himage]))
    · exact ih hc

/-- Nodes may have left their lists, and literals may have changed, but nothing else. -/
structure Thinned (t : Forest) (kids : NodeId → List NodeId) (t' : Forest)
    (kids' : NodeId → List NodeId) : Prop where
  size : t'.size = t.size
  label : ∀ i, { t'.label i with literal := (t.label i).literal } = t.label i
  kids : ∀ q, (kids' q).Sublist (kids q)

theorem Thinned.refl (t : Forest) (kids : NodeId → List NodeId) : Thinned t kids t kids :=
  ⟨rfl, fun _ => rfl, fun _ => .refl _⟩

theorem Thinned.trans {t t' t'' : Forest} {kids kids' kids'' : NodeId → List NodeId}
    (h : Thinned t kids t' kids') (h' : Thinned t' kids' t'' kids'') :
    Thinned t kids t'' kids'' := by
  refine ⟨h'.size.trans h.size, fun i => ?_, fun q => (h'.kids q).trans (h.kids q)⟩
  have hi := h.label i
  rw [← h'.label i] at hi
  exact hi

theorem mergeStep_document {t : Forest} {kids : NodeId → List NodeId} (hd : t.Document kids)
    (previous : Option NodeId) (i : NodeId) :
    ∃ kids', (t.mergeStep previous i).1.Document kids' ∧
      Thinned t kids (t.mergeStep previous i).1 kids' := by
  unfold mergeStep
  cases previous with
  | none => exact ⟨kids, hd, .refl t kids⟩
  | some p =>
    dsimp only
    split_ifs with hkinds
    · cases hlit : (t.node p).literal with
      | none => exact ⟨kids, hd, .refl t kids⟩
      | some text =>
        dsimp only
        generalize text ++ (t.node i).literal.getD "" = joined
        have hjoin := hd.modify p (f := fun n => { n with literal := some joined }) (fun _ => rfl)
          ⟨rfl, rfl, fun _ hnone => by rw [hlit] at hnone; cases hnone⟩
        obtain ⟨kids', hd', hsub⟩ := hjoin.unlink i
        refine ⟨kids', hd', by simp, fun j => ?_, hsub⟩
        rw [label_unlink, label_modify]
        split_ifs <;> rfl
    · exact ⟨kids, hd, .refl t kids⟩

theorem mergeFrom_document {t : Forest} {kids : NodeId → List NodeId} (hd : t.Document kids)
    (fuel : Nat) (previous : Option NodeId) (c : Cursor) :
    ∃ kids', (mergeFrom fuel previous c t).1.Document kids' ∧
      Thinned t kids (mergeFrom fuel previous c t).1 kids' := by
  induction fuel generalizing t kids previous c with
  | zero => exact ⟨kids, hd, .refl t kids⟩
  | succ fuel ih =>
    unfold mergeFrom
    cases hnext : c.next? t with
    | none => exact ⟨kids, hd, .refl t kids⟩
    | some vc =>
      obtain ⟨v, c'⟩ := vc
      obtain ⟨kids₁, hd₁, hthin₁⟩ := mergeStep_document hd previous v.node
      dsimp only
      cases hstep : t.mergeStep previous v.node with
      | mk t₁ result =>
        rw [hstep] at hd₁ hthin₁
        cases result with
        | error e => exact ⟨kids₁, hd₁, hthin₁⟩
        | ok previous' =>
          obtain ⟨kids₂, hd₂, hthin₂⟩ := ih hd₁ previous' c'
          exact ⟨kids₂, hd₂, hthin₁.trans hthin₂⟩

/-- Joining texts leaves a document. -/
theorem mergeText_document {t t' : Forest} {kids : NodeId → List NodeId} (hd : t.Document kids)
    {root : NodeId} {f : Option Fault} (h : t.mergeText root = (t', f)) :
    ∃ kids', t'.Document kids' ∧ Thinned t kids t' kids' := by
  have := mergeFrom_document hd t.passBound none (.start root)
  rwa [show mergeFrom t.passBound none (.start root) t = (t', f) from h] at this

end Forest

end Hyperstory
