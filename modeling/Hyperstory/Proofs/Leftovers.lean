import Hyperstory.Proofs.Moments

/-!
What the walk has left of the document when it meets a directive. The leaf it stands at may be what
an earlier directive has left of a longer one, but what is ahead of the walk and what is above it
are as they were, so the leaf has its place in the document.
-/
namespace Hyperstory.Expansion

open Hyperstory.Tree Forest Moment

variable {path : String} {tally tally' tally'' : Tally} {t₀ t t' t'' : Forest}
  {kids₀ kids kids' kids'' : NodeId → List NodeId} {root p i j k : Nat}
  {l₀ l r old : List NodeId} {c c' c'' : Cursor}

/-- What a node shows of itself and of the tree around it is as it was. -/
structure Context (t₀ t : Forest) (p : NodeId) : Prop where
  label : t.label p = t₀.label p
  top : atTop t p = atTop t₀ p
  prev : (t.links p).prev.isSome = (t₀.links p).prev.isSome

theorem Context.trans (h : Context t₀ t p) (h' : Context t t' p) : Context t₀ t' p :=
  ⟨h'.label.trans h.label, h'.top.trans h.top, h'.prev.trans h.prev⟩

/-- A change below a node does not show above it. -/
theorem Context.of_frame (hd : t.Linked kids) (hd' : t'.Linked kids')
    (h : Frame t kids p old t' kids') (hp : p < t.size) (hold : ∀ q : Nat, q ∈ old → p < q) :
    Context t t' p := by
  have hout : ∀ q : Nat, q ≤ p → q ∉ old := fun q hq hq' => (hold q hq').not_ge hq
  have hlabel : ∀ q : Nat, q ≤ p → t'.label q = t.label q := fun q hq =>
    h.label q (hq.trans_lt hp) (hout q hq)
  have hkids : ∀ q : Nat, q < p → kids' q = kids q := fun q hq =>
    h.kids q (hq.trans hp) hq.ne (hout q hq.le)
  have hsame : ∀ q : Nat, p ∈ kids' q ∨ p ∈ kids q → kids' q = kids q := by
    rintro q (hq | hq)
    · exact hkids q (hd'.later q p hq).1
    · exact hkids q (hd.later q p hq).1
  have hparent : (t'.links p).parent = (t.links p).parent := by
    refine Option.ext fun q => ?_
    rw [hd'.parent, hd.parent]
    exact ⟨fun hq => hsame q (Or.inl hq) ▸ hq, fun hq => (hsame q (Or.inr hq)).symm ▸ hq⟩
  have hprev : (t'.links p).prev = (t.links p).prev := by
    refine Option.ext fun a => ?_
    rw [hd'.prev, hd.prev]
    refine exists_congr fun q => ⟨fun ha => ?_, fun ha => ?_⟩
    · rwa [← hsame q (Or.inl ha.mem_right)]
    · rwa [hsame q (Or.inr ha.mem_right)]
  refine ⟨hlabel p le_rfl, ?_, by rw [hprev]⟩
  unfold atTop
  rw [hlabel p le_rfl, hparent]
  cases htop : (t.links p).parent with
  | none => rfl
  | some top => simp only [hlabel top (hd.later top p ((hd.parent top p).mp htop)).1.le]

/-- What is left of a leaf from character `k` on, once the directives before are replaced. -/
inductive Remains (n : Node) : Nat → Node → Prop
  | whole : Remains n 0 n
  | rest {k : Nat} {n' : Node} {o : Opening} {d : Directive} (h : Remains n k n')
      (hfind : Opening.find? ⟨0, 0, 0⟩ n'.characters = some o)
      (hscan : Directive.scan n'.characters o.index = .ok d) :
      Remains n (k + d.stop) (remainder n' d o)

/-- Leaf `i` is what is left of leaf `j` of the document from character `k` on. Both stand below
`p` and before `r`. -/
structure Leftover (t₀ : Forest) (kids₀ : NodeId → List NodeId) (t : Forest)
    (kids : NodeId → List NodeId) (p : NodeId) (l₀ l r : List NodeId) (j : NodeId) (k : Nat)
    (i : NodeId) : Prop where
  document : t.Document kids
  here₀ : kids₀ p = l₀ ++ j :: r
  here : kids p = l ++ i :: r
  kind : (t.label i).kind = (t₀.label j).kind
  characters : (t.label i).characters = (t₀.label j).characters.drop k
  within : k ≤ (t₀.label j).characters.length
  whole : k = 0 → i = j
  first : l = [] ↔ l₀ = [] ∧ k = 0
  context : Context t₀ t p
  remains : Remains (t₀.label j) k (t.label i)

/-- The document tells where the directive comes from that the walk stands at. -/
def Traced (t₀ : Forest) (kids₀ : NodeId → List NodeId) (m : Moment) : Prop :=
  ∀ i o, m.Finds i o → ∃ kids p l₀ l r j k, Leftover t₀ kids₀ m.tree kids p l₀ l r j k i

theorem Leftover.traced (h : Leftover t₀ kids₀ t kids p l₀ l r j k i) {entering : Bool} :
    Traced t₀ kids₀ ⟨tally, t, ⟨root, some i, entering⟩⟩ := by
  intro i' o hfinds
  obtain rfl : i = i' := Option.some.inj hfinds.current
  exact ⟨kids, p, l₀, l, r, j, k, h⟩

/-- Nothing is met at a node without directives. -/
theorem traced_of_silent {entering : Bool} (h : isScanned (t.label i).kind = true →
    Opening.find? ⟨0, 0, 0⟩ (t.label i).characters = none) :
    Traced t₀ kids₀ ⟨tally, t, ⟨root, some i, entering⟩⟩ := by
  intro i' o hfinds
  obtain rfl : i = i' := Option.some.inj hfinds.current
  have hnone := hfinds.finds.symm.trans (h hfinds.scanned)
  cases hnone

/-- From a moment on the walk stands only at what the document tells. It fails there, or it comes to
`c'` and has put other nodes in place of those in `old`. -/
def Covers (path : String) (t₀ : Forest) (kids₀ kids : NodeId → List NodeId) (p : NodeId)
    (l old r : List NodeId) (m : Moment) (c' : Cursor) : Prop :=
  Stays path (Traced t₀ kids₀) m ∨
    ∃ tally' t' kids' out new, Rewrites m.tree kids p l old r out t' kids' new ∧
      (old ≠ [] → new ≠ []) ∧ Sweeps path (Traced t₀ kids₀) m ⟨tally', t', c'⟩

/-- The nodes that follow the replaced ones are gone over next. -/
theorem Covers.append (row : List (Tree NodeId)) {old' : List NodeId} {out : List (Tree Node)}
    {new : List (Tree NodeId)} (h : Rewrites t kids p l old (row.map value ++ r) out t' kids' new)
    (hnew : new ≠ []) (hsweeps : Sweeps path (Traced t₀ kids₀) ⟨tally, t, c⟩ ⟨tally', t', c'⟩)
    (hrow : Follows kids' row)
    (h' : Covers path t₀ kids₀ kids' p (l ++ new.map value) (valuesAll row) r ⟨tally', t', c'⟩ c'')
    (hsub : ∀ q ∈ old, q ∈ old') (hold : ∀ q : Nat, q ∈ valuesAll row → q ∈ old' ∨ t.size ≤ q) :
    Covers path t₀ kids₀ kids p l old' r ⟨tally, t, c⟩ c'' := by
  rcases h' with hstays | ⟨tally'', t'', kids'', out', new', hrewrites, -, hsweeps'⟩
  · exact Or.inl (hsweeps.stays hstays)
  · exact Or.inr ⟨tally'', t'', kids'', _, _, h.append row hrow hrewrites hsub hold,
      fun _ => by simp [hnew], hsweeps.trans hsweeps'⟩

/-- What is covered after the walk has come to a moment where only inner nodes differ. -/
theorem Covers.after {old' : List NodeId}
    (hsweeps : Sweeps path (Traced t₀ kids₀) ⟨tally, t, c⟩ ⟨tally', t', c'⟩)
    (hframe : Frame t kids p old t' kids')
    (h : Covers path t₀ kids₀ kids' p l old' r ⟨tally', t', c'⟩ c'') (hne : old' ≠ [])
    (hold : ∀ q : Nat, q ∈ old' → q ∈ old ∨ t.size ≤ q) :
    Covers path t₀ kids₀ kids p l old r ⟨tally, t, c⟩ c'' := by
  rcases h with hstays | ⟨tally'', t'', kids'', out, new, hrewrites, hnew, hsweeps'⟩
  · exact Or.inl (hsweeps.stays hstays)
  · exact Or.inr ⟨tally'', t'', kids'', out, new, .after hframe hrewrites hold, fun _ => hnew hne,
      hsweeps.trans hsweeps'⟩

/-- Markup is passed over when the walk resumes at it, and nothing is met there. -/
theorem sweeps_over_markup (out : List (Tree Node)) (first : List (Tree NodeId)) {n : Node}
    {markup : Nat}
    (h : Rewrites t kids p l old r (out ++ [.node n []]) t' kids' (first ++ [.node markup []]))
    (hroot : root ≤ p) (hc : n.container = false) (hkind : n.kind = "html_inline") :
    Sweeps path (Traced t₀ kids₀) ⟨tally, t', ⟨root, some markup, true⟩⟩
      ⟨tally, t', .ahead root p r⟩ := by
  have hlabel : t'.label markup = n := by
    have hreads := h.reads
    rw [mapAll_append] at hreads
    simpa using (List.append_inj' hreads rfl).2
  refine .step (traced_of_silent fun hs => ?_)
    (turns_of_visit (visit_over_markup out first h hroot hc hkind))
  rw [hlabel, hkind] at hs
  exact absurd hs (by decide)

/-- The rest of a leaf stands for the same leaf of the document as the leaf did. -/
theorem Leftover.rest (h : Leftover t₀ kids₀ t kids p l₀ l r j k i) {o : Opening} {d : Directive}
    (hfind : Opening.find? ⟨0, 0, 0⟩ (t.label i).characters = some o)
    (hscan : Directive.scan (t.label i).characters o.index = .ok d) {out : List (Tree Node)}
    {new : List (Tree NodeId)} {s : Nat}
    (hrewrites : Rewrites t kids p l [i] (s :: r) out t' kids' new) (hne : new ≠ [])
    (hlabel : t'.label s = remainder (t.label i) d o) :
    Leftover t₀ kids₀ t' kids' p l₀ (l ++ new.map value) r j (k + d.stop) s := by
  obtain ⟨hpi, hi⟩ := h.document.linked.later p i (by simp [h.here])
  obtain ⟨-, hpos, hstop⟩ := Directive.scan_bounds hscan
  have hcontext := Context.of_frame h.document.linked hrewrites.document.linked hrewrites.frame
    (hpi.trans hi) (by simpa using hpi)
  rw [h.characters, List.length_drop] at hstop
  refine ⟨hrewrites.document, h.here₀, by simp [hrewrites.here], ?_, ?_, ?_, ?_, ?_,
    h.context.trans hcontext, hlabel ▸ h.remains.rest hfind hscan⟩
  · rw [hlabel, ← h.kind]
    rfl
  · rw [hlabel, characters_remainder, h.characters, List.drop_drop]
  · have := h.within
    omega
  · exact fun hzero => absurd hzero (by omega)
  · exact ⟨fun hnil => absurd (List.append_eq_nil_iff.mp hnil).2 (by simpa using hne),
      fun ⟨_, hzero⟩ => absurd hzero (by omega)⟩

/-- Going over a leaf that is read for directives, unless a section may begin in it. -/
theorem leaf_covers {n : Nat} (hn : (t.label i).characters.length = n)
    (h : Leftover t₀ kids₀ t kids p l₀ l r j k i) (hroot : root ≤ p)
    (hc : (t.label i).container = false) (hs : isScanned (t.label i).kind = true)
    (hlone : l = [] → r = [] → atTop t p = true → declares? (t.label i) = none) :
    Covers path t₀ kids₀ kids p l [i] r ⟨tally, t, .ahead root p (i :: r)⟩ (.ahead root p r) := by
  -- What stands after a directive is a shorter leaf.
  induction n using Nat.strong_induction_on generalizing t kids l i k with
  | _ n ih =>
    have hd := h.document
    cases hfind : Opening.find? ⟨0, 0, 0⟩ (t.label i).characters with
    | none =>
      obtain ⟨-, himage⟩ := ne_of_isScanned hs
      exact Or.inr ⟨tally, t, kids, _, _, .same_leaf hd h.here hc, by simp, .step h.traced
        (turns_of_visit (visit_over_leaf hd h.here hroot hc himage fun _ => hfind))⟩
    | some o =>
      cases hscan : Directive.scan (t.label i).characters o.index with
      | error e => exact Or.inl (.of_error h.traced (congrArg some (visit_malformed hs hfind hscan)))
      | ok d =>
        by_cases hbegin : d.kind = .sectionBegin
        · have hproblem : sectionProblem? t tally i d =
              some (misplaced ⟨"", !l.isEmpty, !r.isEmpty⟩ (t.label i) d) :=
            sectionProblem?_misplaced hd.linked h.here rfl rfl hfind hscan hbegin hlone
          exact Or.inl (Meets.stays ⟨⟨rfl, hs, hfind⟩, hscan, hbegin⟩ h.traced hproblem)
        · obtain ⟨t', kids', first, tail, hleaf, hrewrites, htail⟩ :=
            leaf_splices path tally hd h.here hc hfind hscan hbegin
          -- The directive gives way to its expansion, where nothing is met.
          have hsweeps : Sweeps path (Traced t₀ kids₀) ⟨tally, t, .ahead root p (i :: r)⟩
              ⟨tally, t', .ahead root p (tail ++ r)⟩ :=
            (Sweeps.step h.traced (turns_of_visit (visit_of_leaf hs hleaf))).trans
              (sweeps_over_markup _ first hrewrites hroot rfl rfl)
          generalize first ++ [.node t.size []] = new at hrewrites
          have hne := hrewrites.ne_nil (by simp)
          split_ifs at htail with hrest
          · subst htail
            exact Or.inr ⟨tally, t', kids', _, new, hrewrites, fun _ => hne, hsweeps⟩
          · obtain ⟨rfl, hlabel⟩ := htail
            have hleft := h.rest hfind hscan hrewrites hne hlabel
            have hlen : (t'.label (t.size + 1)).characters.length = n - d.stop := by
              rw [hlabel, characters_remainder, List.length_drop, hn]
            have hbounds := Directive.scan_bounds hscan
            have hcovers := ih (n - d.stop) (by omega) hlen hleft (by rw [hlabel]; rfl)
              (by rw [hlabel]; exact hs) fun hl => absurd hl (by simp [hne])
            have hrow : Follows kids' [.node (t.size + 1) []] :=
              .cons (hleft.document.leaf _ (by rw [hlabel]; rfl)) .nil .nil
            exact Covers.append [.node (t.size + 1) []] hrewrites hne hsweeps hrow
              (by simpa using hcovers) (fun q hq => hq) (by simp)

/-- The nodes of a row stand in the tree as in the document: they are ahead of the walk. What
stands before them may have changed, but something does where something did. -/
structure Untouched (t₀ : Forest) (kids₀ : NodeId → List NodeId) (t : Forest)
    (kids : NodeId → List NodeId) (p : NodeId) (l₀ l : List NodeId) (row : List (Tree NodeId)) :
    Prop where
  document : t.Document kids
  here₀ : kids₀ p = l₀ ++ row.map value
  here : kids p = l ++ row.map value
  follows₀ : Follows kids₀ row
  follows : Follows kids row
  labels : mapAll t.label row = mapAll t₀.label row
  first : l = [] ↔ l₀ = []
  context : Context t₀ t p

namespace Untouched

variable {cs rest : List (Tree NodeId)}

theorem head₀ (h : Untouched t₀ kids₀ t kids p l₀ l (.node i cs :: rest)) :
    kids₀ p = l₀ ++ i :: rest.map value := h.here₀

theorem head (h : Untouched t₀ kids₀ t kids p l₀ l (.node i cs :: rest)) :
    kids p = l ++ i :: rest.map value := h.here

theorem label_eq (h : Untouched t₀ kids₀ t kids p l₀ l (.node i cs :: rest)) :
    t.label i = t₀.label i := by
  have hlabels := h.labels
  simp only [mapAll_cons, map_node, List.cons.injEq, Tree.node.injEq] at hlabels
  exact hlabels.1.1

theorem child (hd₀ : t₀.Document kids₀)
    (h : Untouched t₀ kids₀ t kids p l₀ l (.node i cs :: rest)) :
    Untouched t₀ kids₀ t kids i [] [] cs := by
  obtain _ | ⟨htop₀, hcs₀, -⟩ := h.follows₀
  obtain _ | ⟨htop, hcs, -⟩ := h.follows
  have hlabels := h.labels
  simp only [mapAll_cons, map_node, List.cons.injEq, Tree.node.injEq] at hlabels
  obtain ⟨⟨hlabel, hbelow⟩, -⟩ := hlabels
  have hprev : ∀ l : List NodeId, l.getLast?.isSome = !l.isEmpty := fun l => by cases l <;> simp
  refine ⟨h.document, htop₀, htop, hcs₀, hcs, hbelow, Iff.rfl, hlabel, ?_, ?_⟩
  · rw [atTop_eq h.document.linked h.head, atTop_eq hd₀.linked h.head₀, hlabel, h.context.label]
  · rw [h.document.linked.prev_eq h.head, hd₀.linked.prev_eq h.head₀, hprev, hprev,
      Bool.eq_iff_iff]
    simp [h.first]

/-- What stands after the first node of a row once other nodes stand in place of that. -/
theorem tail (h : Untouched t₀ kids₀ t kids p l₀ l (.node i cs :: rest)) {out : List (Tree Node)}
    {new : List (Tree NodeId)}
    (hrewrites : Rewrites t kids p l (i :: valuesAll cs) (rest.map value) out t' kids' new)
    (hne : new ≠ []) :
    Untouched t₀ kids₀ t' kids' p (l₀ ++ [i]) (l ++ new.map value) rest := by
  obtain _ | ⟨-, -, hrest₀⟩ := h.follows₀
  obtain _ | ⟨htop, hcs, hrest⟩ := h.follows
  obtain ⟨hrest', hlabels⟩ := hrewrites.frame.rest h.document h.head htop hcs hrest
  have hlabels₀ := h.labels
  rw [mapAll_cons, mapAll_cons, List.cons.injEq] at hlabels₀
  obtain ⟨hpi, hi⟩ := h.document.linked.later p i (by simp [h.here])
  have hold : ∀ q : Nat, q ∈ i :: valuesAll cs → p < q := fun q hq =>
    h.document.linked.lt_of_mem_valuesAll (.cons htop hcs .nil) (p := p) (by simpa using hpi)
      (by simpa using hq)
  have hcontext := Context.of_frame h.document.linked hrewrites.document.linked hrewrites.frame
    (hpi.trans hi) hold
  exact ⟨hrewrites.document, by simp [h.here₀], hrewrites.here, hrest₀, hrest',
    hlabels.trans hlabels₀.2, by simp [hne], h.context.trans hcontext⟩

/-- A leaf that nothing has been done to is left over as a whole. -/
theorem leftover (h : Untouched t₀ kids₀ t kids p l₀ l (.node i cs :: rest)) :
    Leftover t₀ kids₀ t kids p l₀ l (rest.map value) i 0 i :=
  ⟨h.document, h.here₀, h.here, by rw [h.label_eq], by rw [h.label_eq, List.drop_zero],
    Nat.zero_le _, fun _ => rfl, by simp [h.first], h.context, by rw [h.label_eq]; exact .whole⟩

end Untouched

/-- Going over the children of a node, once the walk stands before the first of those in `row`. -/
def RowCovers (path : String) (t₀ : Forest) (kids₀ : NodeId → List NodeId) (root : Nat)
    (row : List (Tree NodeId)) : Prop :=
  ∀ (tally : Tally) {t : Forest} {kids : NodeId → List NodeId} {p : Nat} {l₀ l : List NodeId},
    Untouched t₀ kids₀ t kids p l₀ l row → root ≤ p →
    (l = [] → ∀ i, row.map value = [i] → atTop t p = true → declares? (t.label i) = none) →
    Covers path t₀ kids₀ kids p l (valuesAll row) [] ⟨tally, t, .ahead root p (row.map value)⟩
      (.ahead root p [])

section Node

variable {cs rest : List (Tree NodeId)}

theorem image_covers (h : Untouched t₀ kids₀ t kids p l₀ l (.node i cs :: rest)) (hroot : root ≤ p)
    (hkind : (t.label i).kind = "image") :
    Covers path t₀ kids₀ kids p l (i :: valuesAll cs) (rest.map value)
      ⟨tally, t, .ahead root p (i :: rest.map value)⟩ (.ahead root p (rest.map value)) := by
  obtain _ | ⟨htop, -, -⟩ := h.follows
  have hquiet : Traced t₀ kids₀ ⟨tally, t, ⟨root, some i, true⟩⟩ := h.leftover.traced
  have hvisit := visit_of_image path tally root h.document h.head htop hkind
  cases hx : expandImage path (t.label i) (mapAll t.label cs) with
  | error e =>
    rw [hx] at hvisit
    exact Or.inl (.of_error hquiet (congrArg some hvisit))
  | ok out =>
    rw [hx] at hvisit
    obtain ⟨t', kids', markup, rfl, hvisit, hrewrites⟩ := hvisit
    exact Or.inr ⟨tally, t', kids', _, _, hrewrites.mono (by simp), by simp,
      (Sweeps.step hquiet (turns_of_visit hvisit)).trans
        (sweeps_over_markup [] [] hrewrites hroot rfl rfl)⟩

/-- The paragraph of a declaration is entered, and the directive is met in its only leaf. -/
theorem section_covers (hd₀ : t₀.Document kids₀)
    (h : Untouched t₀ kids₀ t kids p l₀ l (.node i cs :: rest)) (hroot : root ≤ p) {text : Node}
    {d : Directive}
    (hdecl : declaration? (t.label p).kind (.node (t.label i) (mapAll t.label cs)) =
      some (text, d)) :
    Covers path t₀ kids₀ kids p l (i :: valuesAll cs) (rest.map value)
      ⟨tally, t, .ahead root p (i :: rest.map value)⟩ (.ahead root p (rest.map value)) := by
  obtain ⟨⟨below, hrow⟩, hci, hkind, -, hdeclares⟩ := declaration?_eq_some hdecl
  obtain ⟨leaf, cs', rfl, rfl⟩ : ∃ leaf cs', cs = [.node leaf cs'] ∧ t.label leaf = text := by
    match cs, hrow with
    | [.node leaf cs'], hrow =>
      simp only [mapAll_cons, map_node, mapAll_nil, List.cons.injEq, Tree.node.injEq] at hrow
      exact ⟨leaf, cs', rfl, hrow.1.1⟩
  obtain ⟨hfind, hscan, htext, hbegin, -⟩ := declares?_eq_some hdeclares
  have hchild := h.child hd₀
  have hlink : (t.links leaf).parent = some i := h.document.linked.parent_eq hchild.here
  have hunscanned : isScanned (t.label i).kind ≠ true := by rw [hkind]; decide
  have henter : Sweeps path (Traced t₀ kids₀) ⟨tally, t, .ahead root p (i :: rest.map value)⟩
      ⟨tally, t, ⟨root, some leaf, true⟩⟩ := by
    refine .step (traced_of_silent fun hs => absurd hs hunscanned) (turns_of_visit ?_)
    rw [visit_quiet (fun _ => rfl) (by rw [hkind]; decide) fun hs => absurd hs hunscanned,
      Cursor.after_enter h.document.linked hci, hchild.here]
    rfl
  have hs : isScanned (t.label leaf).kind = true := by
    rw [htext]
    rfl
  cases hproblem : sectionProblem? t tally leaf d with
  | some cause =>
    exact Or.inl (henter.stays
      (Meets.stays ⟨⟨rfl, hs, hfind⟩, hscan, hbegin⟩ hchild.leftover.traced hproblem))
  | none =>
    obtain ⟨t', kids', heq, hrewrites⟩ := beginSection_rewrites h.document h.head tally hlink d
    have hvisit : visit path tally t (.after t root ⟨leaf, true⟩) ⟨leaf, true⟩ =
        (tally.declare d.identifier, .ok (t', ⟨root, some t.size, true⟩)) := by
      rw [visit_directive hs hfind hscan, if_pos hbegin, hproblem, heq, Cursor.after_resumeAt]
    exact Or.inr ⟨_, t', kids', _, _, hrewrites.mono (by simp), by simp,
      (henter.trans (.step hchild.leftover.traced (turns_of_visit hvisit))).trans
        (sweeps_over_markup [] [] hrewrites hroot rfl rfl)⟩

/-- A container is left once what stands below it is replaced. -/
theorem leaving_covers (path : String) (t₀ : Forest) (kids₀ : NodeId → List NodeId) (tally : Tally)
    (hd : t.Document kids) (hk : kids p = l ++ i :: r) (hroot : root ≤ p)
    (hc : (t.label i).container = true) (himage : (t.label i).kind ≠ "image")
    (htop : kids i = cs.map value) (hcs : Follows kids cs) :
    Covers path t₀ kids₀ kids p l (i :: valuesAll cs) r ⟨tally, t, ⟨root, some i, false⟩⟩
      (.ahead root p r) := by
  have htraced : Traced t₀ kids₀ ⟨tally, t, ⟨root, some i, false⟩⟩ :=
    traced_of_silent (silent_of_container hd hc)
  have hvisit := visit_leaving path tally hd hk hroot hc himage htop hcs
  cases hover : expandOver .standard path tally (t.label i) (mapAll t.label cs) with
  | mk tally' result =>
    rw [hover] at hvisit
    cases result with
    | error e => exact Or.inl (.of_error htraced (congrArg some hvisit))
    | ok out =>
      obtain ⟨t', kids', new, hvisit, hrewrites⟩ := hvisit
      have hout : out ≠ [] := by
        rcases expandOver_eq_ok hover with ⟨-, -, rfl⟩ | ⟨a, text, -, -, -, -, rfl⟩ <;> simp
      exact Or.inr ⟨tally', t', kids', out, new, hrewrites, fun _ => hrewrites.ne_nil hout,
        .step htraced (turns_of_visit hvisit)⟩

/-- A container is entered, what stands below it is gone over, and it is left. -/
theorem container_covers (hd₀ : t₀.Document kids₀) (ih : RowCovers path t₀ kids₀ root cs)
    (h : Untouched t₀ kids₀ t kids p l₀ l (.node i cs :: rest)) (hroot : root ≤ p)
    (hc : (t.label i).container = true) (himage : (t.label i).kind ≠ "image")
    (hdecl : declaration? (t.label p).kind (.node (t.label i) (mapAll t.label cs)) = none) :
    Covers path t₀ kids₀ kids p l (i :: valuesAll cs) (rest.map value)
      ⟨tally, t, .ahead root p (i :: rest.map value)⟩ (.ahead root p (rest.map value)) := by
  have hd := h.document
  have hchild := h.child hd₀
  obtain _ | ⟨htop, hcs, -⟩ := h.follows
  have hpi := (hd.linked.later p i (by simp [h.here])).1
  have hsilent := silent_of_container hd hc
  have henter : Sweeps path (Traced t₀ kids₀) ⟨tally, t, .ahead root p (i :: rest.map value)⟩
      ⟨tally, t, .ahead root i (cs.map value)⟩ := by
    refine .step (traced_of_silent hsilent) (turns_of_visit ?_)
    rw [visit_quiet (fun _ => rfl) himage hsilent, Cursor.after_enter hd.linked hc, htop]
  have hlone : ([] : List NodeId) = [] → ∀ c, cs.map value = [c] → atTop t i = true →
      declares? (t.label c) = none := fun _ _ => declares?_of_lone hd.linked h.head hc rfl hdecl
  rcases ih tally hchild (hroot.trans hpi.le) hlone with
    hstays | ⟨tally', t', kids', out, new, hrewrites, -, hsweeps⟩
  · exact Or.inl (henter.stays hstays)
  · have hwrap := hrewrites.wrap hd h.head htop hcs
    have hlabel : t'.label i = t.label i := by
      have := hwrap.reads
      simp only [mapAll_cons, map_node, mapAll_nil, List.cons.injEq, Tree.node.injEq] at this
      exact this.1.1
    have hleave := leaving_covers path t₀ kids₀ tally' hwrap.document (by simpa using hwrap.here)
      hroot (by rw [hlabel, hc])
      (by rw [hlabel]; exact himage) (by simpa using hrewrites.here) hrewrites.follows
    exact .after (henter.trans hsweeps) hwrap.frame hleave (by simp) (by simpa using hwrap.fresh)

theorem node_covers (tally : Tally) (hd₀ : t₀.Document kids₀) (ih : RowCovers path t₀ kids₀ root cs)
    (h : Untouched t₀ kids₀ t kids p l₀ l (.node i cs :: rest)) (hroot : root ≤ p)
    (hlone : l = [] → rest = [] → atTop t p = true → declares? (t.label i) = none) :
    Covers path t₀ kids₀ kids p l (i :: valuesAll cs) (rest.map value)
      ⟨tally, t, .ahead root p (i :: rest.map value)⟩ (.ahead root p (rest.map value)) := by
  have hd := h.document
  obtain _ | ⟨htop, hcs, -⟩ := h.follows
  cases shape (t.label p).kind (t.label i) (mapAll t.label cs) with
  | image hkind => exact image_covers h hroot hkind
  | scanned hc hs =>
    have hnil := hd.leaf i hc
    rw [htop, List.map_eq_nil_iff] at hnil
    subst hnil
    exact leaf_covers rfl h.leftover hroot hc hs fun hl hr => hlone hl (List.map_eq_nil_iff.mp hr)
  | plain hkind hc hs =>
    exact Or.inr ⟨tally, t, kids, _, _, .same_node hd h.head htop hcs, by simp,
      .step h.leftover.traced (turns_of_visit (visit_over_leaf hd h.head hroot hc hkind
        fun hs' => absurd hs' (by simp [hs])))⟩
  | opening text d hdecl => exact section_covers hd₀ h hroot hdecl
  | container hkind hc hdecl => exact container_covers hd₀ ih h hroot hc hkind hdecl

end Node

/-- Going over the children of a node, the walk stands only at what the document tells. -/
theorem rowCovers (path : String) (hd₀ : t₀.Document kids₀) (root : Nat)
    (row : List (Tree NodeId)) : RowCovers path t₀ kids₀ root row := by
  induction row using row_induction with
  | nil =>
    intro tally t kids p l₀ l h _ _
    have hsame := Rewrites.same h.document h.follows (p := p) (l := l) (r := [])
      (by simpa using h.here)
    exact Or.inr ⟨tally, t, kids, _, [], by simpa using hsame, by simp, .refl _⟩
  | cons i cs rest ihcs ihrest =>
    intro tally t kids p l₀ l h hroot hlone
    have hfirst := node_covers tally hd₀ ihcs h hroot
      fun hl hr => hlone hl i (by simp [hr])
    rcases hfirst with hstays | ⟨tally', t', kids', out, new, hrewrites, hnew, hsweeps⟩
    · exact Or.inl hstays
    · have hne := hnew (by simp)
      have htail := h.tail hrewrites hne
      have hothers := ihrest tally' htail hroot fun hl => absurd hl (by simp [hne])
      rw [valuesAll_cons, values_node]
      exact .append rest (by simpa using hrewrites) hne hsweeps htail.follows hothers
        (fun q hq => List.mem_append_left (valuesAll rest) hq)
        (fun q hq => Or.inl (List.mem_append_right _ hq))

/-- Whatever directive the walk over a document stands at, the document tells where it comes
from. -/
theorem document_traced (path : String) (tally : Tally) (hd₀ : t₀.Document kids₀) :
    Stays path (Traced t₀ kids₀) ⟨tally, t₀, .start 0⟩ := by
  obtain ⟨cs, hvalues, hcs⟩ := hd₀.linked.exists_row (kids₀ 0)
  have htop := hvalues.symm
  have hlone : ([] : List NodeId) = [] → ∀ i, cs.map value = [i] → atTop t₀ 0 = true →
      declares? (t₀.label i) = none :=
    fun _ _ _ hat => absurd hat (by rw [atTop_root hd₀]; decide)
  have hall : Untouched t₀ kids₀ t₀ kids₀ 0 [] [] cs :=
    ⟨hd₀, htop, htop, hcs, hcs, rfl, Iff.rfl, rfl, rfl, rfl⟩
  have henter : Sweeps path (Traced t₀ kids₀) ⟨tally, t₀, .start 0⟩
      ⟨tally, t₀, .ahead 0 0 (cs.map value)⟩ := by
    refine .step (traced_of_silent (silent_of_container hd₀ hd₀.rootContainer)) (turns_of_visit ?_)
    rw [visit_root hd₀, Cursor.after_enter hd₀.linked hd₀.rootContainer, htop]
  rcases rowCovers path hd₀ 0 cs tally hall le_rfl hlone with
    hstays | ⟨tally', t', kids', out, new, hrewrites, -, hsweeps⟩
  · exact henter.stays hstays
  · have hd := hrewrites.document
    have hleave : Sweeps path (Traced t₀ kids₀) ⟨tally', t', .ahead 0 0 []⟩
        ⟨tally', t', ⟨0, none, false⟩⟩ := by
      refine .step (traced_of_silent (silent_of_container hd hd.rootContainer)) (turns_of_visit ?_)
      rw [visit_root hd, Cursor.after_root]
    refine ((henter.trans hsweeps).trans hleave).stays (.of_last ?_ fun m' hturns => ?_)
    · exact fun i o hfinds => absurd hfinds.current (by simp)
    · exact absurd hturns (by simp [Turns, turn?, Cursor.next?])

/-- The document tells where the section directive comes from that the walk meets. -/
theorem document_told (path : String) (tally : Tally) (hd₀ : t₀.Document kids₀) (m : Moment)
    (hcomes : Comes path ⟨tally, t₀, .start 0⟩ m) (i : NodeId) (o : Opening) (d : Directive)
    (hmeets : m.Meets i o d) :
    ∃ kids p l₀ l r j k, Leftover t₀ kids₀ m.tree kids p l₀ l r j k i :=
  document_traced path tally hd₀ m hcomes i o ⟨hmeets.current, hmeets.scanned, hmeets.finds⟩

/-- Leaf `i` of the tree stands for leaf `j` of the document from character `k` on. There is one
such leaf at most, because both stand below the same node and before the same one. -/
structure StandsFor (t₀ t : Forest) (i j : NodeId) (k : Nat) : Prop where
  kind : (t.label i).kind = (t₀.label j).kind
  characters : (t.label i).characters = (t₀.label j).characters.drop k
  within : k ≤ (t₀.label j).characters.length
  whole : k = 0 → i = j
  parent : ∃ p, (t.links i).parent = some p ∧ (t₀.links j).parent = some p
  next : (t.links i).next = (t₀.links j).next

theorem Leftover.standsFor (hd₀ : t₀.Document kids₀)
    (h : Leftover t₀ kids₀ t kids p l₀ l r j k i) : StandsFor t₀ t i j k :=
  ⟨h.kind, h.characters, h.within, h.whole,
    ⟨p, h.document.linked.parent_eq h.here, hd₀.linked.parent_eq h.here₀⟩,
    by rw [h.document.linked.next_eq h.here, hd₀.linked.next_eq h.here₀]⟩

theorem StandsFor.unique (hd₀ : t₀.Document kids₀) {j' k' : Nat} (h : StandsFor t₀ t i j k)
    (h' : StandsFor t₀ t i j' k') : j = j' ∧ k = k' := by
  obtain ⟨p, hp, hj⟩ := h.parent
  obtain ⟨p', hp', hj'⟩ := h'.parent
  obtain rfl : p = p' := Option.some.inj (hp.symm.trans hp')
  obtain ⟨a, b, hab⟩ := List.append_of_mem ((hd₀.linked.parent p j).mp hj)
  obtain ⟨a', b', hab'⟩ := List.append_of_mem ((hd₀.linked.parent p j').mp hj')
  have hnext : b.head? = b'.head? := by
    rw [← hd₀.linked.next_eq hab, ← hd₀.linked.next_eq hab', ← h.next, h'.next]
  obtain rfl : j = j' := by
    cases b with
    | nil =>
      obtain rfl := List.head?_eq_none_iff.mp hnext.symm
      exact (List.cons.inj (List.append_inj' (hab.symm.trans hab') rfl).2).1
    | cons s b =>
      obtain ⟨b', rfl⟩ := List.head?_eq_some_iff.mp hnext.symm
      have hprev := hd₀.linked.prev_eq (hab.trans (List.append_cons a j (s :: b)))
      rw [hd₀.linked.prev_eq (hab'.trans (List.append_cons a' j' (s :: b')))] at hprev
      simpa using hprev.symm
  have hlen := congrArg List.length (h.characters.symm.trans h'.characters)
  rw [List.length_drop, List.length_drop] at hlen
  have := h.within
  have := h'.within
  exact ⟨rfl, by omega⟩

end Hyperstory.Expansion
