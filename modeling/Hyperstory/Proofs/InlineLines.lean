import Hyperstory.Proofs.Streams

/-!
The lines of inline content. A node without lines of its own stands on the line that the breaks
before it lead to. The breaks inside of an image count for what follows in the image only.
-/
namespace Hyperstory

/-- The line that is `n` lines further on. -/
def further (n : Nat) (line : Option Int) : Option Int := line.map (· + (n : Int))

@[simp]
theorem further_zero (line : Option Int) : further 0 line = line := by simp [further]

theorem further_further (m n : Nat) (line : Option Int) :
    further n (further m line) = further (m + n) line := by
  simp [further, Function.comp_def, Int.add_assoc]

namespace Token

/-- The tokens inside of a token that become nodes. -/
def inner (tok : Token) : List Token :=
  if tok.nesting = .closes then []
  else if tok.kind == "inline" then tok.kids
  else if tok.nesting = .opens then []
  else if tok.kind == "image" then tok.kids
  else []

theorem sizeOf_inner_lt (tok : Token) : sizeOf tok.inner < sizeOf tok := by
  have hkids := tok.sizeOf_kids_lt
  have hnil : sizeOf ([] : List Token) ≤ sizeOf tok.kids := by
    cases tok.kids with
    | nil => exact le_rfl
    | cons k ks => rw [List.nil.sizeOf_spec, List.cons.sizeOf_spec]; omega
  unfold inner
  split_ifs <;> omega

/-- A token and all that is inside of it, in the order of the document. -/
def all (tok : Token) : List Token := tok :: tok.inner.attach.flatMap fun ⟨k, _⟩ => all k
termination_by sizeOf tok
decreasing_by exact (List.sizeOf_lt_of_mem ‹k ∈ tok.inner›).trans tok.sizeOf_inner_lt

theorem all_eq (tok : Token) : tok.all = tok :: tok.inner.flatMap all := by
  rw [all]
  simp

/-- A token has a node of its own. -/
def hasNode (tok : Token) : Bool := tok.nesting ≠ .closes && tok.kind != "inline"

/-- The line breaks that a token stands for, without those inside of it. What closes a container is
none. -/
def breaks (tok : Token) : Nat :=
  if tok.nesting = .closes then 0
  else if tok.kind == "softbreak" || tok.kind == "hardbreak" then 1
  else if tok.kind == "code_inline" then tok.content.toList.count '\n'
  else 0

/-- The line that the first token inside of a token stands on. -/
def innerLine (tok : Token) (line : Option Int) : Option Int :=
  if tok.kind == "inline" then tok.map.map fun m => m.1 + 1 else line

theorem lineAfter_eq {tok : Token} (h : tok.nesting ≠ .closes) (line : Option Int) :
    tok.lineAfter line = further tok.breaks line := by
  unfold lineAfter breaks
  rw [if_neg h]
  split_ifs
  · rfl
  · rfl
  · rw [further_zero]

@[simp]
theorem toNode_closing (tok : Token) (inline : Bool) (line : Option Int) :
    (tok.toNode inline line).closing = none := by
  unfold toNode
  dsimp only
  split_ifs <;> rfl

@[simp]
theorem toNode_position (tok : Token) (inline : Bool) (line : Option Int) :
    (tok.toNode inline line).position = tok.nodePosition line := by
  unfold toNode
  dsimp only
  split_ifs <;> rfl

end Token

/-- Tokens with all that is inside of them, in the order of the document. -/
def inOrder (tokens : List Token) : List Token := tokens.flatMap Token.all

def insides (tokens : List Token) : List Token := tokens.flatMap fun tok => inOrder tok.inner

def nodeCount (tokens : List Token) : Nat := tokens.countP Token.hasNode

def breakCount (tokens : List Token) : Nat := (tokens.map Token.breaks).sum

theorem inOrder_nil : inOrder [] = [] := rfl

section

variable (tok : Token) (tokens others : List Token)

theorem inOrder_cons : inOrder (tok :: tokens) = tok :: (inOrder tok.inner ++ inOrder tokens) := by
  rw [inOrder, List.flatMap_cons, tok.all_eq]
  rfl

theorem inOrder_append : inOrder (tokens ++ others) = inOrder tokens ++ inOrder others :=
  List.flatMap_append

theorem nodeCount_append : nodeCount (tokens ++ others) = nodeCount tokens + nodeCount others :=
  List.countP_append

theorem nodeCount_cons :
    nodeCount (tok :: tokens) = (if tok.hasNode then 1 else 0) + nodeCount tokens := by
  rw [nodeCount, List.countP_cons, Nat.add_comm]
  rfl

theorem breakCount_append :
    breakCount (tokens ++ others) = breakCount tokens + breakCount others := by
  rw [breakCount, List.map_append, List.sum_append]
  rfl

theorem breakCount_cons : breakCount (tok :: tokens) = tok.breaks + breakCount tokens := rfl

theorem insides_append : insides (tokens ++ others) = insides tokens ++ insides others :=
  List.flatMap_append

theorem breakCount_inOrder :
    breakCount (inOrder tokens) = breakCount tokens + breakCount (insides tokens) := by
  induction tokens with
  | nil => rfl
  | cons tok tokens ih =>
    have hcons : insides (tok :: tokens) = inOrder tok.inner ++ insides tokens :=
      List.flatMap_cons
    rw [inOrder_cons, breakCount_cons, breakCount_append, ih, breakCount_cons, hcons,
      breakCount_append]
    omega

end

namespace Forest

/-- A node as its token gave it, before its container was closed. -/
def opened (t : Forest) (i : NodeId) : Node := { t.label i with closing := none }

theorem opened_close (t : Forest) (top i : NodeId) (tok : Token) :
    (t.modify top fun n => { n with closing := some tok }).opened i = t.opened i := by
  unfold opened
  rw [label_modify]
  split_ifs <;> rfl

theorem opened_hang (t : Forest) (top : NodeId) (tok : Token) (inline : Bool) (line : Option Int)
    (i : NodeId) :
    (t.hang top tok inline line).opened i =
      if i = t.size then tok.toNode inline line else t.opened i := by
  unfold opened hang
  rw [label_hang]
  split_ifs
  · rw [← tok.toNode_closing inline line]
  · rfl

/-- Nodes are only added, and what a token gave stays. -/
structure Adds (t t' : Forest) (n : Nat) : Prop where
  size_eq : t'.size = t.size + n
  opened_eq : ∀ i : Nat, i < t.size → t'.opened i = t.opened i

namespace Adds

variable {t t₁ t₂ : Forest} {m n : Nat}

theorem refl (t : Forest) : Adds t t 0 := ⟨rfl, fun _ _ => rfl⟩

theorem trans (h : Adds t t₁ m) (h' : Adds t₁ t₂ n) : Adds t t₂ (m + n) := by
  refine ⟨by rw [h'.size_eq, h.size_eq, Nat.add_assoc], fun i hi => ?_⟩
  rw [h'.opened_eq i (by rw [h.size_eq]; omega), h.opened_eq i hi]

theorem close (t : Forest) (top : NodeId) (tok : Token) :
    Adds t (t.modify top fun n => { n with closing := some tok }) 0 :=
  ⟨by simp, fun i _ => t.opened_close top i tok⟩

theorem hang (t : Forest) (top : NodeId) (tok : Token) (inline : Bool) (line : Option Int) :
    Adds t (t.hang top tok inline line) 1 := by
  refine ⟨by simp [Forest.hang], fun i hi => ?_⟩
  rw [opened_hang, if_neg hi.ne]

end Adds

/-- How the first token of a stream becomes part of a table: its own node first, then the nodes of
what is inside of it. The breaks that it stands for itself count for the rest. -/
theorem attach_cons {t t' : Forest} {stack : List NodeId} {tok : Token} {rest : List Token}
    {inline : Bool} {line : Option Int}
    (h : t.attach stack (tok :: rest) inline line = .ok t') :
    ∃ t₀ t₁ top stack₁, Adds t t₀ (if tok.hasNode then 1 else 0) ∧
      (tok.hasNode = true → t₀.opened t.size = tok.toNode inline line) ∧
      t₀.attach [top] tok.inner true (tok.innerLine line) = .ok t₁ ∧
      t₁.attach stack₁ rest inline (further tok.breaks line) = .ok t' := by
  cases stack with
  | nil =>
    rw [attach] at h
    split_ifs at h
  | cons top below =>
    rw [attach] at h
    dsimp only at h
    split_ifs at h with hcloses hinline hopens himage
    · have hnode : tok.hasNode = false := by simp [Token.hasNode, hcloses]
      have hbreaks : tok.breaks = 0 := if_pos hcloses
      rw [hnode, hbreaks, further_zero]
      refine ⟨_, _, top, below, .close t top tok, fun h => (by cases h), ?_, h⟩
      rw [Token.inner, if_pos hcloses, attach]
    · obtain ⟨t₁, hkids, hrest⟩ := exists_of_bind_ok h
      have hnode : tok.hasNode = false := by simpa [Token.hasNode] using fun _ => hinline
      have hbreaks : tok.breaks = 0 := by
        rw [Token.breaks, if_neg hcloses, beq_iff_eq.mp hinline]
        rfl
      rw [hnode, hbreaks, further_zero]
      refine ⟨t, t₁, top, top :: below, .refl t, fun h => (by cases h), ?_, hrest⟩
      rwa [Token.inner, if_neg hcloses, if_pos hinline, Token.innerLine, if_pos hinline]
    all_goals
      have hnode : tok.hasNode = true := by simpa [Token.hasNode, hcloses] using hinline
      have hopened := t.opened_hang top tok inline line t.size
      rw [if_pos rfl] at hopened
      rw [hnode]
    · rw [Token.lineAfter_eq hcloses] at h
      refine ⟨_, _, top, _, .hang t top tok inline line, fun _ => hopened, ?_, h⟩
      rw [Token.inner, if_neg hcloses, if_neg hinline, if_pos hopens, attach]
      rfl
    · obtain ⟨t₁, hkids, hrest⟩ := exists_of_bind_ok h
      rw [Token.lineAfter_eq hcloses] at hrest
      refine ⟨_, t₁, t.size, _, .hang t top tok inline line, fun _ => hopened, ?_, hrest⟩
      rw [Token.inner, if_neg hcloses, if_neg hinline, if_neg hopens, if_pos himage,
        Token.innerLine, if_neg hinline]
      exact hkids
    · rw [Token.lineAfter_eq hcloses] at h
      refine ⟨_, _, top, _, .hang t top tok inline line, fun _ => hopened, ?_, h⟩
      rw [Token.inner, if_neg hcloses, if_neg hinline, if_neg hopens, if_neg himage, attach]
      rfl

/-- Tokens add their nodes, and leave those that are there as they were opened. -/
theorem attach_adds {t t' : Forest} {stack : List NodeId} {tokens : List Token} {inline : Bool}
    {line : Option Int} (h : t.attach stack tokens inline line = .ok t') :
    Adds t t' (nodeCount (inOrder tokens)) := by
  induction hn : sizeOf tokens using Nat.strong_induction_on
    generalizing t t' stack tokens inline line with
  | _ n ih =>
    subst hn
    cases tokens with
    | nil =>
      rw [attach] at h
      exact Except.ok.inj h ▸ .refl t
    | cons tok rest =>
      obtain ⟨t₀, t₁, top, stack₁, hown, -, hinner, hrest⟩ := attach_cons h
      have hsize := tok.sizeOf_inner_lt
      rw [List.cons.sizeOf_spec] at ih
      have hall := (hown.trans (ih _ (by omega) hinner rfl)).trans (ih _ (by omega) hrest rfl)
      rwa [inOrder_cons, nodeCount_cons, nodeCount_append, ← Nat.add_assoc]

/-- Reading the rest of a stream begins behind the nodes of what stands before it, and on the line
that its breaks lead to. -/
theorem attach_append {t t' : Forest} {stack : List NodeId} {before rest : List Token}
    {inline : Bool} {line : Option Int}
    (h : t.attach stack (before ++ rest) inline line = .ok t') :
    ∃ t₁ stack₁, Adds t t₁ (nodeCount (inOrder before)) ∧
      t₁.attach stack₁ rest inline (further (breakCount before) line) = .ok t' := by
  induction before generalizing t stack line with
  | nil => exact ⟨t, stack, .refl t, (further_zero line).symm ▸ h⟩
  | cons tok before ih =>
    obtain ⟨t₀, t₁, top, stack₁, hown, -, hinner, hrest⟩ := attach_cons h
    obtain ⟨t₂, stack₂, hbefore, hrest⟩ := ih hrest
    refine ⟨t₂, stack₂, ?_, ?_⟩
    · have hall := (hown.trans (attach_adds hinner)).trans hbefore
      rwa [inOrder_cons, nodeCount_cons, nodeCount_append, ← Nat.add_assoc]
    · rwa [further_further] at hrest

end Forest

/-- `Occurs tokens counted earlier tok`: a token stands in a stream or in an image of it. All tokens
before it are `earlier`; those on its own level, and on the levels of the images around it, are
`counted`. -/
inductive Occurs : List Token → List Token → List Token → Token → Prop
  | here (before : List Token) (tok : Token) (after : List Token) :
      Occurs (before ++ tok :: after) before (inOrder before) tok
  | inside {image tok : Token} {counted earlier : List Token} (before after : List Token)
      (hnesting : image.nesting = .alone) (hkind : image.kind = "image")
      (h : Occurs image.kids counted earlier tok) :
      Occurs (before ++ image :: after) (before ++ counted) (inOrder before ++ image :: earlier) tok

namespace Token

variable {tok : Token} (hkind : tok.kind = "image")

include hkind

theorem breaks_image : tok.breaks = 0 := by simp [breaks, hkind]

theorem innerLine_image (line : Option Int) : tok.innerLine line = line := by
  simp [innerLine, hkind]

variable (hnesting : tok.nesting = .alone)

include hnesting

theorem inner_image : tok.inner = tok.kids := by simp [inner, hkind, hnesting]

theorem hasNode_image : tok.hasNode = true := by simp [hasNode, hkind, hnesting]

end Token

/-- The node of a token in inline content, and the line that it is given. -/
theorem Forest.opened_of_occurs {t t' : Forest} {stack : List NodeId}
    {tokens counted earlier : List Token} {tok : Token} {line : Option Int}
    (hoccurs : Occurs tokens counted earlier tok) (htok : tok.hasNode = true)
    (h : t.attach stack tokens true line = .ok t') :
    t.size + nodeCount earlier < t'.size ∧
    t'.opened (t.size + nodeCount earlier) =
      tok.toNode true (further (breakCount counted) line) := by
  induction hoccurs generalizing t t' stack line with
  | here before tok after =>
    obtain ⟨t₁, stack₁, hbefore, hrest⟩ := attach_append h
    obtain ⟨t₂, t₃, top, stack₂, hown, hopened, hinner, hafter⟩ := attach_cons hrest
    have hlater := (attach_adds hinner).trans (attach_adds hafter)
    rw [if_pos htok] at hown
    have hsize : t₁.size < t₂.size := by rw [hown.size_eq]; omega
    rw [← hbefore.size_eq, hlater.opened_eq _ hsize]
    exact ⟨hsize.trans_le (by rw [hlater.size_eq]; omega), hopened htok⟩
  | @inside image tok counted earlier before after hnesting hkind hoccurs ih =>
    obtain ⟨t₁, stack₁, hbefore, hrest⟩ := attach_append h
    obtain ⟨t₂, t₃, top, stack₂, hown, -, hinner, hafter⟩ := attach_cons hrest
    rw [Token.innerLine_image hkind, Token.inner_image hkind hnesting] at hinner
    obtain ⟨hsize, hopened⟩ := ih htok hinner
    have hlater := attach_adds hafter
    have hnode := Token.hasNode_image hkind hnesting
    -- The image has the node before those of what is inside of it.
    have hplace : t.size + nodeCount (inOrder before ++ image :: earlier) =
        t₂.size + nodeCount earlier := by
      rw [hown.size_eq, hbefore.size_eq, nodeCount_append, nodeCount_cons]
      omega
    rw [hplace, hlater.opened_eq _ hsize, hopened, further_further, ← breakCount_append]
    exact ⟨hsize.trans_le (by rw [hlater.size_eq]; omega), rfl⟩

namespace Occurs

variable {tokens counted earlier : List Token} {tok : Token}

/-- The breaks that do not count are those inside of what is over. -/
theorem breakCount_earlier (h : Occurs tokens counted earlier tok) :
    breakCount earlier = breakCount counted + breakCount (insides counted) := by
  induction h with
  | here before _ _ => exact breakCount_inOrder before
  | @inside image _ counted earlier before _ hnesting hkind _ ih =>
    rw [breakCount_append, breakCount_cons, breakCount_inOrder, ih, Token.breaks_image hkind,
      breakCount_append, insides_append, breakCount_append]
    omega

theorem append_left (front : List Token) (h : Occurs tokens counted earlier tok) :
    Occurs (front ++ tokens) (front ++ counted) (inOrder front ++ earlier) tok := by
  cases h with
  | here before _ after =>
    rw [← List.append_assoc, ← inOrder_append]
    exact .here _ tok after
  | inside before after hnesting hkind h =>
    rw [← List.append_assoc, ← List.append_assoc, ← List.append_assoc, ← inOrder_append]
    exact .inside (front ++ before) after hnesting hkind h

theorem append_right (behind : List Token) (h : Occurs tokens counted earlier tok) :
    Occurs (tokens ++ behind) counted earlier tok := by
  cases h with
  | here before _ after =>
    rw [List.append_assoc]
    exact .here _ tok (after ++ behind)
  | inside before after hnesting hkind h =>
    rw [List.append_assoc]
    exact .inside before (after ++ behind) hnesting hkind h

end Occurs

/-- Every token of a stream, at any depth, is found where it occurs. -/
def AllOccur (tokens : List Token) : Prop :=
  ∀ earlier tok later, inOrder tokens = earlier ++ tok :: later →
    ∃ counted, Occurs tokens counted earlier tok

namespace AllOccur

variable {tokens others : List Token} {tok : Token}

theorem not_split_nil (earlier : List Token) (tok : Token) (later : List Token) :
    inOrder [] ≠ earlier ++ tok :: later := by
  intro h
  exact absurd h.symm (List.append_ne_nil_of_right_ne_nil _ (List.cons_ne_nil tok later))

theorem nil : AllOccur [] := fun earlier tok later h => absurd h (not_split_nil earlier tok later)

theorem append (h : AllOccur tokens) (h' : AllOccur others) : AllOccur (tokens ++ others) := by
  intro earlier tok later hsplit
  rw [inOrder_append, List.append_eq_append_iff] at hsplit
  obtain ⟨more, rfl, hothers⟩ | ⟨more, htokens, hmore⟩ := hsplit
  · obtain ⟨counted, hcounted⟩ := h' more tok later hothers
    exact ⟨_, hcounted.append_left tokens⟩
  · cases more with
    | nil =>
      obtain ⟨counted, hcounted⟩ := h' [] tok later hmore.symm
      have hleft := hcounted.append_left tokens
      rw [htokens, List.append_nil, List.append_nil] at hleft
      exact ⟨_, hleft⟩
    | cons tok' more =>
      obtain ⟨rfl, -⟩ := List.cons.inj hmore
      obtain ⟨counted, hcounted⟩ := h earlier tok more htokens
      exact ⟨counted, hcounted.append_right others⟩

/-- One token, if all that is inside of it is found. -/
theorem single (hinside : ∀ earlier x later, inOrder tok.inner = earlier ++ x :: later →
    ∃ counted, Occurs [tok] counted (tok :: earlier) x) : AllOccur [tok] := by
  intro earlier x later hsplit
  rw [inOrder_cons, inOrder_nil, List.append_nil] at hsplit
  obtain ⟨rfl, hcons⟩ | ⟨more, rfl, hmore⟩ := List.cons_eq_append_iff.mp hsplit
  · obtain ⟨rfl, -⟩ := List.cons.inj hcons
    exact ⟨[], .here [] x []⟩
  · exact hinside more x later hmore

theorem leaf (hinner : tok.inner = []) : AllOccur [tok] := by
  refine single fun earlier x later h => ?_
  rw [hinner] at h
  exact absurd h (not_split_nil earlier x later)

theorem image (hnesting : tok.nesting = .alone) (hkind : tok.kind = "image")
    (h : AllOccur tok.kids) : AllOccur [tok] := by
  refine single fun earlier x later hsplit => ?_
  rw [Token.inner_image hkind hnesting] at hsplit
  obtain ⟨counted, hcounted⟩ := h earlier x later hsplit
  exact ⟨_, .inside [] [] hnesting hkind hcounted⟩

end AllOccur

/-- In inline content every token is found, at any depth. -/
theorem WellNested.allOccur {tokens : List Token} (h : WellNested true tokens) :
    AllOccur tokens := by
  generalize hinline : true = inline at h
  induction h with
  | nil => exact .nil
  | @leaf _ tok _ hnesting hkind himage _ ih =>
    have hinner : tok.inner = [] := by simp [Token.inner, hnesting, hkind, himage]
    exact (AllOccur.leaf hinner).append (ih hinline)
  | image hnesting hkind _ _ ihinside ihafter =>
    exact (AllOccur.image hnesting hkind (ihinside rfl)).append (ihafter hinline)
  | @container _ opening closing _ _ hopening hclosing _ _ ihinside ihafter =>
    have hopen : opening.inner = [] := by
      simp [Token.inner, hopening.nesting, hopening.kind_ne_inline]
    have hclose : closing.inner = [] := by simp [Token.inner, hclosing]
    exact (AllOccur.leaf hopen).append
      ((ihinside hinline).append ((AllOccur.leaf hclose).append (ihafter hinline)))
  | filled => cases hinline

theorem breakCount_eq_zero_iff {tokens : List Token} :
    breakCount tokens = 0 ↔ ∀ tok ∈ tokens, tok.breaks = 0 := by
  rw [breakCount, List.sum_eq_zero_iff_forall_eq_nat, List.forall_mem_map]

/-- The nodes of an inline token's content, with the line that each is given. -/
theorem Forest.opened_of_inline {before after : List Token} {tok : Token} {t : Forest}
    (htree : ofTokens (before ++ tok :: after) = .ok t) (hnesting : tok.nesting = .alone)
    (hkind : tok.kind = "inline") {counted earlier : List Token} {x : Token}
    (hoccurs : Occurs tok.kids counted earlier x) (hx : x.hasNode = true) :
    1 + nodeCount (inOrder before) + nodeCount earlier < t.size ∧
    t.opened (1 + nodeCount (inOrder before) + nodeCount earlier) =
      x.toNode true (further (breakCount counted) (tok.map.map fun m => m.1 + 1)) := by
  have hnode : tok.hasNode = false := by simp [Token.hasNode, hkind]
  have hinner : tok.inner = tok.kids := by simp [Token.inner, hnesting, hkind]
  have hline : ∀ line, tok.innerLine line = tok.map.map fun m => m.1 + 1 := by
    simp [Token.innerLine, hkind]
  obtain ⟨t₁, stack₁, hbefore, hrest⟩ := attach_append htree
  obtain ⟨t₂, t₃, top, stack₂, hown, -, hkids, hafter⟩ := attach_cons hrest
  rw [hinner, hline] at hkids
  obtain ⟨hsize, hopened⟩ := opened_of_occurs hoccurs hx hkids
  have hlater := attach_adds hafter
  have hstart : t₂.size = 1 + nodeCount (inOrder before) := by
    rw [hown.size_eq, hbefore.size_eq, hnode]
    rfl
  rw [← hstart, hlater.opened_eq _ hsize]
  exact ⟨hsize.trans_le (by rw [hlater.size_eq]; omega), hopened⟩

/-- Every node of inline content without lines of its own stands on the first line of its inline
token, further on by the line breaks before it. Those inside of an image count in the image only:
all breaks before the node count exactly if none is inside of an image that is over. -/
theorem inline_lines {before after : List Token} {tok : Token} {first last : Int} {t : Forest}
    (htree : Forest.ofTokens (before ++ tok :: after) = .ok t) (hnesting : tok.nesting = .alone)
    (hkind : tok.kind = "inline") (hmap : tok.map = some (first, last))
    (hnested : WellNested true tok.kids) {earlier later : List Token} {x : Token}
    (hsplit : inOrder tok.kids = earlier ++ x :: later) (hx : x.hasNode = true) :
    let i := 1 + nodeCount (inOrder before) + nodeCount earlier
    i < t.size ∧ (t.node i).kind = x.nodeKind ∧
      ∃ counted, Occurs tok.kids counted earlier x ∧
        (x.map = none →
          (t.node i).position = some ⟨first + 1 + breakCount counted, 1⟩ ∧
          ((t.node i).position = some ⟨first + 1 + breakCount earlier, 1⟩ ↔
            ∀ y ∈ insides counted, y.breaks = 0)) := by
  obtain ⟨counted, hcounted⟩ := hnested.allOccur earlier x later hsplit
  obtain ⟨hsize, hopened⟩ := Forest.opened_of_inline htree hnesting hkind hcounted hx
  intro i
  refine ⟨hsize, ?_, counted, hcounted, fun hxmap => ?_⟩
  · exact (congrArg Node.kind hopened).trans (x.toNode_kind true _)
  · have hposition : (t.node i).position = some ⟨first + 1 + breakCount counted, 1⟩ := by
      refine ((congrArg Node.position hopened).trans (x.toNode_position true _)).trans ?_
      rw [Token.nodePosition, hxmap, hmap]
      rfl
    refine ⟨hposition, ?_⟩
    rw [hposition, hcounted.breakCount_earlier, ← breakCount_eq_zero_iff]
    simp only [Option.some.injEq, Position.mk.injEq, and_true]
    omega

/-- The tokens of an image whose text goes over two lines. -/
def twoLineText : List Token :=
  [{ kind := "text", content := "a" }, { kind := "softbreak", tag := "br" },
    { kind := "text", content := "b" }]

def twoLineImage : Token := { kind := "image", tag := "img", children := some twoLineText }

/-- A paragraph with such an image and a text behind it. -/
def twoLineParagraph : Token :=
  { kind := "inline", map := some (0, 2),
    children := some [twoLineImage, { kind := "text", content := "c" }] }

def paragraphOpening : Token := { kind := "paragraph_open", tag := "p", nesting := .opens }

def paragraphClosing : Token := { kind := "paragraph_close", tag := "p", nesting := .closes }

theorem inOrder_twoLineParagraph :
    inOrder twoLineParagraph.kids =
      (twoLineImage :: twoLineText) ++ { kind := "text", content := "c" } :: [] := by
  simp [twoLineParagraph, twoLineImage, twoLineText, Token.kids, inOrder_cons, Token.inner,
    inOrder_nil]

theorem wellNested_twoLineParagraph : WellNested true twoLineParagraph.kids := by
  refine .image rfl rfl ?_ (.leaf rfl (by decide) (by decide) .nil)
  exact .leaf rfl (by decide) (by decide) (.leaf rfl (by decide) (by decide)
    (.leaf rfl (by decide) (by decide) .nil))

theorem exists_tree_twoLineParagraph :
    ∃ t, Forest.ofTokens [paragraphOpening, twoLineParagraph, paragraphClosing] = .ok t := by
  have hopening : paragraphOpening.OpensContainer := ⟨rfl, by decide, by decide, by decide⟩
  have hnested : WellNested false [paragraphOpening, twoLineParagraph, paragraphClosing] :=
    .filled hopening rfl rfl rfl rfl wellNested_twoLineParagraph .nil
  obtain ⟨t, ht, -⟩ := hnested.toTokens_eq
  exact ⟨t, ht⟩

theorem inline_lines_twoLineParagraph :
    let c : Token := { kind := "text", content := "c" }
    let earlier := twoLineImage :: twoLineText
    ∃ t, Forest.ofTokens ([paragraphOpening] ++ twoLineParagraph :: [paragraphClosing]) = .ok t ∧
      WellNested true twoLineParagraph.kids ∧
      inOrder twoLineParagraph.kids = earlier ++ c :: [] ∧ c.hasNode = true ∧
      let i := 1 + nodeCount (inOrder [paragraphOpening]) + nodeCount earlier
      i < t.size ∧ (t.node i).kind = c.nodeKind ∧
        ∃ counted, Occurs twoLineParagraph.kids counted earlier c ∧
          (c.map = none →
            (t.node i).position = some ⟨0 + 1 + breakCount counted, 1⟩ ∧
            ((t.node i).position = some ⟨0 + 1 + breakCount earlier, 1⟩ ↔
              ∀ y ∈ insides counted, y.breaks = 0)) := by
  obtain ⟨t, ht⟩ := exists_tree_twoLineParagraph
  exact ⟨t, ht, wellNested_twoLineParagraph, inOrder_twoLineParagraph, rfl,
    inline_lines ht rfl rfl rfl wellNested_twoLineParagraph inOrder_twoLineParagraph rfl⟩

/-- The text behind the image is on the second line of the paragraph, and its node on the first. -/
theorem break_in_image_not_counted :
    inOrder twoLineParagraph.kids =
      (twoLineImage :: twoLineText) ++ { kind := "text", content := "c" } :: [] ∧
    breakCount (twoLineImage :: twoLineText) = 1 ∧
    ∃ t, Forest.ofTokens [paragraphOpening, twoLineParagraph, paragraphClosing] = .ok t ∧
      (t.node 6).literal = some "c" ∧ (t.node 6).position = some ⟨1, 1⟩ := by
  obtain ⟨t, ht⟩ := exists_tree_twoLineParagraph
  have hnode : (Forest.ofTokens [paragraphOpening, twoLineParagraph, paragraphClosing]).toOption.map
      (fun t => ((t.node 6).literal, (t.node 6).position)) = some (some "c", some ⟨1, 1⟩) := by
    decide +kernel
  rw [ht] at hnode
  obtain ⟨hliteral, hposition⟩ := Prod.mk.inj (Option.some.inj hnode)
  exact ⟨inOrder_twoLineParagraph, by decide, t, ht, hliteral, hposition⟩

end Hyperstory
