import Hyperstory.Proofs.Escapes

/-! How a leaf is cut at its references, and what stands in the tree for each of its parts. -/
namespace Hyperstory

open Hyperstory.Tree Expansion

/-- The kinds of directives that refer to something. -/
abbrev ReferenceKind := { kind : DirectiveKind // kind ≠ .sectionBegin }

/-- A part of a text: plain text, or a reference by its name. -/
inductive Segment where
  | text (cs : List Char)
  | reference (kind : ReferenceKind) (name : List Char)

namespace Segment

def raw : Segment → List Char
  | text cs => cs
  | reference kind name => '{' :: kind.1.sigil :: name ++ ['}']

/-- The text before a reference, if there is any. -/
def ahead (cs : List Char) : List Segment := if cs.isEmpty then [] else [.text cs]

/-- The parts of a leaf; one without any text has an empty part. -/
def ofLeaf : List Segment → List Segment
  | [] => [.text []]
  | s :: segs => s :: segs

/-- The part as the walk understands it: names are read, texts are still as they are written. -/
def named : Segment → Segment
  | text cs => text cs
  | reference kind name => reference kind (unescape name)

/-- The part as its author means it. -/
def read : Segment → Segment
  | text cs => text (unescape cs)
  | reference kind name => reference kind (unescape name)

theorem ofLeaf_of_ne_nil {segs : List Segment} (h : segs ≠ []) : ofLeaf segs = segs := by
  cases segs with
  | nil => exact absurd rfl h
  | cons s segs => rfl

theorem map_ofLeaf_read (segs : List Segment) : (ofLeaf segs).map read = ofLeaf (segs.map read) := by
  cases segs with
  | nil => rfl
  | cons s segs => rfl

end Segment

/-- A text is made of these parts: no brace is bare in plain text, no plain text is empty, and a
reference goes up to the brace that closes it. -/
inductive Cut : List Char → List Segment → Prop where
  | nil : Cut [] []
  | text {cs : List Char} (hne : cs ≠ []) (hquiet : ¬ Bare '{' cs) : Cut cs [.text cs]
  | reference {before name rest : List Char} {kind : ReferenceKind} {segs : List Segment}
      (hwhole : Whole before) (hquiet : ¬ Bare '{' before)
      (hspan : Directive.span 0 (Segment.reference kind name).raw =
        some (Segment.reference kind name).raw.length)
      (hrest : Cut rest segs) :
      Cut (before ++ (Segment.reference kind name).raw ++ rest)
        (Segment.ahead before ++ .reference kind name :: segs)

namespace Cut

variable {cs : List Char} {segs : List Segment}

/-- Only the empty text has no parts. -/
theorem eq_nil_iff (h : Cut cs segs) : segs = [] ↔ cs = [] := by
  cases h with
  | nil => simp
  | text hne => simp [hne]
  | reference => simp [Segment.raw]

/-- No brace is bare in plain text. -/
theorem quiet (h : Cut cs segs) {raw : List Char} (hmem : .text raw ∈ segs) : ¬ Bare '{' raw := by
  induction h with
  | nil => cases hmem
  | text _ hquiet =>
    obtain rfl := Segment.text.inj (List.mem_singleton.mp hmem)
    exact hquiet
  | reference _ hquiet _ _ ih =>
    rcases List.mem_append.mp hmem with hmem | hmem
    · unfold Segment.ahead at hmem
      split_ifs at hmem
      · cases hmem
      · obtain rfl := Segment.text.inj (List.mem_singleton.mp hmem)
        exact hquiet
    · rcases List.mem_cons.mp hmem with hmem | hmem
      · cases hmem
      · exact ih hmem

end Cut

namespace DirectiveKind

theorem ofSigil?_sigil (kind : DirectiveKind) : ofSigil? kind.sigil = some kind := by
  cases kind <;> rfl

theorem eq_sigil {c : Char} {kind : DirectiveKind} (h : ofSigil? c = some kind) :
    c = kind.sigil := by
  unfold ofSigil? at h
  split at h <;> cases h <;> rfl

end DirectiveKind

namespace Directive

/-- The characters of a reference are read as that reference. -/
theorem ofText_reference (start : Nat) (kind : ReferenceKind) (name : List Char) :
    ofText start (Segment.reference kind name).raw =
      .ok ⟨kind.1, String.ofList (unescape name), start,
        start + (Segment.reference kind name).raw.length,
        String.ofList (Segment.reference kind name).raw⟩ := by
  obtain ⟨kind, hkind⟩ := kind
  have hsecond : DirectiveKind.ofText?
      (((Segment.reference ⟨kind, hkind⟩ name).raw.drop 1).take 1) = some kind := by
    simp [Segment.raw, DirectiveKind.ofText?, DirectiveKind.ofSigil?_sigil]
  have hname : nameOf kind (Segment.reference ⟨kind, hkind⟩ name).raw = name := by
    unfold nameOf
    split
    · exact absurd rfl hkind
    · simp [Segment.raw]
  rw [ofText, hsecond]
  dsimp only
  rw [hname]

/-- What is read as a reference is written as one. -/
theorem ofText_eq_ok {start : Nat} {body : List Char} {d : Directive}
    (h : ofText start (body ++ ['}']) = .ok d) (hhead : (body ++ ['}']).head? = some '{')
    (hkind : d.kind ≠ .sectionBegin) :
    ∃ name, body ++ ['}'] = (Segment.reference ⟨d.kind, hkind⟩ name).raw := by
  match body with
  | [] => simp at hhead
  | [c] =>
    rw [ofText, show ((([c] ++ ['}']).drop 1).take 1) = ['}'] from rfl] at h
    cases h
  | c :: sigil :: name =>
    rw [ofText, show (((c :: sigil :: name ++ ['}']).drop 1).take 1) = [sigil] from rfl] at h
    cases hsigil : DirectiveKind.ofSigil? sigil with
    | none =>
      rw [DirectiveKind.ofText?, hsigil] at h
      cases h
    | some kind =>
      rw [DirectiveKind.ofText?, hsigil] at h
      cases h
      obtain rfl : c = '{' := by simpa using hhead
      refine ⟨name, ?_⟩
      rw [DirectiveKind.eq_sigil hsigil]
      rfl

/-- The directive that a reference is read as, behind some characters. -/
def ofReference (before : List Char) (kind : ReferenceKind) (name : List Char) : Directive :=
  ⟨kind.1, String.ofList (unescape name), before.length,
    before.length + (Segment.reference kind name).raw.length,
    String.ofList (Segment.reference kind name).raw⟩

theorem kind_ofReference_ne (before : List Char) (kind : ReferenceKind) (name : List Char) :
    (ofReference before kind name).kind ≠ .sectionBegin := kind.2

theorem reference_ofReference (before : List Char) (kind : ReferenceKind) (name : List Char) :
    (ofReference before kind name).reference = String.ofList (kind.1.sigil :: unescape name) := by
  obtain ⟨kind, hkind⟩ := kind
  unfold ofReference reference
  cases kind with
  | sectionBegin => exact absurd rfl hkind
  | sectionRef => simp
  | functionRef => simp
  | variableRef => simp

/-- The first reference of a text is found and read. -/
theorem scan_reference {before name : List Char} {kind : ReferenceKind} (hwhole : Whole before)
    (hquiet : ¬ Bare '{' before)
    (hspan : span 0 (Segment.reference kind name).raw =
      some (Segment.reference kind name).raw.length) (rest : List Char) :
    ∃ o, Opening.find? ⟨0, 0, 0⟩ (before ++ (Segment.reference kind name).raw ++ rest) = some o ∧
      scan (before ++ (Segment.reference kind name).raw ++ rest) o.index =
        .ok (ofReference before kind name) := by
  obtain ⟨o, hfind, hindex⟩ := Opening.find?_append ⟨0, 0, 0⟩ hwhole hquiet
    (kind.1.sigil :: name ++ ['}'] ++ rest)
  have hcs : before ++ (Segment.reference kind name).raw ++ rest =
      before ++ '{' :: (kind.1.sigil :: name ++ ['}'] ++ rest) := by
    simp [Segment.raw]
  refine ⟨o, by rw [hcs, hfind], ?_⟩
  have hdrop : (before ++ (Segment.reference kind name).raw ++ rest).drop o.index =
      (Segment.reference kind name).raw ++ rest := by
    rw [hindex, List.append_assoc, Nat.zero_add, List.drop_left]
  rw [scan, hdrop, span_append hspan]
  dsimp only
  rw [List.take_left, ofText_reference, hindex, Nat.zero_add]
  rfl

/-- A directive that is found and is no section is a reference. -/
theorem exists_reference {cs : List Char} {o : Opening} {d : Directive}
    (hfind : Opening.find? ⟨0, 0, 0⟩ cs = some o) (hscan : scan cs o.index = .ok d)
    (hkind : d.kind ≠ .sectionBegin) :
    ∃ before kind name rest, cs = before ++ (Segment.reference kind name).raw ++ rest ∧
      Whole before ∧ ¬ Bare '{' before ∧
      span 0 (Segment.reference kind name).raw =
        some (Segment.reference kind name).raw.length ∧
      d = ofReference before kind name := by
  obtain ⟨before, after, rfl, hwhole, hquiet, hindex⟩ := Opening.find?_eq_some hfind
  rw [Nat.zero_add] at hindex
  have hdrop : (before ++ '{' :: after).drop o.index = '{' :: after := by
    rw [hindex, List.drop_left]
  rw [scan, hdrop] at hscan
  cases hspan : span 0 ('{' :: after) with
  | none =>
    rw [hspan] at hscan
    cases hscan
  | some n =>
    obtain ⟨body, rest, hbody, rfl, hclosed⟩ := span_eq_some hspan
    have htext : ('{' :: after).take (body.length + 1) = body ++ ['}'] := by
      rw [hbody, List.take_length_add_append]
      rfl
    rw [hspan] at hscan
    dsimp only at hscan
    rw [htext] at hscan
    have hhead : (body ++ ['}']).head? = some '{' := by
      rw [← htext]
      rfl
    obtain ⟨name, hname⟩ := ofText_eq_ok hscan hhead hkind
    rw [hname] at hscan hclosed
    have hlength : (Segment.reference ⟨d.kind, hkind⟩ name).raw.length = body.length + 1 := by
      rw [← hname, List.length_append]
      rfl
    refine ⟨before, ⟨d.kind, hkind⟩, name, rest, ?_, hwhole, hquiet, by rw [hclosed, hlength], ?_⟩
    · rw [← hname, hbody]
      simp
    · rw [ofText_reference, hindex] at hscan
      exact (Except.ok.inj hscan).symm

end Directive

/-- The second leaf differs from the first in its place and its words only. -/
structure SameLeaf (n m : Node) : Prop where
  kind : m.kind = n.kind
  inline : m.inline = n.inline
  container : m.container = n.container
  token : m.token = n.token
  worded : m.literal.isSome = n.literal.isSome

namespace SameLeaf

variable {n m k : Node}

theorem refl (n : Node) : SameLeaf n n := ⟨rfl, rfl, rfl, rfl, rfl⟩

theorem trans (h : SameLeaf n m) (h' : SameLeaf m k) : SameLeaf n k :=
  ⟨h'.kind.trans h.kind, h'.inline.trans h.inline, h'.container.trans h.container,
    h'.token.trans h.token, h'.worded.trans h.worded⟩

end SameLeaf

theorem Node.isSome_literal {n : Node} (h : n.characters ≠ []) : n.literal.isSome = true := by
  unfold Node.characters at h
  cases hn : n.literal with
  | none =>
    rw [hn] at h
    exact absurd rfl h
  | some s => rfl

@[simp]
theorem Expansion.characters_unescaped {n : Node} (hs : isScanned n.kind = true) :
    (unescaped n).characters = unescape n.characters := by
  unfold unescaped
  rw [if_pos hs]
  unfold Node.characters
  cases n.literal with
  | none => simp
  | some s => simp

theorem SameLeaf.unescaped (n : Node) : SameLeaf n (Expansion.unescaped n) := by
  unfold Expansion.unescaped
  split_ifs
  · exact ⟨rfl, rfl, rfl, rfl, by simp⟩
  · exact .refl n

namespace Segment

/-- A part of the leaf `n` as it stands in the tree: a leaf of the same sort with its text, or the
expansion of a reference in its place. -/
def Shown (n : Node) : Segment → Tree Node → Prop
  | text cs, x => ∃ m, x = .node m [] ∧ SameLeaf n m ∧ m.characters = cs
  | reference kind name, x => ∃ place,
      x = .node { markupNode n
        (Markup.expansionIn n.kind (String.ofList (kind.1.sigil :: name))) with position := place } []

/-- A leaf of the same sort has its parts shown in the same way. -/
theorem Shown.of_sameLeaf {n m : Node} {s : Segment} {x : Tree Node} (h : SameLeaf n m)
    (hx : s.Shown m x) : s.Shown n x := by
  cases s with
  | text cs =>
    obtain ⟨k, rfl, hsame, hcs⟩ := hx
    exact ⟨k, rfl, h.trans hsame, hcs⟩
  | reference kind name =>
    obtain ⟨place, rfl⟩ := hx
    refine ⟨place, ?_⟩
    rw [h.kind]
    simp only [markupNode, h.inline]

/-- Removing escapes reads the plain texts. -/
theorem Shown.unescaped {n : Node} {s : Segment} {x : Tree Node} (hs : isScanned n.kind = true)
    (hx : s.named.Shown n x) : s.read.Shown n (x.map Expansion.unescaped) := by
  cases s with
  | text cs =>
    obtain ⟨m, rfl, hsame, rfl⟩ := hx
    refine ⟨Expansion.unescaped m, by simp, hsame.trans (.unescaped m), ?_⟩
    rw [characters_unescaped (by rwa [hsame.kind])]
  | reference kind name =>
    obtain ⟨place, rfl⟩ := hx
    refine ⟨place, ?_⟩
    rw [map_node, mapAll_nil]
    simp [Expansion.unescaped, markupNode, isScanned]

end Segment

namespace Expansion

variable {path : String} {place : Place} {n : Node} {before name rest : List Char}
  {kind : ReferenceKind}

theorem kept_shown (hcs : n.characters = before ++ (Segment.reference kind name).raw ++ rest) :
    List.Forall₂ (fun s => s.named.Shown n) (Segment.ahead before)
      (kept n (Directive.ofReference before kind name)) := by
  have htake : n.characters.take (Directive.ofReference before kind name).start = before := by
    rw [hcs, List.append_assoc]
    exact List.take_left
  have hsome : n.literal.isSome = true := Node.isSome_literal (by rw [hcs]; simp [Segment.raw])
  unfold kept Segment.ahead
  rw [htake]
  split_ifs
  · exact .nil
  · refine .cons ⟨_, rfl, ⟨rfl, rfl, rfl, rfl, hsome.symm⟩, ?_⟩ .nil
    simpa [shortened, Node.characters] using htake

theorem expanded_shown (n : Node) (before name : List Char) (kind : ReferenceKind) :
    (Segment.reference kind name).named.Shown n
      (expanded n (Directive.ofReference before kind name)) := by
  refine ⟨n.position, ?_⟩
  rw [expanded, Directive.reference_ofReference]
  rfl

theorem drop_stop (hcs : n.characters = before ++ (Segment.reference kind name).raw ++ rest) :
    n.characters.drop (Directive.ofReference before kind name).stop = rest := by
  rw [hcs, Directive.ofReference]
  dsimp only
  rw [← List.length_append, List.drop_left]

/-- What stands after a reference is a leaf of the same sort. -/
theorem sameLeaf_remainder (hc : n.container = false)
    (hcs : n.characters = before ++ (Segment.reference kind name).raw ++ rest) (d : Directive)
    (o : Opening) : SameLeaf n (remainder n d o) := by
  have hsome : n.literal.isSome = true := Node.isSome_literal (by rw [hcs]; simp [Segment.raw])
  exact ⟨rfl, rfl, hc.symm, rfl, hsome.symm⟩

/-- The walk cuts a leaf into parts of its text. -/
theorem segments_cut {out : List (Tree Node)} (hc : n.container = false)
    (h : segments path place n = .ok out) :
    ∃ segs, Cut n.characters segs ∧
      List.Forall₂ (fun s => s.named.Shown n) (Segment.ofLeaf segs) out := by
  fun_induction segments path place n generalizing out with
  | case1 place n hfind =>
    obtain rfl := Except.ok.inj h
    rw [Opening.find?_eq_none_iff] at hfind
    by_cases hcs : n.characters = []
    · rw [hcs]
      exact ⟨[], .nil, .cons ⟨n, rfl, .refl n, hcs⟩ .nil⟩
    · exact ⟨[.text n.characters], .text hcs hfind, .cons ⟨n, rfl, .refl n, rfl⟩ .nil⟩
  | case2 => cases h
  | case3 => cases h
  | case4 place n o hfind d hscan hbegin hrest =>
    obtain rfl := Except.ok.inj h
    obtain ⟨before, kind, name, rest, hcs, hwhole, hquiet, hspan, rfl⟩ :=
      Directive.exists_reference hfind hscan hbegin
    rw [drop_stop hcs, List.isEmpty_iff] at hrest
    subst hrest
    refine ⟨Segment.ahead before ++ [.reference kind name], ?_, ?_⟩
    · rw [hcs]
      exact .reference hwhole hquiet hspan .nil
    · rw [Segment.ofLeaf_of_ne_nil (by simp)]
      exact List.rel_append (kept_shown hcs) (.cons (expanded_shown n before name kind) .nil)
  | case5 place n o hfind d hscan hbegin hrest row hrow ih =>
    obtain rfl := Except.ok.inj h
    obtain ⟨before, kind, name, rest, hcs, hwhole, hquiet, hspan, rfl⟩ :=
      Directive.exists_reference hfind hscan hbegin
    obtain ⟨segs, hcut, hshown⟩ := ih rfl hrow
    rw [characters_remainder] at hcut
    rw [drop_stop hcs] at hrest hcut
    rw [Segment.ofLeaf_of_ne_nil (mt hcut.eq_nil_iff.mp (by simpa using hrest))] at hshown
    refine ⟨Segment.ahead before ++ .reference kind name :: segs, ?_, ?_⟩
    · rw [hcs]
      exact .reference hwhole hquiet hspan hcut
    · rw [Segment.ofLeaf_of_ne_nil (by simp)]
      have hsame := sameLeaf_remainder hc hcs (Directive.ofReference before kind name) o
      exact List.rel_append (kept_shown hcs) (.cons (expanded_shown n before name kind)
        (hshown.imp fun _ _ hx => hx.of_sameLeaf hsame))
  | case6 => cases h

/-- A leaf that is made of parts is cut into them. -/
theorem segments_of_cut {cs : List Char} {segs : List Segment} (hcut : Cut cs segs)
    (hcs : n.characters = cs) (hc : n.container = false) :
    ∃ out, (∀ place, segments path place n = .ok out) ∧
      List.Forall₂ (fun s => s.named.Shown n) (Segment.ofLeaf segs) out := by
  induction hcut generalizing n with
  | nil =>
    refine ⟨[.node n []], fun place => ?_, .cons ⟨n, rfl, .refl n, hcs⟩ .nil⟩
    rw [segments_eq, Opening.find?_eq_none_iff.mpr (by rw [hcs]; exact Bare.not_nil)]
  | text _ hquiet =>
    refine ⟨[.node n []], fun place => ?_, .cons ⟨n, rfl, .refl n, hcs⟩ .nil⟩
    rw [segments_eq, Opening.find?_eq_none_iff.mpr (by rw [hcs]; exact hquiet)]
  | @reference before name rest kind segs hwhole hquiet hspan hrest ih =>
    obtain ⟨o, hfind, hscan⟩ := Directive.scan_reference hwhole hquiet hspan rest
    rw [← hcs] at hfind hscan
    rw [Segment.ofLeaf_of_ne_nil (by simp)]
    have hfirst := kept_shown hcs
    have hsecond := expanded_shown n before name kind
    by_cases hempty : rest = []
    · rw [hrest.eq_nil_iff.mpr hempty]
      refine ⟨_, fun place => ?_, List.rel_append hfirst (.cons hsecond .nil)⟩
      rw [segments_eq, hfind]
      dsimp only
      rw [hscan]
      dsimp only
      rw [if_neg (Directive.kind_ofReference_ne before kind name), drop_stop hcs,
        if_pos (List.isEmpty_iff.mpr hempty)]
    · have hsame := sameLeaf_remainder hc hcs (Directive.ofReference before kind name) o
      obtain ⟨row, hrow, hshown⟩ := ih (n := remainder n (Directive.ofReference before kind name) o)
        (by rw [characters_remainder, drop_stop hcs]) rfl
      rw [Segment.ofLeaf_of_ne_nil (mt hrest.eq_nil_iff.mp hempty)] at hshown
      refine ⟨_, fun place => ?_, List.rel_append hfirst
        (.cons hsecond (hshown.imp fun _ _ hx => hx.of_sameLeaf hsame))⟩
      rw [segments_eq, hfind]
      dsimp only
      rw [hscan]
      dsimp only
      rw [if_neg (Directive.kind_ofReference_ne before kind name), drop_stop hcs,
        if_neg (by simpa using hempty), hrow]

/-- The parts of a leaf after the walk and after the removal of escapes. -/
theorem forall₂_unescaped {segs : List Segment} {out : List (Tree Node)}
    (hs : isScanned n.kind = true)
    (h : List.Forall₂ (fun s => s.named.Shown n) segs out) :
    List.Forall₂ (Segment.Shown n) (segs.map Segment.read) (mapAll unescaped out) := by
  induction h with
  | nil => rw [mapAll_nil]; exact .nil
  | cons hx _ ih =>
    rw [mapAll_cons]
    exact .cons (hx.unescaped hs) ih

end Expansion

end Hyperstory
