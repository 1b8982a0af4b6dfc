import Hyperstory.Proofs.Walk
import Hyperstory.Story.Compiler

/-! Compiling a token stream, told by the recursion over its tree. -/
namespace Hyperstory

open Hyperstory.Tree

namespace Compiler

def tally (c : Compiler) : Tally := { nextInline := c.nextInline, taken := c.sections }

/-- The tokens of a file make a tree, and joining its texts gives `t`. -/
def Joins (tokens : List Token) (t : Forest) : Prop :=
  ∃ raw, Forest.ofTokens tokens = .ok raw ∧ raw.mergeText 0 = (t, none)

/-- The joined tree of a file, if its tokens make one. -/
def joined? (tokens : List Token) : Option Forest :=
  match Forest.ofTokens tokens with
  | .error _ => none
  | .ok raw => if (raw.mergeText 0).2.isNone then some (raw.mergeText 0).1 else none

theorem joins_iff {tokens : List Token} {t : Forest} :
    Joins tokens t ↔ joined? tokens = some t := by
  unfold Joins joined?
  cases Forest.ofTokens tokens with
  | error f => simp
  | ok raw =>
    cases hmerge : raw.mergeText 0 with
    | mk t' f => cases f <;> simp [hmerge]

variable {c : Compiler} {path : String} {tokens : List Token} {t t' : Forest} {tally' : Tally}

theorem Joins.document (h : Joins tokens t) : ∃ kids, t.Document kids := by
  obtain ⟨raw, hraw, hmerge⟩ := h
  obtain ⟨kids, hd⟩ := (Forest.ofTokens_grown (Q := fun _ _ => True) hraw
    fun _ _ _ => trivial).document
  obtain ⟨kids', hd', -⟩ := Forest.mergeText_document hd hmerge
  exact ⟨kids', hd'⟩

/-- A file fails where the recursion over its tree fails. -/
theorem compileTokens_of_error (h : Joins tokens t) {e : Failure}
    (hall : Expansion.all path c.tally t 0 = (tally', .error e)) :
    (c.compileTokens path tokens).outcome = .error e ∧
      (c.compileTokens path tokens).compiler = c.startFile.withTally tally' := by
  obtain ⟨raw, hraw, hmerge⟩ := h
  have hall : Expansion.all path
      { nextInline := c.startFile.nextInline, taken := c.startFile.sections } t 0 =
      (tally', .error e) := hall
  unfold compileTokens
  dsimp only
  rw [hraw]
  dsimp only
  unfold compileTree
  rw [hmerge]
  dsimp only
  rw [hall]
  exact ⟨rfl, rfl⟩

/-- Otherwise the last section is closed and the page is written. -/
theorem compileTokens_of_ok (h : Joins tokens t)
    (hall : Expansion.all path c.tally t 0 = (tally', .ok t')) :
    (c.compileTokens path tokens).outcome =
        ((c.startFile.withTally tally').finish path t').outcome ∧
      (c.compileTokens path tokens).compiler =
        ((c.startFile.withTally tally').finish path t').compiler := by
  obtain ⟨raw, hraw, hmerge⟩ := h
  have hall : Expansion.all path
      { nextInline := c.startFile.nextInline, taken := c.startFile.sections } t 0 =
      (tally', .ok t') := hall
  unfold compileTokens
  dsimp only
  rw [hraw]
  dsimp only
  unfold compileTree
  rw [hmerge]
  dsimp only
  rw [hall]
  exact ⟨rfl, rfl⟩

/-- Finishing a file changes nothing that the walk has counted. -/
theorem finish_counts (c : Compiler) (path : String) (t : Forest) :
    (c.finish path t).compiler.nextInline = c.nextInline ∧
      (c.finish path t).compiler.sectionCount = c.sectionCount ∧
      (c.finish path t).compiler.fileSections = c.fileSections := by
  unfold finish
  dsimp only
  split
  · exact ⟨rfl, rfl, rfl⟩
  · split_ifs
    · exact ⟨rfl, rfl, rfl⟩
    · exact ⟨rfl, rfl, rfl⟩

def closingNode : Node := { kind := "html_inline", literal := some Markup.sectionEnd }

/-- A tree without escapes, and with the end of the last section. -/
def closed (t : Forest) : Forest := endSection (t.stripEscapes 0)

theorem endSection_eq (t : Forest) :
    endSection t = (t.add closingNode).1.appendChild 0 t.size := by
  rw [← Expansion.add_snd t closingNode]
  rfl

theorem endSection_tree {kids : NodeId → List NodeId} (hd : t.Document kids) :
    (∃ kids', (endSection t).Linked kids') ∧
      (endSection t).tree 0 =
        .node (t.tree 0).value ((t.tree 0).row ++ [.node closingNode []]) := by
  obtain ⟨cs, hvalues, hcs⟩ := hd.linked.exists_row (kids 0)
  have htop := hvalues.symm
  have hlinked := hd.linked.appendChild_add hd.size_pos (n := closingNode) rfl
  have hlabel : ∀ j, (endSection t).label j = if j = t.size then closingNode else t.label j := by
    intro j
    rw [endSection_eq, Forest.label_appendChild, Forest.label_add]
    rfl
  have hbounds : ∀ j : Nat, j ∈ valuesAll cs → 0 < j ∧ j < t.size := fun j hj =>
    ⟨hd.linked.lt_of_mem_valuesAll hcs (fun c hc => (hd.linked.later 0 c (htop ▸ hc)).1) hj,
      hd.linked.lt_size_of_mem_valuesAll hcs (fun c hc => (hd.linked.later 0 c (htop ▸ hc)).2) hj⟩
  have hrow : Follows (Function.update kids 0 (kids 0 ++ [t.size]))
      [.node 0 (cs ++ [.node t.size []])] := by
    refine .cons (by simp [htop]) (Follows.append_iff.mpr ⟨?_, .cons ?_ .nil .nil⟩) .nil
    · exact hcs.congr fun j hj => Function.update_of_ne (hbounds j hj).1.ne' _ _
    · rw [Function.update_of_ne hd.size_pos.ne']
      exact hd.linked.kids_eq_nil le_rfl
  have hlabels : mapAll (endSection t).label cs = mapAll t.label cs := by
    refine mapAll_congr fun j hj => ?_
    rw [hlabel, if_neg (hbounds j hj).2.ne]
  refine ⟨⟨_, by rw [endSection_eq]; exact hlinked⟩, ?_⟩
  rw [hd.linked.tree_eq (.cons htop hcs .nil), endSection_eq, hlinked.tree_eq hrow]
  rw [endSection_eq] at hlabels hlabel
  simp only [value_node, row_node, mapAll_append, hlabels, mapAll_cons, map_node, mapAll_nil,
    hlabel, hd.size_pos.ne]
  simp

/-- The tree that a page is written from. -/
theorem closed_tree {kids : NodeId → List NodeId} (hd : t.Document kids) :
    (∃ kids', (closed t).Linked kids') ∧
      (closed t).tree 0 = .node (t.tree 0).value
        (mapAll Expansion.unescaped (t.tree 0).row ++ [.node closingNode []]) := by
  obtain ⟨⟨kids', hd'⟩, htree⟩ := Forest.stripEscapes_tree hd
  obtain ⟨hlinked, hclosed⟩ := endSection_tree hd'
  refine ⟨hlinked, ?_⟩
  rw [closed, hclosed, htree]
  rfl

theorem finish_eq (c : Compiler) (path : String) (t : Forest) :
    c.finish path t =
      match ((t.stripEscapes 0).links 0).firstChild with
      | none => ⟨.ok "", c, []⟩
      | some first =>
        if c.sectionCount = 0 then
          ⟨.error (.problem (Located.locate ⟨Cause.noSection, none, none, none⟩ (some path)
            ((t.stripEscapes 0).node first).position)), c, []⟩
        else
          ⟨page (closed t), { c with sections := c.fileSections ++ c.sections },
            c.treeLog "FINAL AST" (closed t)⟩ := rfl

/-- The pass over the escapes leaves a first block where there is one. -/
theorem firstChild_stripEscapes {kids : NodeId → List NodeId} (hd : t.Document kids) :
    ((t.stripEscapes 0).links 0).firstChild = none ↔ (t.tree 0).row = [] := by
  obtain ⟨cs, hvalues, hcs⟩ := hd.linked.exists_row (kids 0)
  have htop := hvalues.symm
  have hstrip := Forest.stripEscapes_stripped hd hd.size_pos hd.rootContainer htop hcs
  rw [hd.linked.tree_eq (.cons htop hcs .nil), row_node, hstrip.links, hd.linked.firstChild, htop,
    mapAll_eq_nil, List.head?_eq_none_iff, List.map_eq_nil_iff]

theorem finish_of_nil {kids : NodeId → List NodeId} (hd : t.Document kids)
    (h : (t.tree 0).row = []) : c.finish path t = ⟨.ok "", c, []⟩ := by
  rw [finish_eq, (firstChild_stripEscapes hd).mpr h]

theorem position_firstChild {kids : NodeId → List NodeId} (hd : t.Document kids)
    {x : Tree Node} {rest : List (Tree Node)} (h : (t.tree 0).row = x :: rest) :
    ∃ first, ((t.stripEscapes 0).links 0).firstChild = some first ∧
      ((t.stripEscapes 0).node first).position = x.value.position := by
  obtain ⟨cs, hvalues, hcs⟩ := hd.linked.exists_row (kids 0)
  have htop := hvalues.symm
  have hstrip := Forest.stripEscapes_stripped hd hd.size_pos hd.rootContainer htop hcs
  rw [hd.linked.tree_eq (.cons htop hcs .nil), row_node] at h
  cases cs with
  | nil => simp at h
  | cons y cs =>
    obtain ⟨i, ds⟩ := y
    rw [mapAll_cons, map_node] at h
    obtain ⟨rfl, -⟩ := List.cons.inj h
    refine ⟨i, by rw [hstrip.links, hd.linked.firstChild, htop]; rfl, ?_⟩
    show ((t.stripEscapes 0).label i).position = (t.label i).position
    rw [hstrip.label, Expansion.unescaped]
    split_ifs <;> rfl

/-- A file with content but without a section has a problem. -/
theorem finish_of_no_section {kids : NodeId → List NodeId} (hd : t.Document kids)
    {x : Tree Node} {rest : List (Tree Node)} (h : (t.tree 0).row = x :: rest)
    (hcount : c.sectionCount = 0) :
    c.finish path t = ⟨.error (.problem (Located.locate ⟨Cause.noSection, none, none, none⟩
      (some path) x.value.position)), c, []⟩ := by
  obtain ⟨first, hfirst, hposition⟩ := position_firstChild hd h
  rw [finish_eq, hfirst]
  dsimp only
  rw [if_pos hcount, hposition]

theorem finish_of_ne_nil {kids : NodeId → List NodeId} (hd : t.Document kids)
    (h : (t.tree 0).row ≠ []) (hcount : c.sectionCount ≠ 0) :
    (c.finish path t).outcome = page (closed t) ∧
      (c.finish path t).compiler = { c with sections := c.fileSections ++ c.sections } := by
  rw [finish_eq]
  cases hfirst : ((t.stripEscapes 0).links 0).firstChild with
  | none => exact absurd ((firstChild_stripEscapes hd).mp hfirst) h
  | some first =>
    dsimp only
    rw [if_neg hcount]
    dsimp only
    exact ⟨rfl, rfl⟩

/-- A file is compiled when it is empty, or when it has sections and its page can be written. -/
theorem finish_eq_ok {kids : NodeId → List NodeId} (hd : t.Document kids) {html : String}
    (h : (c.finish path t).outcome = .ok html) :
    ((t.tree 0).row = [] ∧ html = "" ∧ (c.finish path t).compiler = c) ∨
      ((t.tree 0).row ≠ [] ∧ c.sectionCount ≠ 0 ∧ page (closed t) = .ok html ∧
        (c.finish path t).compiler = { c with sections := c.fileSections ++ c.sections }) := by
  cases hrow : (t.tree 0).row with
  | nil =>
    rw [finish_of_nil hd hrow] at h ⊢
    exact Or.inl ⟨rfl, (Except.ok.inj h).symm, rfl⟩
  | cons x rest =>
    have hne : (t.tree 0).row ≠ [] := by simp [hrow]
    by_cases hcount : c.sectionCount = 0
    · rw [finish_of_no_section hd hrow hcount] at h
      cases h
    · obtain ⟨houtcome, hcompiler⟩ := finish_of_ne_nil hd hne hcount
      rw [houtcome] at h
      exact Or.inr ⟨by simp, hcount, h, hcompiler⟩

/-- The page of a tree is the stream of its blocks, rendered. -/
theorem page_eq {kids : NodeId → List NodeId} (h : t.Linked kids) :
    page t = (Expansion.streamsOf (t.tree 0).row >>= fun parts =>
      Slot.render (Forest.groupRuns [] parts)).mapError Failure.fault := by
  obtain ⟨cs, hvalues, hcs⟩ := h.exists_row (kids 0)
  have htokens := Forest.slotsBelow_eq h hvalues.symm hcs .block
  rw [h.tree_eq (.cons hvalues.symm hcs .nil), row_node]
  unfold page Forest.toTokens
  rw [htokens]
  cases Expansion.streamsOf (mapAll t.label cs) with
  | error f => rfl
  | ok parts =>
    simp only [bind, Except.bind, Forest.Layout.join]
    cases Slot.render (Forest.groupRuns [] parts) <;> rfl

/-- A page can be written when the blocks of its tree have a stream and that can be rendered. -/
theorem page_isOk_iff {kids : NodeId → List NodeId} (h : t.Linked kids) :
    (page t).isOk = true ↔ ∃ parts, Expansion.streamsOf (t.tree 0).row = .ok parts ∧
      (Slot.render (Forest.groupRuns [] parts)).isOk = true := by
  rw [page_eq h]
  cases Expansion.streamsOf (t.tree 0).row with
  | error f => simp [bind, Except.bind, Except.mapError, Except.isOk, Except.toBool]
  | ok parts =>
    simp only [bind, Except.bind, Except.ok.injEq, exists_eq_left']
    cases Slot.render (Forest.groupRuns [] parts) <;> rfl

theorem page_ne_problem (t : Forest) (d : Diagnostic) : page t ≠ .error (.problem d) := by
  intro h
  unfold page at h
  cases htokens : t.toTokens 0 with
  | error f => rw [htokens] at h; cases h
  | ok slots =>
    rw [htokens] at h
    dsimp only at h
    cases hrender : Slot.render slots with
    | error f => rw [hrender] at h; cases h
    | ok html => rw [hrender] at h; cases h

/-- A problem of a file is found before any name is committed. -/
theorem finish_sections_of_problem {d : Diagnostic}
    (h : (c.finish path t).outcome = .error (.problem d)) :
    (c.finish path t).compiler.sections = c.sections := by
  rw [finish_eq] at h ⊢
  cases hfirst : ((t.stripEscapes 0).links 0).firstChild with
  | none => rfl
  | some first =>
    rw [hfirst] at h
    dsimp only at h ⊢
    by_cases hcount : c.sectionCount = 0
    · rw [if_pos hcount]
    · rw [if_neg hcount] at h
      dsimp only at h
      exact absurd h (page_ne_problem _ d)

theorem Joins.rootKind (h : Joins tokens t) : (t.tree 0).value.kind = "document" := by
  obtain ⟨kids, hd⟩ := h.document
  obtain ⟨cs, hvalues, hcs⟩ := hd.linked.exists_row (kids 0)
  rw [hd.linked.tree_eq (.cons hvalues.symm hcs .nil)]
  exact hd.rootKind

/-- The loop over the joined tree of a file does what the recursion over its rows does. -/
theorem Joins.all_eq (h : Joins tokens t) (path : String) (tally : Tally) :
    ∃ final,
      Expansion.all path tally t 0 =
        ((Expansion.expandAll .standard path { parentKind := "document" } tally
          (t.tree 0).row).1, final) ∧
      (∀ e, (Expansion.expandAll .standard path { parentKind := "document" } tally
        (t.tree 0).row).2 = .error e → final = .error e) ∧
      ∀ out, (Expansion.expandAll .standard path { parentKind := "document" } tally
          (t.tree 0).row).2 = .ok out →
        ∃ t' kids', final = .ok t' ∧ t'.Document kids' ∧
          t'.tree 0 = .node (t.tree 0).value out := by
  obtain ⟨kids, hd⟩ := h.document
  obtain ⟨final, hruns, hfinal, hdocument⟩ := Expansion.document_runs path tally hd
  have hall : Expansion.all path tally t 0 = _ := Expansion.walk_of_runs hruns
  rw [Expansion.expandDocument_fst, h.rootKind] at hall
  refine ⟨final, hall, ?_⟩
  cases htree : t.tree 0 with
  | node n row =>
    have hkind : n.kind = "document" := by
      have := h.rootKind
      rwa [htree] at this
    rw [htree, Expansion.expandDocument, hkind] at hfinal
    rw [row_node, value_node]
    cases hrow : Expansion.expandAll .standard path { parentKind := "document" } tally row with
    | mk tally' result =>
      rw [hrow] at hfinal
      cases result with
      | error e =>
        refine ⟨fun e' he => ?_, fun out hout => (by cases hout)⟩
        obtain rfl := Except.error.inj he
        cases final with
        | error e' => exact congrArg _ (Except.error.inj hfinal)
        | ok t' => cases hfinal
      | ok out =>
        refine ⟨fun e he => (by cases he), fun out' hout => ?_⟩
        obtain rfl := Except.ok.inj hout
        cases final with
        | error e => cases hfinal
        | ok t' =>
          obtain ⟨kids', hd'⟩ := hdocument t' rfl
          exact ⟨t', kids', rfl, hd', Except.ok.inj hfinal⟩

/-- Without a joined tree a file is faulty for every compiler, and does nothing to it. -/
theorem joins_or_faulty (tokens : List Token) :
    (∃ t, Joins tokens t) ∨
      ∃ f, ∀ (c : Compiler) (path : String),
        (c.compileTokens path tokens).outcome = .error (.fault f) ∧
          (c.compileTokens path tokens).compiler = c.startFile := by
  unfold compileTokens
  cases hraw : Forest.ofTokens tokens with
  | error f => exact Or.inr ⟨f, fun _ _ => ⟨rfl, rfl⟩⟩
  | ok raw =>
    dsimp only
    unfold compileTree
    cases hmerge : raw.mergeText 0 with
    | mk t f =>
      cases f with
      | some f => exact Or.inr ⟨f, fun _ _ => ⟨rfl, rfl⟩⟩
      | none => exact Or.inl ⟨t, raw, hraw, hmerge⟩

theorem joins_or_fault (c : Compiler) (path : String) (tokens : List Token) :
    (∃ t, Joins tokens t) ∨
      ∃ f, (c.compileTokens path tokens).outcome = .error (.fault f) ∧
        (c.compileTokens path tokens).compiler = c.startFile :=
  (joins_or_faulty tokens).imp_right fun ⟨f, hf⟩ => ⟨f, hf c path⟩

/-- What a page comes from: the recursion goes over the joined tree without a problem, and what it
leaves is empty or has sections. -/
theorem compileTokens_eq_ok {html : String}
    (h : (c.compileTokens path tokens).outcome = .ok html) :
    ∃ t tally' t' out, Joins tokens t ∧ Expansion.all path c.tally t 0 = (tally', .ok t') ∧
      Expansion.expandAll .standard path { parentKind := "document" } c.tally (t.tree 0).row =
        (tally', .ok out) ∧
      ((out = [] ∧ html = "" ∧
          (c.compileTokens path tokens).compiler = c.startFile.withTally tally') ∨
        (tally'.count ≠ 0 ∧ page (closed t') = .ok html ∧
          ((closed t').tree 0).row = mapAll Expansion.unescaped out ++ [.node closingNode []] ∧
          (c.compileTokens path tokens).compiler =
            { c.startFile.withTally tally' with sections := tally'.declared ++ c.sections })) := by
  obtain ⟨t, hjoins⟩ : ∃ t, Joins tokens t := by
    rcases joins_or_fault c path tokens with hjoins | ⟨f, hfault, -⟩
    · exact hjoins
    · rw [hfault] at h
      cases h
  obtain ⟨kids, hd⟩ := hjoins.document
  obtain ⟨final, hruns, hfinal, hdocument⟩ := Expansion.document_runs path c.tally hd
  have hall : Expansion.all path c.tally t 0 = _ := Expansion.walk_of_runs hruns
  cases final with
  | error e =>
    obtain ⟨houtcome, -⟩ := compileTokens_of_error hjoins hall
    rw [houtcome] at h
    cases h
  | ok t' =>
    obtain ⟨kids', hd'⟩ := hdocument t' rfl
    obtain ⟨houtcome, hcompiler⟩ := compileTokens_of_ok hjoins hall
    obtain ⟨out, hexpand, hout⟩ := Expansion.expandDocument_eq_ok hfinal.symm
    rw [hjoins.rootKind] at hexpand
    dsimp only at hout
    obtain ⟨-, hclosed⟩ := closed_tree hd'
    rw [hout] at hclosed
    rw [houtcome] at h
    rw [hcompiler]
    refine ⟨t, _, t', out, hjoins, hall, hexpand, ?_⟩
    rcases finish_eq_ok hd' h with ⟨hempty, hhtml, hsame⟩ | ⟨-, hcount, hpage, hcommit⟩
    · rw [hout] at hempty
      exact Or.inl ⟨hempty, hhtml, hsame⟩
    · exact Or.inr ⟨hcount, hpage, by rw [hclosed, row_node]; rfl, hcommit⟩

/-- Compiling counts what the recursion over the joined tree counts, and fails where it fails. -/
theorem compileTokens_counts (c : Compiler) (path : String) (h : Joins tokens t) :
    let spec := Expansion.expandDocument .standard path c.tally (t.tree 0)
    let after := (c.compileTokens path tokens).compiler
    after.nextInline = spec.1.nextInline ∧ after.sectionCount = spec.1.count ∧
      after.fileSections = spec.1.declared ∧
      ∀ e, spec.2 = .error e → (c.compileTokens path tokens).outcome = .error e := by
  obtain ⟨kids, hd⟩ := h.document
  obtain ⟨final, hruns, hfinal, -⟩ := Expansion.document_runs path c.tally hd
  have hall : Expansion.all path c.tally t 0 = _ := Expansion.walk_of_runs hruns
  dsimp only
  rw [← hfinal]
  cases final with
  | error e =>
    obtain ⟨houtcome, hcompiler⟩ := compileTokens_of_error h hall
    rw [hcompiler, houtcome]
    refine ⟨rfl, rfl, rfl, fun e' he => ?_⟩
    cases he
    rfl
  | ok t' =>
    obtain ⟨-, hcompiler⟩ := compileTokens_of_ok h hall
    rw [hcompiler]
    obtain ⟨hnext, hcount, hsections⟩ := finish_counts
      (c.startFile.withTally (Expansion.expandDocument .standard path c.tally (t.tree 0)).1) path t'
    refine ⟨hnext, hcount, hsections, fun e he => ?_⟩
    cases he

theorem compileTokens_nextInline (c : Compiler) (path : String) (h : Joins tokens t) :
    (c.compileTokens path tokens).compiler.nextInline =
      (Expansion.expandAll .standard path { parentKind := "document" } c.tally
        (t.tree 0).row).1.nextInline := by
  obtain ⟨hnext, -⟩ := c.compileTokens_counts path h
  rwa [Expansion.expandDocument_fst, h.rootKind] at hnext

end Compiler

namespace Expansion

/-- The loop over the tree of a token stream, joined or not, ends, and what it leaves is what the
recursion over the tree gives: the tally, and the tree or the first failure. Compiling the stream
counts what the recursion counts and fails where it fails. -/
theorem loop_refines_recursion {tokens : List Token} {raw t : Forest}
    (hraw : Forest.ofTokens tokens = .ok raw) (ht : t = raw ∨ raw.mergeText 0 = (t, none))
    (path : String) (tally : Tally) :
    ∃ turns final,
      Runs path tally t (.start 0) turns
        ((expandDocument .standard path tally (t.tree 0)).1, final) ∧
      final.map (fun t' => t'.tree 0) = (expandDocument .standard path tally (t.tree 0)).2 ∧
      all path tally t 0 = ((expandDocument .standard path tally (t.tree 0)).1, final) ∧
      ∀ c : Compiler, c.tally = tally → raw.mergeText 0 = (t, none) →
        let spec := expandDocument .standard path tally (t.tree 0)
        let after := (c.compileTokens path tokens).compiler
        after.nextInline = spec.1.nextInline ∧ after.sectionCount = spec.1.count ∧
          after.fileSections = spec.1.declared ∧
          ∀ e, spec.2 = .error e → (c.compileTokens path tokens).outcome = .error e := by
  obtain ⟨kids₀, hd₀⟩ := (Forest.ofTokens_grown (Q := fun _ _ => True) hraw
    fun _ _ _ => trivial).document
  obtain ⟨kids, hd⟩ : ∃ kids, t.Document kids := by
    rcases ht with rfl | hmerge
    · exact ⟨kids₀, hd₀⟩
    · obtain ⟨kids, hd, -⟩ := Forest.mergeText_document hd₀ hmerge
      exact ⟨kids, hd⟩
  obtain ⟨final, hruns, hfinal, -⟩ := document_runs path tally hd
  have hall : all path tally t 0 = _ := walk_of_runs hruns
  refine ⟨walkBound t, final, hruns, hfinal, hall, fun c hc hmerge => ?_⟩
  subst hc
  exact c.compileTokens_counts path ⟨raw, hraw, hmerge⟩

/-- A file with one section, in which a numbered link stands. -/
def linkedStory : List Token :=
  paragraphTokens (textTokens "\x7b\x7bA\x7d\x7d") ++ paragraphTokens (linkTokens (textTokens "go"))

theorem loop_refines_recursion_linkedStory :
    ∃ raw t, Forest.ofTokens linkedStory = .ok raw ∧ raw.mergeText 0 = (t, none) ∧
      ∃ turns final,
        Runs "s.md" { nextInline := 4, taken := ["Z"] } t (.start 0) turns
          ((expandDocument .standard "s.md" { nextInline := 4, taken := ["Z"] } (t.tree 0)).1,
            final) ∧
        final.map (fun t' => t'.tree 0) =
          (expandDocument .standard "s.md" { nextInline := 4, taken := ["Z"] } (t.tree 0)).2 := by
  have heval : (Compiler.joined? linkedStory).isSome = true := by decide +kernel
  obtain ⟨t, hjoined⟩ := Option.isSome_iff_exists.mp heval
  obtain ⟨raw, hraw, hmerge⟩ := Compiler.joins_iff.mpr hjoined
  obtain ⟨turns, final, hruns, hfinal, -⟩ := loop_refines_recursion hraw (Or.inr hmerge) "s.md"
    { nextInline := 4, taken := ["Z"] }
  exact ⟨raw, t, hraw, hmerge, turns, final, hruns, hfinal⟩

end Expansion

end Hyperstory
