import Hyperstory.Proofs.InlineIds
import Hyperstory.Proofs.PageDrafts
import Hyperstory.Proofs.StoryFiles

/-!
Files that fail. All that a compiler keeps of such a file is how many links it has numbered, so the
other files are compiled as if it were not there, but for the numbers of their links.
-/
namespace Hyperstory

open Hyperstory.Tree Expansion Sketch

/-- The tally when `k` more links were numbered before. -/
def Tally.ahead (k : Nat) (tally : Tally) : Tally :=
  { tally with nextInline := tally.nextInline + k }

/-- The words for links whose numbers are `k` higher. -/
def Wording.ahead (k : Nat) (w : Wording) : Wording := ⟨fun n => w.inlineId (n + k), w.sectionBegin⟩

namespace Expansion

variable {w : Wording} {path : String} {k : Nat}

/-- What a step gives when `k` more links were numbered before. -/
def ahead {α : Type} (k : Nat) (r : Tally × Except Failure α) : Tally × Except Failure α :=
  (r.1.ahead k, r.2)

theorem andThen_ahead {α β : Type} {x : Tally × Except Failure α}
    {f g : Tally → α → Tally × Except Failure β}
    (h : ∀ tally a, f (tally.ahead k) a = ahead k (g tally a)) :
    andThen (ahead k x) f = ahead k (andThen x g) := by
  obtain ⟨tally, result⟩ := x
  cases result with
  | error e => rfl
  | ok a => exact h tally a

theorem link_ahead (tally : Tally) (a : Anchor) :
    (tally.ahead k).link a = (tally.link a).ahead k := by
  unfold Tally.link
  split_ifs
  · simp only [Tally.ahead]
    congr 1
    omega
  · rfl

theorem expandOver_ahead (tally : Tally) (n : Node) (row : List (Tree Node)) :
    expandOver w path (tally.ahead k) n row =
      ahead k (expandOver (w.ahead k) path tally n row) := by
  unfold expandOver
  split_ifs
  · unfold expandLink
    cases anchorOf? path n with
    | error e => rfl
    | ok a? =>
      cases a? with
      | none => rfl
      | some a =>
        dsimp only
        rw [link_ahead]
        rfl
  · rfl

private theorem expand_ahead_of_row {row : List (Tree Node)}
    (ih : ∀ place tally, expandAll w path place (tally.ahead k) row =
      ahead k (expandAll (w.ahead k) path place tally row))
    (place : Place) (tally : Tally) (n : Node) :
    expand w path place (tally.ahead k) (.node n row) =
      ahead k (expand (w.ahead k) path place tally (.node n row)) := by
  cases shape place.parentKind n row with
  | image hkind =>
    rw [expand_image hkind, expand_image hkind]
    rfl
  | scanned hc hs =>
    rw [expand_scanned hc hs, expand_scanned hc hs]
    rfl
  | plain hkind hc hs =>
    rw [expand_plain hkind hc hs, expand_plain hkind hc hs]
    rfl
  | opening text d hdecl =>
    have hproblem : declarationProblem? place (tally.ahead k) d =
        declarationProblem? place tally d := rfl
    rw [expand_section hdecl, expand_section hdecl, expandSection, expandSection, hproblem]
    cases declarationProblem? place tally d <;> rfl
  | container hkind hc hdecl =>
    rw [expand_container hkind hc hdecl, expand_container hkind hc hdecl, ih]
    exact andThen_ahead fun tally row => expandOver_ahead tally n row

/-- Links that were numbered before change nothing but the numbers. -/
theorem expandAll_ahead (w : Wording) (path : String) (k : Nat) (place : Place) (tally : Tally)
    (row : List (Tree Node)) :
    expandAll w path place (tally.ahead k) row =
      ahead k (expandAll (w.ahead k) path place tally row) := by
  induction row using row_induction generalizing place tally with
  | nil => rw [expandAll, expandAll]; rfl
  | cons n cs rest ihcs ihrest =>
    rw [expandAll_cons, expandAll_cons, expand_ahead_of_row ihcs]
    refine andThen_ahead fun tally out => ?_
    rw [ihrest]
    exact andThen_ahead fun tally others => rfl

end Expansion

theorem nested_of_follows {t : Forest} {kids : NodeId → List NodeId} {row : List (Tree NodeId)}
    (h : Follows kids row)
    (hstep : ∀ p, ∀ c ∈ kids p, (t.label p).inline = true → (t.label c).inline = true) :
    Nested (mapAll t.label row) := by
  induction h with
  | nil => rw [mapAll_nil]; exact .nil
  | @cons i cs rest top hbelow _ ihbelow ihafter =>
    rw [mapAll_cons, map_node]
    refine .cons (fun hinline m hm => ?_) ihbelow ihafter
    rw [valuesAll_mapAll] at hm
    obtain ⟨j, hj, rfl⟩ := List.mem_map.mp hm
    refine hbelow.forall_mem hstep (fun x hx => ?_) j hj
    exact hstep i x.value (by rw [top]; exact List.mem_map_of_mem hx) hinline

namespace Compiler

/-- Inline content is nested in the tree of a file. -/
theorem Joins.nested {tokens : List Token} {t : Forest} (h : Joins tokens t) :
    Nested (t.tree 0).row := by
  obtain ⟨raw, hraw, hmerge⟩ := h
  obtain ⟨kids₀, hd₀, hinline⟩ := (Forest.ofTokens_grown (Q := fun _ _ => True) hraw
    fun _ _ _ => trivial).exists_kids
  obtain ⟨kids, hd, hthinned⟩ := Forest.mergeText_document hd₀ hmerge
  have hsame (i : NodeId) : (t.label i).inline = (raw.label i).inline := by
    rw [← hthinned.label i]
  obtain ⟨cs, hvalues, hcs⟩ := hd.linked.exists_row (kids 0)
  rw [hd.linked.tree_eq (.cons hvalues.symm hcs .nil), row_node]
  refine nested_of_follows hcs fun p c hc hp => ?_
  rw [hsame] at hp ⊢
  exact hinline p c ((hthinned.kids p).subset hc) hp

/-- Two outcomes for one file: the same failure, or pages that differ in the numbers of their links
only. The second page has the given numbers, and those of the first are `k` higher. -/
inductive Lowered (k : Nat) (numbers : List Nat) :
    Except Failure String → Except Failure String → Prop
  | failed (e : Failure) : Lowered k numbers (.error e) (.error e)
  | page (d : Draft) (h : (d.anchors.map Prod.snd).Perm numbers) :
      Lowered k numbers (.ok (d.write fun n => Markup.inlineId (n + k)))
        (.ok (d.write Markup.inlineId))

/-- The first compiler has numbered `k` more links, and knows the same names of sections. -/
structure Ahead (k : Nat) (c c' : Compiler) : Prop where
  nextInline : c.nextInline = c'.nextInline + k
  sections : c.sections = c'.sections

/-- What is known of the last file is the same, too. -/
structure InStep (k : Nat) (c c' : Compiler) : Prop extends Ahead k c c' where
  sectionCount : c.sectionCount = c'.sectionCount
  fileSections : c.fileSections = c'.fileSections

theorem Ahead.tally {k : Nat} {c c' : Compiler} (h : Ahead k c c') :
    c.tally = c'.tally.ahead k := by
  simp [Compiler.tally, Tally.ahead, h.nextInline, h.sections]

/-- The sketch of a page, for that of a file in which everything is replaced. -/
def pageSketch (sketch : List (Tree Sketch)) : List (Tree Sketch) :=
  mapAll Sketch.unescaped sketch ++ [.node (.fixed closingNode) []]

theorem anchorsOf_pageSketch (sketch : List (Tree Sketch)) :
    anchorsOf (pageSketch sketch) = anchorsOf sketch := by
  rw [pageSketch, anchorsOf_append, anchorsOf_unescaped]
  simp [Sketch.anchors]

theorem laid_pageSketch {sketch : List (Tree Sketch)} (h : Laid sketch) :
    Laid (pageSketch sketch) :=
  h.unescaped.append (.leaf (by decide) rfl anchorsOf_nil .nil)

theorem finish_of_sketch {c : Compiler} {t : Forest} {kids : NodeId → List NodeId}
    {ids : Nat → String} {sketch : List (Tree Sketch)} (path : String) (hd : t.Document kids)
    (hrow : (t.tree 0).row = mapAll (label ids) sketch) (hne : sketch ≠ [])
    (hcount : c.sectionCount ≠ 0) :
    (c.finish path t).outcome = (streamsOf (mapAll (label ids) (pageSketch sketch)) >>= fun parts =>
        Slot.render (Forest.groupRuns [] parts)).mapError Failure.fault ∧
      (c.finish path t).compiler = { c with sections := c.fileSections ++ c.sections } := by
  have hrow' : (t.tree 0).row ≠ [] := by
    rw [hrow]
    exact fun hnil => hne (mapAll_eq_nil.mp hnil)
  obtain ⟨houtcome, hcompiler⟩ :
      (c.finish path t).outcome = _ ∧ (c.finish path t).compiler = _ :=
    finish_of_ne_nil hd hrow' hcount
  obtain ⟨⟨kids', hlinked⟩, hclosed⟩ := closed_tree hd
  have hfinal : ((closed t).tree 0).row = mapAll (label ids) (pageSketch sketch) := by
    rw [hclosed, row_node, hrow, pageSketch, mapAll_append, mapAll_label_unescaped]
    simp [label]
  rw [houtcome, page_eq hlinked, hfinal]
  exact ⟨rfl, hcompiler⟩

/-- The end of a file, for all names: a failure, or a page that shows the links of its sketch. -/
theorem finish_writes {sketch : List (Tree Sketch)} (hlaid : Laid sketch) (path : String)
    (count : Nat) :
    ∃ result : Except Failure Draft, (∀ d, result = .ok d → d.anchors = anchorsOf sketch) ∧
      ∀ (ids : Nat → String) (c : Compiler) (t : Forest) (kids : NodeId → List NodeId),
        t.Document kids → (t.tree 0).row = mapAll (label ids) sketch → c.sectionCount = count →
        (c.finish path t).outcome = result.map (Draft.write ids) ∧
        (c.finish path t).compiler = { c with
          sections :=
            (if sketch.isEmpty || count = 0 then [] else c.fileSections) ++ c.sections } := by
  cases sketch with
  | nil =>
    refine ⟨.ok [], fun d hd => by cases hd; rfl, fun ids c t kids hd hrow _ => ?_⟩
    rw [mapAll_nil] at hrow
    rw [finish_of_nil hd hrow]
    exact ⟨rfl, rfl⟩
  | cons x rest =>
    obtain ⟨s, cs⟩ := x
    by_cases hzero : count = 0
    · have hposition (ids : Nat → String) :
          (s.label ids).position = (s.label Markup.inlineId).position := by cases s <;> rfl
      refine ⟨.error (.problem (Located.locate ⟨Cause.noSection, none, none, none⟩ (some path)
        (s.label Markup.inlineId).position)), fun d hd => (by cases hd),
        fun ids c t kids hd hrow hcount => ?_⟩
      rw [mapAll_cons, map_node] at hrow
      rw [finish_of_no_section hd hrow (hcount.trans hzero), value_node, hposition]
      exact ⟨rfl, by simp [hzero]⟩
    · rcases (laid_pageSketch hlaid).render_writes with ⟨e, he⟩ | ⟨d, hd, hwrite⟩
      · refine ⟨.error (.fault e), fun d hd => (by cases hd), fun ids c t kids hd hrow hcount => ?_⟩
        obtain ⟨houtcome, hcompiler⟩ := finish_of_sketch path hd hrow
          (List.cons_ne_nil _ _) (by rwa [hcount])
        dsimp only at he
        rw [houtcome, he]
        exact ⟨rfl, by simpa [hzero] using hcompiler⟩
      · refine ⟨.ok d, fun d' hd' => ?_, fun ids c t kids hd hrow hcount => ?_⟩
        · obtain rfl := Except.ok.inj hd'
          exact hd.trans (anchorsOf_pageSketch _)
        · obtain ⟨houtcome, hcompiler⟩ := finish_of_sketch path hd hrow
            (List.cons_ne_nil _ _) (by rwa [hcount])
          dsimp only at hwrite
          rw [houtcome, hwrite]
          exact ⟨rfl, by simpa [hzero] using hcompiler⟩

section Tokens

variable {c c' : Compiler} {path : String} {tokens : List Token} {t : Forest} {tally : Tally}

theorem compileTokens_of_row_error {e : Failure} (hjoins : Joins tokens t)
    (hrow : expandAll .standard path { parentKind := "document" } c.tally (t.tree 0).row =
      (tally, .error e)) :
    (c.compileTokens path tokens).outcome = .error e ∧
      (c.compileTokens path tokens).compiler = c.startFile.withTally tally := by
  obtain ⟨final, hall, herror, -⟩ := hjoins.all_eq path c.tally
  rw [hrow] at hall herror
  obtain rfl := herror e rfl
  exact compileTokens_of_error hjoins hall

/-- A file whose recursion gives a sketch, for all names. -/
theorem compileTokens_writes {sketch : List (Tree Sketch)} (hjoins : Joins tokens t)
    (hlaid : Laid sketch) (path : String) (count : Nat) :
    ∃ result : Except Failure Draft, (∀ d, result = .ok d → d.anchors = anchorsOf sketch) ∧
      ∀ (ids : Nat → String) (c : Compiler) (tally : Tally),
        expandAll .standard path { parentKind := "document" } c.tally (t.tree 0).row =
          (tally, .ok (mapAll (label ids) sketch)) → tally.count = count →
        (c.compileTokens path tokens).outcome = result.map (Draft.write ids) ∧
        (c.compileTokens path tokens).compiler = { c.startFile.withTally tally with
          sections :=
            (if sketch.isEmpty || count = 0 then [] else tally.declared) ++ c.sections } := by
  obtain ⟨result, hanchors, hfinish⟩ := finish_writes hlaid path count
  refine ⟨result, hanchors, fun ids c tally hrow hcount => ?_⟩
  obtain ⟨final, hall, -, hok⟩ := hjoins.all_eq path c.tally
  rw [hrow] at hall hok
  obtain ⟨t', kids', rfl, hd', htree⟩ := hok _ rfl
  obtain ⟨houtcome, hcompiler⟩ := compileTokens_of_ok hjoins hall
  obtain ⟨hresult, hafter⟩ := hfinish ids (c.startFile.withTally tally) t' kids' hd'
    (by rw [htree, row_node]) hcount
  exact ⟨houtcome.trans hresult, hcompiler.trans hafter⟩

/-- A file that is compiled after `k` more numbered links: it fails as it does without them, or its
page differs in the numbers only. -/
theorem compileTokens_ahead {k : Nat} (h : Ahead k c c') (path : String)
    (hlinks : LinksInline tokens) :
    Lowered k (List.range' c'.nextInline
        ((c'.compileTokens path tokens).compiler.nextInline - c'.nextInline))
      (c.compileTokens path tokens).outcome (c'.compileTokens path tokens).outcome ∧
    InStep k (c.compileTokens path tokens).compiler (c'.compileTokens path tokens).compiler := by
  rcases joins_or_faulty tokens with ⟨t, hjoins⟩ | ⟨f, hfault⟩
  · -- the first run is the second one with higher names, so one sketch serves both
    have hshift := expandAll_ahead .standard path k
      { parentKind := "document" } c'.tally (t.tree 0).row
    rw [← h.tally] at hshift
    obtain ⟨tally, ⟨e, hfails⟩ | ⟨sketch, hsketch⟩⟩ :=
      expandAll_uniform Markup.sectionBegin path (hlinks.flows hjoins)
        { parentKind := "document" } c'.tally
    · rw [show expandAll (Wording.standard.ahead k) path _ _ _ = _ from hfails _] at hshift
      obtain ⟨houtcome, hcompiler⟩ := compileTokens_of_row_error hjoins hshift
      obtain ⟨houtcome', hcompiler'⟩ := compileTokens_of_row_error hjoins (hfails Markup.inlineId)
      rw [houtcome, hcompiler, houtcome', hcompiler']
      exact ⟨.failed e, ⟨rfl, h.sections⟩, rfl, rfl⟩
    · rw [show expandAll (Wording.standard.ahead k) path _ _ _ = _ from hsketch.gives _] at hshift
      obtain ⟨result, hanchors, hwrites⟩ :=
        compileTokens_writes hjoins (hsketch.laid hjoins.nested) path tally.count
      obtain ⟨houtcome, hcompiler⟩ := hwrites _ c _ hshift rfl
      obtain ⟨houtcome', hcompiler'⟩ := hwrites _ c' _ (hsketch.gives Markup.inlineId) rfl
      have hnext := (expandAll_counts .standard path { parentKind := "document" } c'.tally
        (t.tree 0).row).nextInline_eq (hsketch.gives Markup.inlineId)
      rw [houtcome, hcompiler, houtcome', hcompiler']
      refine ⟨?_, ⟨rfl, by rw [h.sections]; rfl⟩, rfl, rfl⟩
      cases result with
      | error e => exact .failed e
      | ok d =>
        have hperm := hsketch.numbers.map Prod.snd
        rw [List.zipIdx_map_snd, ← hanchors d rfl] at hperm
        refine .page d ?_
        have hlength : tally.nextInline - c'.nextInline =
            (linksAll path "document" (t.tree 0).row).length := by
          rw [hnext]
          exact Nat.add_sub_cancel_left ..
        show (d.anchors.map Prod.snd).Perm
          (List.range' c'.nextInline (tally.nextInline - c'.nextInline))
        rw [hlength]
        exact hperm
  · obtain ⟨houtcome, hcompiler⟩ := hfault c path
    obtain ⟨houtcome', hcompiler'⟩ := hfault c' path
    rw [houtcome, hcompiler, houtcome', hcompiler']
    exact ⟨.failed _, ⟨h.nextInline, h.sections⟩, rfl, rfl⟩

end Tokens

end Compiler

namespace Call

/-- What a call comes to, with what is wrong with the file. -/
def outcome (c : Compiler) : Call → Except Failure String
  | compile path source | render path source => (c.compile path source).outcome
  | compileTokens path tokens => (c.compileTokens path tokens).outcome

theorem outcome_eq (c : Compiler) (call : Call) :
    call.outcome c =
      match call.tokens with
      | .error f => .error (.fault f)
      | .ok tokens => (c.compileTokens call.path tokens).outcome := by
  have hcompile (path source : String) : (c.compile path source).outcome =
      match Markdown.parse source with
      | .error f => .error (.fault f)
      | .ok tokens => (c.compileTokens path tokens).outcome := by
    unfold Compiler.compile
    cases Markdown.parse source <;> rfl
  cases call with
  | compile path source => exact hcompile path source
  | render path source => exact hcompile path source
  | compileTokens path tokens => rfl

theorem run_ending (c : Compiler) (call : Call) : (call.run c).1 = .ofOutcome (call.outcome c) := by
  rw [run_eq, outcome_eq]
  cases call.tokens <;> rfl

/-- A call after `k` more numbered links. -/
theorem run_ahead {k : Nat} {c c' : Compiler} (h : Compiler.Ahead k c c') {call : Call}
    (hlinks : ∀ tokens, call.tokens = .ok tokens → LinksInline tokens) :
    Compiler.Lowered k (List.range' c'.nextInline ((call.run c').2.nextInline - c'.nextInline))
      (call.outcome c) (call.outcome c') ∧
    Compiler.InStep k (call.run c).2 (call.run c').2 := by
  rw [outcome_eq, outcome_eq, run_eq, run_eq]
  cases htokens : call.tokens with
  | error f => exact ⟨.failed _, ⟨h.nextInline, h.sections⟩, rfl, rfl⟩
  | ok tokens => exact Compiler.compileTokens_ahead h call.path (hlinks tokens htokens)

end Call

/-- The same call in two sessions. It comes to the same, but for the numbers of links, which are `k`
higher in the first session. -/
structure Turn.Undisturbed (k : Nat) (turn turn' : Turn) : Prop where
  call : turn.call = turn'.call
  outcome : Compiler.Lowered k turn'.numbers (turn.call.outcome turn.before)
    (turn'.call.outcome turn'.before)
  ending : turn.ending = .ofOutcome (turn.call.outcome turn.before)
  ending' : turn'.ending = .ofOutcome (turn'.call.outcome turn'.before)
  after : Compiler.InStep k turn.after turn'.after

namespace Compiler

/-- A session after `k` more numbered links. -/
theorem session_ahead {k : Nat} {c c' : Compiler} (h : Ahead k c c') {calls : List Call}
    (hlinks : ∀ call ∈ calls, ∀ tokens, call.tokens = .ok tokens → LinksInline tokens) :
    List.Forall₂ (Turn.Undisturbed k) (c.session calls) (c'.session calls) := by
  induction calls generalizing c c' with
  | nil => exact .nil
  | cons call rest ih =>
    obtain ⟨hcall, hrest⟩ := List.forall_mem_cons.mp hlinks
    obtain ⟨houtcome, hafter⟩ := Call.run_ahead h hcall
    exact .cons ⟨rfl, houtcome, call.run_ending c, call.run_ending c', hafter⟩
      (ih hafter.toAhead hrest)

/-- A call that ends in a problem leaves nothing but the numbers that it has taken. -/
theorem ahead_of_problem {c : Compiler} {call : Call} (h : (call.run c).1 = .problem) :
    Ahead ((call.run c).2.nextInline - c.nextInline) (call.run c).2 c := by
  obtain ⟨hle, -⟩ := call.run_nextInline c
  exact ⟨(Nat.add_sub_cancel' hle).symm, (call.run_sections c).2 h⟩

theorem session_eraseIdx {c : Compiler} {calls : List Call}
    (hlinks : ∀ call ∈ calls, ∀ tokens, call.tokens = .ok tokens → LinksInline tokens)
    {i : Nat} {turn : Turn} (hturn : (c.session calls)[i]? = some turn)
    (hproblem : turn.ending = .problem) :
    (c.session (calls.eraseIdx i)).take i = (c.session calls).take i ∧
    List.Forall₂ (Turn.Undisturbed turn.numbers.length) ((c.session calls).drop (i + 1))
      ((c.session (calls.eraseIdx i)).drop i) := by
  induction calls generalizing c i with
  | nil => cases hturn
  | cons call rest ih =>
    have hrest := (List.forall_mem_cons.mp hlinks).2
    cases i with
    | zero =>
      obtain rfl := Option.some.inj hturn
      refine ⟨rfl, ?_⟩
      rw [Turn.numbers, List.length_range']
      exact session_ahead (ahead_of_problem hproblem) hrest
    | succ i =>
      obtain ⟨hbefore, hafter⟩ := ih hrest hturn
      exact ⟨congrArg (List.cons _) hbefore, hafter⟩

/-- A file that fails does not disturb the others. In every session on one compiler, leaving out a
call that ends in a problem leaves what the other calls come to, but for the numbers of the links
after it, which are lower by as many as that call has taken. So compiling the files of a story,
unless one of them cannot be read or is faulty, counts those that have problems and puts the pages
of the others behind each other. -/
theorem failed_file_disturbs_no_other :
    (∀ (c : Compiler) (calls : List Call),
      (∀ path tokens, .compileTokens path tokens ∈ calls → LinksInline tokens) →
      ∀ i turn, (c.session calls)[i]? = some turn → turn.ending = .problem →
        (c.session (calls.eraseIdx i)).take i = (c.session calls).take i ∧
        List.Forall₂ (Turn.Undisturbed turn.numbers.length) ((c.session calls).drop (i + 1))
          ((c.session (calls.eraseIdx i)).drop i)) ∧
    ∀ (p : Project) (o : BuildOptions) (files : List String) (w : Workspace)
      (found : String × Nat),
      let turns := ({ debug := o.debug } : Compiler).session (files.map (Build.story p w))
      ((Build.render p o files).run.run w).1 = .ok found ↔
        (∀ file ∈ files, ∃ source, Run.text w (p.path file) = .ok source) ∧
        (∀ turn ∈ turns, ∀ f, turn.ending ≠ .fault f) ∧
        found.1 = String.join (turns.filterMap Turn.block?) ∧
        found.2 = turns.countP (·.ending = .problem) := by
  refine ⟨fun c calls hlinks i turn hturn hproblem => ?_, fun p o files w found => ?_⟩
  · refine session_eraseIdx (fun call hcall tokens htokens => ?_) hturn hproblem
    exact Call.linksInline htokens fun path tokens' h => hlinks path tokens' (h ▸ hcall)
  · rw [Build.render, (Build.readsOnly_renderFrom p _ files).run_eq w]
    exact Build.value_renderFrom_eq_ok p _ files w found

theorem failed_file_disturbs_no_other_linkedCalls :
    let turns := ({} : Compiler).session linkedCalls
    turns.map (fun turn => (turn.ending.isPage, turn.numbers)) =
      [(true, [0]), (false, [1]), (true, [2, 3])] ∧
    ∃ turn, turns[1]? = some turn ∧ turn.ending = .problem ∧
      List.Forall₂ (Turn.Undisturbed turn.numbers.length) (turns.drop 2)
        ((({} : Compiler).session (linkedCalls.eraseIdx 1)).drop 1) := by
  have heval : (({} : Compiler).session linkedCalls).map
      (fun turn => (turn.ending.isPage, turn.numbers)) =
      [(true, [0]), (false, [1]), (true, [2, 3])] := by decide +kernel
  have hproblem : ((({} : Compiler).session linkedCalls)[1]?).map (·.ending) = some .problem := by
    decide +kernel
  obtain ⟨turn, hturn, hending⟩ := Option.map_eq_some_iff.mp hproblem
  refine ⟨heval, turn, hturn, hending,
    (failed_file_disturbs_no_other.1 {} linkedCalls ?_ 1 turn hturn hending).2⟩
  intro path tokens h
  simp only [linkedCalls, List.mem_cons, List.not_mem_nil, or_false,
    Call.compileTokens.injEq] at h
  rcases h with ⟨-, rfl⟩ | ⟨-, rfl⟩ | ⟨-, rfl⟩ <;> decide

end Compiler

end Hyperstory
