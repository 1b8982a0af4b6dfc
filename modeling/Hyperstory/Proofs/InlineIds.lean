import Hyperstory.Proofs.Emitted
import Hyperstory.Proofs.Numbering
import Hyperstory.Proofs.Session
import Mathlib.Data.List.Flatten
import Std.Data.String.ToNat

/-! One compiler over many calls: the numbers of the inline links that it writes. -/
namespace Hyperstory

open Hyperstory.Tree Expansion

/-- Links stand in inline content: no token outside of it opens one. -/
def LinksInline (tokens : List Token) : Prop :=
  ∀ tok ∈ tokens, tok.nesting = .opens → tok.nodeKind ≠ "link"

instance (tokens : List Token) : Decidable (LinksInline tokens) :=
  inferInstanceAs (Decidable (∀ tok ∈ tokens, tok.nesting = .opens → tok.nodeKind ≠ "link"))

/-- The links of a source stand in inline content. -/
theorem LinksInline.of_parse {source : String} {tokens : List Token}
    (h : Markdown.parse source = .ok tokens) : LinksInline tokens := by
  intro tok htok hopens
  have hkind := Markdown.parse_emitted h false tok (.here htok) hopens
  have hblock : ∀ kind ∈ Markdown.openings false,
      String.ofList (kind.toList.take (kind.length - 5)) ≠ "link" := by decide
  rw [Token.nodeKind, if_pos hopens]
  exact hblock tok.kind hkind

/-- What stands inside inline content is inline content. -/
theorem Stands.inline_of_inline {inline within : Bool} {tokens : List Token} {tok : Token}
    (h : Stands inline tokens within tok) (hinline : inline = true) : within = true := by
  induction h with
  | here _ => exact hinline
  | inside _ _ _ ih => exact ih rfl

theorem LinksInline.inline {tokens : List Token} (h : LinksInline tokens) {within : Bool}
    {tok : Token} (hstands : Stands false tokens within tok) (hopens : tok.nesting = .opens)
    (hlink : tok.nodeKind = "link") : within = true := by
  cases hstands with
  | here htok => exact absurd hlink (h tok htok hopens)
  | inside _ _ hkids => exact hkids.inline_of_inline rfl

private theorem flows_of_follows {t : Forest} {kids : NodeId → List NodeId}
    {row : List (Tree NodeId)} (h : Follows kids row)
    (hstep : ∀ p, ∀ c ∈ kids p, (t.label p).inline = true → (t.label c).inline = true)
    (hlink : ∀ i ∈ valuesAll row, (t.label i).kind = "link" → (t.label i).container = true →
      (t.label i).inline = true) : Flows (mapAll t.label row) := by
  induction h with
  | nil => rw [mapAll_nil]; exact .nil
  | @cons i cs rest top hbelow _ ihbelow ihafter =>
    simp only [valuesAll_cons, values_node, List.forall_mem_append, List.forall_mem_cons] at hlink
    obtain ⟨⟨hi, hcs⟩, hrest⟩ := hlink
    rw [mapAll_cons, map_node]
    refine .cons (fun hkind hc m hm => ?_) (ihbelow hcs) (ihafter hrest)
    rw [valuesAll_mapAll] at hm
    obtain ⟨j, hj, rfl⟩ := List.mem_map.mp hm
    refine hbelow.forall_mem hstep (fun x hx => ?_) j hj
    exact hstep i x.value (by rw [top]; exact List.mem_map_of_mem hx) (hi hkind hc)

/-- Only inline content stands below the links of a file. -/
theorem LinksInline.flows {tokens : List Token} {t : Forest} (h : LinksInline tokens)
    (hjoins : Compiler.Joins tokens t) : Flows (t.tree 0).row := by
  obtain ⟨raw, hraw, hmerge⟩ := hjoins
  have hgrown := Forest.ofTokens_grown hraw fun within tok hstands => h.inline hstands
  obtain ⟨kids₀, hd₀, hinline⟩ := hgrown.exists_kids
  obtain ⟨kids, hd, hthinned⟩ := Forest.mergeText_document hd₀ hmerge
  obtain ⟨cs, hvalues, hcs⟩ := hd.linked.exists_row (kids 0)
  rw [hd.linked.tree_eq (.cons hvalues.symm hcs .nil), row_node]
  have hsame (i : NodeId) : (t.label i).inline = (raw.label i).inline ∧
      (t.label i).kind = (raw.label i).kind ∧
      (t.label i).container = (raw.label i).container := by
    rw [← hthinned.label i]
    exact ⟨rfl, rfl, rfl⟩
  refine flows_of_follows hcs (fun p c hc hp => ?_) fun i hi hkind hc => ?_
  · rw [(hsame p).1] at hp
    rw [(hsame c).1]
    exact hinline p c ((hthinned.kids p).subset hc) hp
  · have hpos : 0 < i := hd.linked.lt_of_mem_valuesAll hcs
      (fun c hc => (hd.linked.later 0 c (hvalues ▸ hc)).1) hi
    obtain ⟨hi', hk, hc'⟩ := hsame i
    rw [hi']
    rcases hgrown.exists_token hpos (hc' ▸ hc) with ⟨tok, hq, hopens, htok⟩ | himage
    · exact hq hopens (by rw [← htok, ← hk, hkind])
    · rw [← hk, hkind] at himage
      exact absurd himage (by decide)

/-- Different numbers make different names. -/
theorem Markup.inlineId_injective : Function.Injective Markup.inlineId := by
  intro m n h
  exact Nat.repr_inj.mp ((String.append_right_inj "_inline-").mp h)

namespace Call

/-- The numbered links of the file, each after those in its text. -/
def links (call : Call) : List Anchor :=
  match call.tokens with
  | .error _ => []
  | .ok tokens =>
    match Compiler.joined? tokens with
    | none => []
    | some t => linksAll call.path "document" (t.tree 0).row

theorem links_eq {call : Call} {tokens : List Token} {t : Forest} (h : call.tokens = .ok tokens)
    (hjoins : Compiler.Joins tokens t) :
    call.links = linksAll call.path "document" (t.tree 0).row := by
  rw [links, h]
  dsimp only
  rw [Compiler.joins_iff.mp hjoins]

/-- The links of a file stand in inline content if those of tokens in place of a source do. -/
theorem linksInline {call : Call} {tokens : List Token} (h : call.tokens = .ok tokens)
    (hgiven : ∀ path tokens, call = .compileTokens path tokens → LinksInline tokens) :
    LinksInline tokens := by
  cases call with
  | compile path source => exact .of_parse h
  | render path source => exact .of_parse h
  | compileTokens path given =>
    obtain rfl := Except.ok.inj h
    exact hgiven path given rfl

/-- However a call ends, it numbers some of the links of its file. -/
theorem run_nextInline (c : Compiler) (call : Call) :
    c.nextInline ≤ (call.run c).2.nextInline ∧
      (call.run c).2.nextInline ≤ c.nextInline + call.links.length := by
  rw [run_eq]
  cases htokens : call.tokens with
  | error f => exact ⟨le_rfl, Nat.le_add_right _ _⟩
  | ok tokens =>
    dsimp only
    rcases Compiler.joins_or_fault c call.path tokens with ⟨t, hjoins⟩ | ⟨f, -, hsame⟩
    · have hcounts := expandAll_counts .standard call.path { parentKind := "document" } c.tally
        (t.tree 0).row
      rw [c.compileTokens_nextInline call.path hjoins, links_eq htokens hjoins]
      exact ⟨hcounts.le, hcounts.bound⟩
    · rw [hsame]
      exact ⟨le_rfl, Nat.le_add_right _ _⟩

end Call

namespace Turn

def numbers (turn : Turn) : List Nat :=
  List.range' turn.before.nextInline (turn.after.nextInline - turn.before.nextInline)

/-- The page of a turn is written from a sketch. The sketch is the same for all names, and what the
page shows is the sketch with the names of the page. -/
def WrittenFrom (turn : Turn) (sketch : List (Tree Sketch)) : Prop :=
  ∃ tokens t tally t' html, turn.call.tokens = .ok tokens ∧ Compiler.Joins tokens t ∧
    Expansion.all turn.call.path turn.before.tally t 0 = (tally, .ok t') ∧
    turn.ending = .page html ∧
    (∀ ids, ∃ out, expandAll ⟨ids, Markup.sectionBegin⟩ turn.call.path { parentKind := "document" }
        turn.before.tally (t.tree 0).row = (tally, .ok out) ∧
      mapAll unescaped out = mapAll (Sketch.label ids) sketch) ∧
    ((sketch = [] ∧ html = "") ∨
      (Compiler.page (Compiler.closed t') = .ok html ∧
        ((Compiler.closed t').tree 0).row =
          mapAll (Sketch.label Markup.inlineId) sketch ++ [.node Compiler.closingNode []]))

/-- A turn that gives a page numbers all links of its file. -/
theorem numbers_of_isPage {turn : Turn}
    (hrun : turn.call.run turn.before = (turn.ending, turn.after))
    (hpage : turn.ending.isPage = true) :
    turn.numbers = List.range' turn.before.nextInline turn.call.links.length := by
  obtain ⟨tokens, html, htokens, -, hok, hafter⟩ := Call.run_eq_page hrun hpage
  obtain ⟨t, tally, t', out, hjoins, -, hexpand, -⟩ := Compiler.compileTokens_eq_ok hok
  have hnext : turn.after.nextInline = turn.before.nextInline + turn.call.links.length := by
    rw [hafter, turn.before.compileTokens_nextInline turn.call.path hjoins, hexpand,
      Call.links_eq htokens hjoins]
    exact (expandAll_counts .standard turn.call.path { parentKind := "document" }
      turn.before.tally (t.tree 0).row).nextInline_eq hexpand
  rw [numbers, hnext, Nat.add_sub_cancel_left]

/-- A page whose links stand in inline content is written from a sketch in which every link of the
file that has a number stands once. -/
theorem exists_sketch {turn : Turn}
    (hrun : turn.call.run turn.before = (turn.ending, turn.after))
    (hpage : turn.ending.isPage = true)
    (hlinks : ∀ tokens, turn.call.tokens = .ok tokens → LinksInline tokens) :
    ∃ sketch, turn.WrittenFrom sketch ∧
      (Sketch.anchorsOf sketch).Perm (turn.call.links.zipIdx turn.before.nextInline) := by
  obtain ⟨tokens, html, htokens, hending, hok, -⟩ := Call.run_eq_page hrun hpage
  obtain ⟨t, tally, t', out, hjoins, hall, hexpand, hend⟩ := Compiler.compileTokens_eq_ok hok
  have hflows := (hlinks tokens htokens).flows hjoins
  obtain ⟨sketch, hsketch⟩ := expandAll_sketches hflows hexpand
  have hout := hsketch.eq_label hexpand
  refine ⟨mapAll Sketch.unescaped sketch,
    ⟨tokens, t, tally, t', html, htokens, hjoins, hall, hending,
      fun ids => ⟨_, hsketch.gives ids, (Sketch.mapAll_label_unescaped ids sketch).symm⟩, ?_⟩, ?_⟩
  · rcases hend with ⟨hempty, hhtml, -⟩ | ⟨-, hpage, hfinal, -⟩
    · rw [hout] at hempty
      exact Or.inl ⟨mapAll_eq_nil.mpr (mapAll_eq_nil.mp hempty), hhtml⟩
    · rw [hfinal, hout, Sketch.mapAll_label_unescaped]
      exact Or.inr ⟨hpage, rfl⟩
  · rw [Sketch.anchorsOf_unescaped, Call.links_eq htokens hjoins]
    exact hsketch.numbers

/-- If no number is assigned twice, and each page shows the numbers of its turn, then no two names
on the pages are the same. -/
theorem names_nodup {turns : List Turn} (hnd : (turns.flatMap numbers).Nodup)
    {sketch : Turn → List (Tree Sketch)}
    (hshows : ∀ turn ∈ turns, turn.ending.isPage = true →
      ((Sketch.anchorsOf (sketch turn)).map Prod.snd).Perm turn.numbers) :
    ((turns.filter (·.ending.isPage)).flatMap fun turn =>
      (Sketch.anchorsOf (sketch turn)).map fun a => Markup.inlineId a.2).Nodup := by
  have hpages : ((turns.filter (·.ending.isPage)).flatMap numbers).Nodup :=
    hnd.sublist (List.filter_sublist.flatMap _)
  have hshown : ((turns.filter (·.ending.isPage)).flatMap fun turn =>
      (Sketch.anchorsOf (sketch turn)).map Prod.snd).Nodup := by
    refine (List.Perm.flatMap_left _ fun turn hturn => ?_).nodup_iff.mpr hpages
    obtain ⟨hturn, hpage⟩ := List.mem_filter.mp hturn
    exact hshows turn hturn hpage
  have hnames := hshown.map Markup.inlineId_injective
  rw [List.map_flatMap] at hnames
  simp only [List.map_map] at hnames
  exact hnames

end Turn

namespace Compiler

/-- The numbers of a sequence of calls follow one another. -/
theorem session_numbers (c : Compiler) (calls : List Call) :
    c.nextInline ≤ (c.afterAll calls).nextInline ∧
      (c.session calls).flatMap Turn.numbers =
        List.range' c.nextInline ((c.afterAll calls).nextInline - c.nextInline) := by
  induction calls generalizing c with
  | nil => simp [session, afterAll]
  | cons call rest ih =>
    obtain ⟨hle, hrest⟩ := ih (call.run c).2
    obtain ⟨hfirst, -⟩ := call.run_nextInline c
    rw [session, List.flatMap_cons, hrest]
    show c.nextInline ≤ ((call.run c).2.afterAll rest).nextInline ∧
      List.range' c.nextInline ((call.run c).2.nextInline - c.nextInline) ++
        List.range' (call.run c).2.nextInline
          (((call.run c).2.afterAll rest).nextInline - (call.run c).2.nextInline) =
      List.range' c.nextInline (((call.run c).2.afterAll rest).nextInline - c.nextInline)
    refine ⟨hfirst.trans hle, ?_⟩
    have happend := @List.range'_append_1 c.nextInline
      ((call.run c).2.nextInline - c.nextInline)
      (((call.run c).2.afterAll rest).nextInline - (call.run c).2.nextInline)
    rw [Nat.add_sub_cancel' hfirst] at happend
    rw [happend]
    congr 1
    omega

/-- Each page of a sequence of calls is written from a sketch with the links of its file. -/
theorem session_sketches (c : Compiler) {calls : List Call}
    (hlinks : ∀ path tokens, .compileTokens path tokens ∈ calls → LinksInline tokens) :
    ∃ sketch : Turn → List (Tree Sketch),
      ∀ turn ∈ c.session calls, turn.ending.isPage = true →
        turn.WrittenFrom (sketch turn) ∧
        (Sketch.anchorsOf (sketch turn)).Perm
          (turn.call.links.zipIdx turn.before.nextInline) := by
  have hexists (turn : Turn) : ∃ sketch, turn ∈ c.session calls → turn.ending.isPage = true →
      turn.WrittenFrom sketch ∧
        (Sketch.anchorsOf sketch).Perm (turn.call.links.zipIdx turn.before.nextInline) := by
    by_cases h : turn ∈ c.session calls ∧ turn.ending.isPage = true
    · obtain ⟨hturn, hpage⟩ := h
      obtain ⟨sketch, hsketch⟩ := Turn.exists_sketch (run_of_mem_session hturn) hpage
        fun tokens htokens => Call.linksInline htokens fun path given hcall =>
          hlinks path given (hcall ▸ call_mem_of_mem_session hturn)
      exact ⟨sketch, fun _ _ => hsketch⟩
    · exact ⟨[], fun hturn hpage => absurd ⟨hturn, hpage⟩ h⟩
  exact Classical.skolem.mp hexists

/-- The numbers of inline links are assigned one after another over all calls, whether they give
pages or not. A page shows each number that its call has assigned once, as the name of the link
that has got it, and no other number; so no two links of all pages have the same name. -/
theorem session_inline_ids (debug : Bool) (calls : List Call)
    (hlinks : ∀ path tokens, .compileTokens path tokens ∈ calls → LinksInline tokens) :
    let turns := ({ debug } : Compiler).session calls
    turns.flatMap Turn.numbers = List.range (({ debug } : Compiler).afterAll calls).nextInline ∧
    (∀ turn ∈ turns, turn.numbers.length ≤ turn.call.links.length) ∧
    ∃ sketch : Turn → List (Tree Sketch),
      (∀ turn ∈ turns, turn.ending.isPage = true →
        turn.WrittenFrom (sketch turn) ∧
        (Sketch.anchorsOf (sketch turn)).Perm (turn.call.links.zipIdx turn.before.nextInline) ∧
        ((Sketch.anchorsOf (sketch turn)).map Prod.snd).Perm turn.numbers) ∧
      ((turns.filter (·.ending.isPage)).flatMap fun turn =>
        (Sketch.anchorsOf (sketch turn)).map fun a => Markup.inlineId a.2).Nodup := by
  intro turns
  have hnumbers : turns.flatMap Turn.numbers =
      List.range (({ debug } : Compiler).afterAll calls).nextInline := by
    rw [List.range_eq_range']
    exact (session_numbers { debug } calls).2
  obtain ⟨sketch, hsketch⟩ := session_sketches { debug } hlinks
  have hshows (turn : Turn) (hturn : turn ∈ turns) (hpage : turn.ending.isPage = true) :
      ((Sketch.anchorsOf (sketch turn)).map Prod.snd).Perm turn.numbers := by
    rw [Turn.numbers_of_isPage (run_of_mem_session hturn) hpage, ← List.zipIdx_map_snd]
    exact (hsketch turn hturn hpage).2.map Prod.snd
  refine ⟨hnumbers, fun turn hturn => ?_, sketch, fun turn hturn hpage => ?_,
    Turn.names_nodup (hnumbers ▸ List.nodup_range) hshows⟩
  · have hbound := (turn.call.run_nextInline turn.before).2
    rw [run_of_mem_session hturn] at hbound
    rw [Turn.numbers, List.length_range']
    exact Nat.sub_le_iff_le_add'.mpr hbound
  · obtain ⟨hwritten, hperm⟩ := hsketch turn hturn hpage
    exact ⟨hwritten, hperm, hshows turn hturn hpage⟩

/-- A file with a link, a file that fails after a link, and a file with a link in a link. -/
def linkedCalls : List Call :=
  [.compileTokens "a.md" (paragraphTokens (textTokens "\x7b\x7bA\x7d\x7d") ++
      paragraphTokens (linkTokens (textTokens "go"))),
    .compileTokens "b.md" (paragraphTokens (textTokens "\x7b\x7bB\x7d\x7d") ++
      paragraphTokens (linkTokens (textTokens "go") ++ textTokens "\x7b\x7bC\x7d\x7d")),
    .compileTokens "c.md" (paragraphTokens (textTokens "\x7b\x7bC\x7d\x7d") ++
      paragraphTokens (linkTokens (textTokens "go" ++ linkTokens (textTokens "on"))))]

theorem session_inline_ids_linkedCalls :
    let turns := ({} : Compiler).session linkedCalls
    turns.map (fun turn => (turn.ending.isPage, turn.numbers)) =
      [(true, [0]), (false, [1]), (true, [2, 3])] ∧
    (∀ path tokens, .compileTokens path tokens ∈ linkedCalls → LinksInline tokens) ∧
    turns.flatMap Turn.numbers = List.range (({} : Compiler).afterAll linkedCalls).nextInline ∧
    ∃ sketch : Turn → List (Tree Sketch),
      ∀ turn ∈ turns, turn.ending.isPage = true → turn.WrittenFrom (sketch turn) ∧
        (Sketch.anchorsOf (sketch turn)).Perm (turn.call.links.zipIdx turn.before.nextInline) := by
  have heval : (({} : Compiler).session linkedCalls).map
      (fun turn => (turn.ending.isPage, turn.numbers)) =
      [(true, [0]), (false, [1]), (true, [2, 3])] := by decide +kernel
  have hlinks : ∀ path tokens, .compileTokens path tokens ∈ linkedCalls → LinksInline tokens := by
    intro path tokens h
    simp only [linkedCalls, List.mem_cons, List.not_mem_nil, or_false,
      Call.compileTokens.injEq] at h
    rcases h with ⟨-, rfl⟩ | ⟨-, rfl⟩ | ⟨-, rfl⟩ <;> decide
  obtain ⟨hnumbers, -, sketch, hsketch, -⟩ := session_inline_ids false linkedCalls hlinks
  refine ⟨heval, hlinks, hnumbers, sketch, fun turn hturn hpage => ?_⟩
  obtain ⟨hwritten, hperm, -⟩ := hsketch turn hturn hpage
  exact ⟨hwritten, hperm⟩

end Compiler

end Hyperstory
