import Hyperstory.Proofs.Compiling
import Hyperstory.Proofs.Declarations
import Hyperstory.Story.Source

/-! One compiler over many calls: the names of sections that it remembers. -/
namespace Hyperstory

open Hyperstory.Tree Expansion

namespace Compiler

/-- The names of the sections that the tokens of a file declare. -/
def declaredIn (tokens : List Token) : List String :=
  match joined? tokens with
  | none => []
  | some t => declarationsAll "document" (t.tree 0).row

theorem Joins.declaredIn {tokens : List Token} {t : Forest} (h : Joins tokens t) :
    declaredIn tokens = declarationsAll "document" (t.tree 0).row := by
  rw [Compiler.declaredIn, joins_iff.mp h]

variable {c : Compiler} {path : String} {tokens : List Token}

/-- A page brings in the names of its file, which are new. -/
theorem sections_of_page {html : String} (h : (c.compileTokens path tokens).outcome = .ok html)
    (hnd : c.sections.Nodup) :
    (c.compileTokens path tokens).compiler.sections = (declaredIn tokens).reverse ++ c.sections ∧
      (c.compileTokens path tokens).compiler.sections.Nodup := by
  obtain ⟨t, tally', t', out, hjoins, -, hexpand, hend⟩ := compileTokens_eq_ok h
  have hdeclares := expandAll_declares hexpand
  rw [hjoins.declaredIn]
  rcases hend with ⟨rfl, -, hcompiler⟩ | ⟨-, -, -, hcompiler⟩
  · have hrow : (t.tree 0).row = [] := by
      by_contra hne
      exact expandAll_ne_nil hne hexpand rfl
    rw [hcompiler, hrow, declarationsAll, gatherAll_nil]
    exact ⟨rfl, hnd⟩
  · have hnames : tally'.declared = (declarationsAll "document" (t.tree 0).row).reverse :=
      hdeclares.declared.trans (List.append_nil _)
    rw [hcompiler, ← hnames]
    refine ⟨rfl, List.Nodup.append (hdeclares.nodup List.nodup_nil) hnd ?_⟩
    exact hdeclares.fresh (by simp [Compiler.tally])

/-- A problem leaves the names as they are. -/
theorem sections_of_problem {d : Diagnostic}
    (h : (c.compileTokens path tokens).outcome = .error (.problem d)) :
    (c.compileTokens path tokens).compiler.sections = c.sections := by
  rcases joins_or_fault c path tokens with ⟨t, hjoins⟩ | ⟨f, hfault, -⟩
  · cases hall : Expansion.all path c.tally t 0 with
    | mk tally' result =>
      cases result with
      | error e => rw [(compileTokens_of_error hjoins hall).2]; rfl
      | ok t' =>
        obtain ⟨houtcome, hcompiler⟩ := compileTokens_of_ok hjoins hall
        rw [houtcome] at h
        rw [hcompiler, finish_sections_of_problem h]
        rfl
  · rw [hfault] at h
    cases h

end Compiler

/-- A call of a compiler, with the source of a file or with tokens in place of one. -/
inductive Call where
  | compile (path source : String)
  | render (path source : String)
  | compileTokens (path : String) (tokens : List Token)

/-- How a call ends: with a page, with a problem in the file, or with a fault. -/
inductive Ending where
  | page (html : String)
  | problem
  | fault (f : Fault)
  deriving DecidableEq

namespace Ending

/-- The ending of a compilation. -/
def ofOutcome : Except Failure String → Ending
  | .ok html => page html
  | .error (.problem _) => problem
  | .error (.fault f) => fault f

/-- The ending of a rendering, which has no page if there is a problem. -/
def ofRendering : Except Fault (Option String) → Ending
  | .ok (some html) => page html
  | .ok none => problem
  | .error f => fault f

/-- The call has given a page. -/
def isPage : Ending → Bool
  | page _ => true
  | _ => false

end Ending

namespace Call

/-- How a call ends, and the compiler after it. -/
def run (c : Compiler) : Call → Ending × Compiler
  | compile path source =>
    (.ofOutcome (c.compile path source).outcome, (c.compile path source).compiler)
  | render path source =>
    (.ofRendering (c.render path source).outcome, (c.render path source).compiler)
  | compileTokens path tokens =>
    (.ofOutcome (c.compileTokens path tokens).outcome, (c.compileTokens path tokens).compiler)

def path : Call → String
  | compile path _ | render path _ | compileTokens path _ => path

def tokens : Call → Except Fault (List Token)
  | compile _ source | render _ source => Markdown.parse source
  | compileTokens _ tokens => .ok tokens

/-- The names of the sections that the file declares. -/
def declared (call : Call) : List String :=
  match call.tokens with
  | .error _ => []
  | .ok tokens => Compiler.declaredIn tokens

theorem run_render (c : Compiler) (path source : String) :
    (render path source).run c = (compile path source).run c := by
  unfold run Compiler.render
  dsimp only
  cases (c.compile path source).outcome with
  | ok html => rfl
  | error e => cases e <;> rfl

/-- Every call compiles the tokens of its file, if there are any. -/
theorem run_eq (c : Compiler) (call : Call) :
    call.run c =
      match call.tokens with
      | .error f => (.fault f, c.startFile)
      | .ok tokens =>
        (.ofOutcome (c.compileTokens call.path tokens).outcome,
          (c.compileTokens call.path tokens).compiler) := by
  have hcompile (path source : String) : (compile path source).run c =
      match Markdown.parse source with
      | .error f => (.fault f, c.startFile)
      | .ok tokens =>
        (.ofOutcome (c.compileTokens path tokens).outcome,
          (c.compileTokens path tokens).compiler) := by
    unfold run Compiler.compile
    dsimp only
    cases Markdown.parse source <;> rfl
  cases call with
  | compile path source => exact hcompile path source
  | render path source => exact (run_render c path source).trans (hcompile path source)
  | compileTokens path tokens => rfl

/-- A call that gives a page has compiled the tokens of its file to it. -/
theorem run_eq_page {c after : Compiler} {call : Call} {ending : Ending}
    (h : call.run c = (ending, after)) (hpage : ending.isPage = true) :
    ∃ tokens html, call.tokens = .ok tokens ∧ ending = .page html ∧
      (c.compileTokens call.path tokens).outcome = .ok html ∧
      after = (c.compileTokens call.path tokens).compiler := by
  rw [run_eq] at h
  cases htokens : call.tokens with
  | error f =>
    rw [htokens] at h
    obtain ⟨rfl, -⟩ := Prod.mk.inj h
    cases hpage
  | ok tokens =>
    rw [htokens] at h
    obtain ⟨hending, rfl⟩ := Prod.mk.inj h
    cases houtcome : (c.compileTokens call.path tokens).outcome with
    | ok html =>
      rw [houtcome] at hending
      exact ⟨tokens, html, rfl, hending.symm, houtcome, rfl⟩
    | error e =>
      rw [houtcome] at hending
      cases e <;> subst hending <;> cases hpage

/-- What a call does to the names of sections: a page brings in those of its file, which are new,
and a problem leaves them as they are. -/
theorem run_sections (c : Compiler) (call : Call) :
    ((call.run c).1.isPage = true → c.sections.Nodup →
      (call.run c).2.sections = call.declared.reverse ++ c.sections ∧
        (call.run c).2.sections.Nodup) ∧
    ((call.run c).1 = .problem → (call.run c).2.sections = c.sections) := by
  rw [run_eq, declared]
  cases call.tokens with
  | error f => exact ⟨fun h => absurd h Bool.false_ne_true, fun h => by cases h⟩
  | ok tokens =>
    dsimp only
    cases houtcome : (c.compileTokens call.path tokens).outcome with
    | ok html => exact ⟨fun _ => Compiler.sections_of_page houtcome, fun h => by cases h⟩
    | error e =>
      cases e with
      | problem d =>
        exact ⟨fun h => absurd h Bool.false_ne_true,
          fun _ => Compiler.sections_of_problem houtcome⟩
      | fault f => exact ⟨fun h => absurd h Bool.false_ne_true, fun h => by cases h⟩

end Call

/-- One call in a sequence of them. -/
structure Turn where
  before : Compiler
  call : Call
  ending : Ending
  after : Compiler

def Turn.names (turn : Turn) : List String :=
  if turn.ending.isPage then turn.call.declared else []

theorem Turn.names_of_isPage {turn : Turn} (h : turn.ending.isPage = true) :
    turn.names = turn.call.declared := if_pos h

theorem Turn.mem_names {turn : Turn} {name : String} :
    name ∈ turn.names ↔ turn.ending.isPage = true ∧ name ∈ turn.call.declared := by
  unfold names
  split_ifs with h <;> simp [h]

namespace Compiler

def session (c : Compiler) : List Call → List Turn
  | [] => []
  | call :: rest => ⟨c, call, (call.run c).1, (call.run c).2⟩ :: session (call.run c).2 rest

def afterAll (c : Compiler) (calls : List Call) : Compiler :=
  calls.foldl (fun c call => (call.run c).2) c

theorem run_of_mem_session {c : Compiler} {calls : List Call} {turn : Turn}
    (h : turn ∈ c.session calls) : turn.call.run turn.before = (turn.ending, turn.after) := by
  induction calls generalizing c with
  | nil => cases h
  | cons call rest ih =>
    rcases List.mem_cons.mp h with rfl | h
    · rfl
    · exact ih h

theorem call_mem_of_mem_session {c : Compiler} {calls : List Call} {turn : Turn}
    (h : turn ∈ c.session calls) : turn.call ∈ calls := by
  induction calls generalizing c with
  | nil => cases h
  | cons call rest ih =>
    rcases List.mem_cons.mp h with rfl | h
    · exact List.mem_cons_self
    · exact List.mem_cons_of_mem call (ih h)

theorem take_session (c : Compiler) (calls : List Call) (k : Nat) :
    (c.session calls).take k = c.session (calls.take k) := by
  induction calls generalizing c k with
  | nil => simp [session]
  | cons call rest ih =>
    cases k with
    | zero => rfl
    | succ k => simp [session, ih]

/-- The names after a sequence of calls without faults are those before it and those of its
pages, and no name comes twice. -/
theorem afterAll_sections {c : Compiler} (hnd : c.sections.Nodup) {calls : List Call}
    (h : ∀ turn ∈ c.session calls, ∀ f, turn.ending ≠ .fault f) :
    (c.afterAll calls).sections = ((c.session calls).flatMap Turn.names).reverse ++ c.sections ∧
      (c.afterAll calls).sections.Nodup := by
  induction calls generalizing c with
  | nil => exact ⟨rfl, hnd⟩
  | cons call rest ih =>
    obtain ⟨hpage, hproblem⟩ := call.run_sections c
    rw [session, List.forall_mem_cons] at h
    obtain ⟨hfault, hrest⟩ := h
    -- The first call ends with a page or a problem, and brings in what its turn names.
    have hfirst : (call.run c).2.sections =
        (Turn.names ⟨c, call, (call.run c).1, (call.run c).2⟩).reverse ++ c.sections ∧
          (call.run c).2.sections.Nodup := by
      cases hending : (call.run c).1 with
      | page html => exact hpage (by rw [hending]; rfl) hnd
      | problem =>
        have hsame := hproblem hending
        exact ⟨hsame, by rw [hsame]; exact hnd⟩
      | fault f => exact absurd hending (hfault f)
    obtain ⟨hsections, hnodup⟩ := ih hfirst.2 hrest
    refine ⟨?_, hnodup⟩
    show ((call.run c).2.afterAll rest).sections = _
    rw [hsections, hfirst.1, session, List.flatMap_cons, List.reverse_append, List.append_assoc]

/-- The names of sections after each call are those that the pages so far have declared, no two
pages have declared the same name nor one page a name twice, and a problem leaves the names as
they were. -/
theorem session_sections (debug : Bool) (calls : List Call)
    (h : ∀ turn ∈ ({ debug } : Compiler).session calls, ∀ f, turn.ending ≠ .fault f) :
    let turns := ({ debug } : Compiler).session calls
    (∀ k name, name ∈ (({ debug } : Compiler).afterAll (calls.take k)).sections ↔
      ∃ turn ∈ turns.take k, turn.ending.isPage = true ∧ name ∈ turn.call.declared) ∧
    (turns.filter (·.ending.isPage)).Pairwise
      (fun a b => a.call.declared.Disjoint b.call.declared) ∧
    (∀ turn ∈ turns, turn.ending.isPage = true → turn.call.declared.Nodup) ∧
    ∀ turn ∈ turns, turn.ending = .problem → turn.after.sections = turn.before.sections := by
  intro turns
  have hfaultless (k : Nat) :
      ∀ turn ∈ ({ debug } : Compiler).session (calls.take k), ∀ f, turn.ending ≠ .fault f := by
    rw [← take_session]
    exact fun turn hturn => h turn (List.mem_of_mem_take hturn)
  have hnames : (turns.flatMap Turn.names).Nodup := by
    obtain ⟨hsections, hnodup⟩ := afterAll_sections List.nodup_nil h
    rw [hsections] at hnodup
    exact List.nodup_reverse.mp hnodup.of_append_left
  obtain ⟨hsingle, hdisjoint⟩ := List.nodup_flatMap.mp hnames
  refine ⟨fun k name => ?_, List.pairwise_filter.mpr ?_, fun turn hturn hpage => ?_,
    fun turn hturn hproblem => ?_⟩
  · obtain ⟨hsections, -⟩ := afterAll_sections List.nodup_nil (hfaultless k)
    rw [hsections, ← take_session, List.append_nil, List.mem_reverse, List.mem_flatMap]
    simp only [Turn.mem_names]
    rfl
  · refine hdisjoint.imp fun {a b} hab ha hb => ?_
    rw [← Turn.names_of_isPage ha, ← Turn.names_of_isPage hb]
    exact hab
  · rw [← Turn.names_of_isPage hpage]
    exact hsingle turn hturn
  · obtain ⟨-, hsame⟩ := turn.call.run_sections turn.before
    rw [run_of_mem_session hturn] at hsame
    exact hsame hproblem

/-- A file, a file that declares the same name at its end, and a file with the other name of that
one. -/
def retriedCalls : List Call :=
  [.compile "a.md" "\x7b\x7bA\x7d\x7d", .render "b.md" "\x7b\x7bB\x7d\x7d\n\n\x7b\x7bA\x7d\x7d",
    .compile "c.md" "\x7b\x7bB\x7d\x7d"]

theorem session_sections_retriedCalls :
    (({} : Compiler).session retriedCalls).map (·.ending) =
      [.page "<div id=\"A\" class=\"section\" hidden=\"true\">\n</div>", .problem,
        .page "<div id=\"B\" class=\"section\" hidden=\"true\">\n</div>"] ∧
    (∀ turn ∈ ({} : Compiler).session retriedCalls, ∀ f, turn.ending ≠ .fault f) ∧
    ∀ name, name ∈ (({} : Compiler).afterAll (retriedCalls.take 3)).sections ↔
      ∃ turn ∈ (({} : Compiler).session retriedCalls).take 3,
        turn.ending.isPage = true ∧ name ∈ turn.call.declared := by
  have heval : (({} : Compiler).session retriedCalls).map (·.ending) =
      [.page "<div id=\"A\" class=\"section\" hidden=\"true\">\n</div>", .problem,
        .page "<div id=\"B\" class=\"section\" hidden=\"true\">\n</div>"] := by decide +kernel
  have hfaultless : ∀ turn ∈ ({} : Compiler).session retriedCalls, ∀ f, turn.ending ≠ .fault f := by
    intro turn hturn f hf
    have hmem := List.mem_map_of_mem (f := fun turn : Turn => turn.ending) hturn
    rw [heval, hf] at hmem
    simp at hmem
  exact ⟨heval, hfaultless, (session_sections false retriedCalls hfaultless).1 3⟩

end Compiler

end Hyperstory
