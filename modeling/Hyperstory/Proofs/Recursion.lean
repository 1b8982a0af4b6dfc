import Hyperstory.Proofs.Reading
import Hyperstory.Story.Expansion

/-!
Replacing directives in an immutable tree, by recursion on its structure: rows from left to right,
images before and links after what stands below them.
-/
namespace Hyperstory

/-- How the compiler writes what it numbers and what it names. -/
structure Wording where
  inlineId : Nat → String
  sectionBegin : Bool → String → String

/-- The words of the page. -/
def Wording.standard : Wording := ⟨Markup.inlineId, Markup.sectionBegin⟩

/-- What a node sees of the tree around it. -/
structure Place where
  /-- The kind of the node above. -/
  parentKind : String
  /-- A sibling stands before the node. -/
  before : Bool := false
  /-- A sibling stands after the node. -/
  after : Bool := false

theorem ne_backslash {c : Char} {cs : List Char} (hend : c = '\\' → cs = [] → False)
    (hnext : ∀ d ds, c = '\\' → cs = d :: ds → False) : c ≠ '\\' := by
  intro hc
  cases cs with
  | nil => exact hend hc rfl
  | cons d ds => exact hnext d ds hc rfl

namespace Directive

theorem span_plain {c : Char} (hc : c ≠ '\\') (hopen : c ≠ '{') (hclose : c ≠ '}') (depth : Int)
    (cs : List Char) : span depth (c :: cs) = (span depth cs).map (· + 1) := by
  rw [span]
  · exact fun h => absurd h hc
  · exact fun _ _ h => absurd h hc
  · exact hopen
  · exact hclose

/-- The brace that closes the last of `depth` open ones is the `n`-th character. -/
inductive Spans : Int → List Char → Nat → Prop
  | escape {depth : Int} {cs : List Char} {n : Nat} (c : Char) (rest : Spans depth cs n) :
      Spans depth ('\\' :: c :: cs) (n + 2)
  | opening {depth : Int} {cs : List Char} {n : Nat} (rest : Spans (depth + 1) cs n) :
      Spans depth ('{' :: cs) (n + 1)
  | closing {cs : List Char} : Spans 1 ('}' :: cs) 1
  | inner {depth : Int} {cs : List Char} {n : Nat} (hdepth : depth ≠ 1)
      (rest : Spans (depth - 1) cs n) : Spans depth ('}' :: cs) (n + 1)
  | plain {depth : Int} {c : Char} {cs : List Char} {n : Nat} (hc : c ≠ '\\') (hopen : c ≠ '{')
      (hclose : c ≠ '}') (rest : Spans depth cs n) : Spans depth (c :: cs) (n + 1)

theorem span_eq_some_iff {depth : Int} {cs : List Char} {n : Nat} :
    span depth cs = some n ↔ Spans depth cs n := by
  constructor
  · intro h
    fun_induction span depth cs generalizing n with
    | case1 => cases h
    | case2 => cases h
    | case3 depth c cs ih =>
      obtain ⟨m, hm, rfl⟩ := Option.map_eq_some_iff.mp h
      exact .escape c (ih hm)
    | case4 depth cs ih =>
      obtain ⟨m, hm, rfl⟩ := Option.map_eq_some_iff.mp h
      exact .opening (ih hm)
    | case5 cs =>
      obtain rfl := Option.some.inj h
      exact .closing
    | case6 depth cs hdepth ih =>
      obtain ⟨m, hm, rfl⟩ := Option.map_eq_some_iff.mp h
      exact .inner hdepth (ih hm)
    | case7 depth c cs hend hnext hopen hclose ih =>
      obtain ⟨m, hm, rfl⟩ := Option.map_eq_some_iff.mp h
      exact .plain (ne_backslash hend hnext) hopen hclose (ih hm)
  · intro h
    induction h with
    | escape c _ ih => rw [span, ih, Option.map_some]
    | opening _ ih => rw [span, ih, Option.map_some]
    | closing => rw [span, if_pos rfl]
    | inner hdepth _ ih => rw [span, if_neg hdepth, ih, Option.map_some]
    | plain hc hopen hclose _ ih => rw [span_plain hc hopen hclose, ih, Option.map_some]

theorem Spans.pos {depth : Int} {cs : List Char} {n : Nat} (h : Spans depth cs n) : 0 < n := by
  cases h <;> omega

theorem span_pos {depth : Int} {cs : List Char} {n : Nat} (h : span depth cs = some n) : 0 < n :=
  (span_eq_some_iff.mp h).pos

theorem span_le_length {depth : Int} {cs : List Char} {n : Nat} (h : span depth cs = some n) :
    n ≤ cs.length := by
  rw [span_eq_some_iff] at h
  induction h <;> simp only [List.length_cons] <;> omega

/-- A directive begins where it was looked for, and it is not empty. -/
theorem scan_bounds {literal : List Char} {start : Nat} {d : Directive}
    (h : scan literal start = .ok d) :
    d.start = start ∧ d.start < d.stop ∧ d.stop ≤ literal.length := by
  unfold scan at h
  cases hspan : span 0 (literal.drop start) with
  | none => rw [hspan] at h; cases h
  | some n =>
    have hpos := span_pos hspan
    have hle := span_le_length hspan
    rw [List.length_drop] at hle
    rw [hspan] at h
    simp only [ofText] at h
    split at h
    · cases h
      have hlen : ((literal.drop start).take n).length = n := by
        rw [List.length_take, List.length_drop]
        omega
      refine ⟨rfl, ?_, ?_⟩
      · show start < start + _
        omega
      · show start + _ ≤ _
        omega
    · cases h

end Directive

namespace Opening

variable {o o' : Opening} {c : Char} {cs : List Char}

/-- What is counted up to the character after the next. -/
def past (o : Opening) (c : Char) : Opening :=
  if c = '\n' then ⟨o.index + 1, o.lines + 1, 0⟩ else ⟨o.index + 1, o.lines, o.columns + 1⟩

@[simp]
theorem index_past : (o.past c).index = o.index + 1 := by
  unfold past
  split <;> rfl

/-- The first brace that no backslash takes away is reached after some characters. -/
inductive Opens : Opening → List Char → Opening → Prop
  | here {o : Opening} {cs : List Char} : Opens o ('{' :: cs) o
  | escape {o o' : Opening} {cs : List Char} (c : Char) (rest : Opens ((o.past '\\').past c) cs o') :
      Opens o ('\\' :: c :: cs) o'
  | plain {o o' : Opening} {c : Char} {cs : List Char} (hc : c ≠ '\\') (hopen : c ≠ '{')
      (rest : Opens (o.past c) cs o') : Opens o (c :: cs) o'

theorem find?_escape : find? o ('\\' :: c :: cs) = find? ((o.past '\\').past c) cs := by
  by_cases hline : c = '\n'
  · subst hline
    rw [find?]
    rfl
  · rw [find?]
    · simp [past, hline]
    · exact hline

theorem find?_plain (hc : c ≠ '\\') (hopen : c ≠ '{') :
    find? o (c :: cs) = find? (o.past c) cs := by
  by_cases hline : c = '\n'
  · subst hline
    rw [find?]
    rfl
  · rw [find?]
    · simp [past, hline]
    · exact fun h => absurd h hc
    · exact fun _ h => absurd h hc
    · exact fun _ _ h => absurd h hc
    · exact hline
    · exact hopen

theorem find?_eq_some_iff : find? o cs = some o' ↔ Opens o cs o' := by
  constructor
  · intro h
    fun_induction find? o cs with
    | case1 => cases h
    | case2 => cases h
    | case3 o cs ih => exact .escape '\n' (ih h)
    | case4 o c cs hline ih =>
      refine .escape c ?_
      simpa [past, show c ≠ '\n' from hline] using ih h
    | case5 o cs ih => exact .plain (by decide) (by decide) (ih h)
    | case6 o cs =>
      obtain rfl := Option.some.inj h
      exact .here
    | case7 o c cs hend _ hnext hline hopen ih =>
      refine .plain (ne_backslash hend hnext) hopen ?_
      simpa [past, show c ≠ '\n' from hline] using ih h
  · intro h
    induction h with
    | here => rw [find?]
    | escape c _ ih => rw [find?_escape, ih]
    | plain hc hopen _ ih => rw [find?_plain hc hopen, ih]

theorem Opens.index_le (h : Opens o cs o') : o.index ≤ o'.index := by
  induction h with
  | here => exact le_rfl
  | escape c _ ih | plain _ _ _ ih =>
    simp only [index_past] at ih
    omega

/-- The brace is the next character, or characters are counted before it. -/
theorem find?_index (h : find? o cs = some o') : o' = o ∨ o.index < o'.index := by
  cases find?_eq_some_iff.mp h with
  | here => exact .inl rfl
  | escape c rest | plain _ _ rest =>
    have hle := rest.index_le
    simp only [index_past] at hle
    exact .inr (by omega)

end Opening

def Node.characters (n : Node) : List Char := (n.literal.getD "").toList

/-- The tally after a section has begun. -/
def Tally.declare (tally : Tally) (name : String) : Tally :=
  { tally with count := tally.count + 1, declared := name :: tally.declared }

/-- A link that the engine follows. -/
structure Anchor where
  /-- The link has a number, by which its text can be replaced. -/
  numbered : Bool
  action : String
  target : String

def Anchor.id? (a : Anchor) (w : Wording) (tally : Tally) : Option String :=
  if a.numbered then some (w.inlineId tally.nextInline) else none

def Tally.link (tally : Tally) (a : Anchor) : Tally :=
  if a.numbered then { tally with nextInline := tally.nextInline + 1 } else tally

namespace Expansion

open Hyperstory.Tree

/-- What comes after a step that went well, with what was counted by then. -/
def andThen {α β : Type} (x : Tally × Except Failure α)
    (f : Tally → α → Tally × Except Failure β) : Tally × Except Failure β :=
  match x with
  | (tally, .ok a) => f tally a
  | (tally, .error e) => (tally, .error e)

@[simp]
theorem andThen_ok {α β : Type} (tally : Tally) (a : α)
    (f : Tally → α → Tally × Except Failure β) : andThen (tally, .ok a) f = f tally a := rfl

@[simp]
theorem andThen_error {α β : Type} (tally : Tally) (e : Failure)
    (f : Tally → α → Tally × Except Failure β) :
    andThen (tally, .error e) f = (tally, .error e) := rfl

/-- Why a section cannot begin at this directive of a leaf that is not alone in a paragraph of the
document. -/
def misplaced (place : Place) (n : Node) (d : Directive) : Cause :=
  if n.kind != "text" then .notInParagraph d.text
  else if d.start > 0 || place.before then .notAlone d.text
  else if !(Text.strip (n.characters.drop d.stop)).isEmpty || place.after then .notAlone d.text
  else .insideBlock d.text

/-- The leaf for what stands after a directive. -/
def remainder (n : Node) (d : Directive) (o : Opening) : Node :=
  Forest.splitOff n (String.ofList (n.characters.drop d.stop))
    (n.position.map fun p => p.shift o.lines (o.columns + d.text.length))

@[simp]
theorem characters_remainder (n : Node) (d : Directive) (o : Opening) :
    (remainder n d o).characters = n.characters.drop d.stop := by
  simp [Node.characters, remainder, Forest.splitOff]

/-- A leaf that keeps what stands before a directive. -/
def shortened (n : Node) (d : Directive) : Node :=
  { n with literal := some (String.ofList (n.characters.take d.start)) }

/-- The leaf for what stands before a directive, if that is anything. -/
def kept (n : Node) (d : Directive) : List (Tree Node) :=
  if (n.characters.take d.start).isEmpty then [] else [.node (shortened n d) []]

def expanded (n : Node) (d : Directive) : Tree Node :=
  .node (markupNode n (Markup.expansionIn n.kind d.reference)) []

/-- A leaf cut at its directives, which give way to their expansions. -/
def segments (path : String) (place : Place) (n : Node) : Except Failure (List (Tree Node)) :=
  match Opening.find? ⟨0, 0, 0⟩ n.characters with
  | none => .ok [.node n []]
  | some o =>
    match _hscan : Directive.scan n.characters o.index with
    | .error e => .error (problemAt path n o.lines o.columns e.cause)
    | .ok d =>
      if d.kind = .sectionBegin then
        .error (problemAt path n o.lines o.columns (misplaced place n d))
      else if (n.characters.drop d.stop).isEmpty then .ok (kept n d ++ [expanded n d])
      else
        match segments path { place with before := true } (remainder n d o) with
        | .ok row => .ok (kept n d ++ expanded n d :: row)
        | .error e => .error e
termination_by n.characters.length
decreasing_by
  have := Directive.scan_bounds _hscan
  rw [characters_remainder, List.length_drop]
  omega

theorem segments_eq (path : String) (place : Place) (n : Node) :
    segments path place n =
      match Opening.find? ⟨0, 0, 0⟩ n.characters with
      | none => .ok [.node n []]
      | some o =>
        match Directive.scan n.characters o.index with
        | .error e => .error (problemAt path n o.lines o.columns e.cause)
        | .ok d =>
          if d.kind = .sectionBegin then
            .error (problemAt path n o.lines o.columns (misplaced place n d))
          else if (n.characters.drop d.stop).isEmpty then .ok (kept n d ++ [expanded n d])
          else
            match segments path { place with before := true } (remainder n d o) with
            | .ok row => .ok (kept n d ++ expanded n d :: row)
            | .error e => .error e := by
  rw [segments]
  cases Opening.find? ⟨0, 0, 0⟩ n.characters with
  | none => rfl
  | some o =>
    dsimp only
    split
    · next e he => rw [he]
    · next d hd => rw [hd]

/-- The label of a node without escapes in text that is read for directives. -/
def unescaped (n : Node) : Node :=
  if isScanned n.kind then
    { n with literal := n.literal.map fun s => String.ofList (unescape s.toList) }
  else n

mutual

def streamOf : Tree Node → Except Fault (Bool × List Slot)
  | .node n row =>
    if n.kind == "image" then
      match n.token with
      | none => .error .tokenless
      | some tok => do
        let inner ← streamsOf row
        .ok (n.inline, [.filled tok (some (inner.flatMap (·.2)))])
    else if n.container then do
      let inner ← streamsOf row
      let inner := if n.inline then inner.flatMap (·.2) else Forest.groupRuns [] inner
      .ok (n.inline, Slot.ofToken? n.token :: inner ++ [Slot.ofToken? n.closing])
    else .ok (n.inline, [Forest.leafSlot n])

def streamsOf : List (Tree Node) → Except Fault (List (Bool × List Slot))
  | [] => .ok []
  | x :: rest => do
    let first ← streamOf x
    let others ← streamsOf rest
    .ok (first :: others)

end

/-- The HTML of a row of inline content whose escapes are removed. -/
def inlineText (row : List (Tree Node)) : Except Fault String := do
  let streams ← streamsOf (mapAll unescaped row)
  Slot.renderInline (streams.flatMap (·.2))

/-- The anchor for a link. -/
def anchored (n : Node) (row : List (Tree Node)) (id : Option String) (action target : String) :
    Except Failure (List (Tree Node)) :=
  match inlineText row with
  | .error f => .error (.fault f)
  | .ok text => .ok [.node (markupNode n (Markup.anchor id action target text)) []]

/-- The anchor that a link asks for by its destination, if that is a directive. -/
def anchorOf? (path : String) (n : Node) : Except Failure (Option Anchor) :=
  match AttrValue.destination n.destination with
  | .error f => .error (.fault f)
  | .ok destination =>
    let url := Url.decodeDestination destination
    if url.toList.head? != some '{' then .ok none
    else
      match Destination.ofUrl? url with
      | none => .error (problemAt path n 0 0 (.unterminatedDestination url))
      | some d =>
        match d.modifier, d.kind? with
        | some m, kind =>
          if m == "inline" then
            match kind with
            | none | some .sectionBegin => .error (problemAt path n 0 0 (.unrecognizedLink url))
            | some _ => .ok (some ⟨true, "replace-with", d.name⟩)
          else .error (problemAt path n 0 0 (.unrecognizedModifier m))
        | none, some .sectionRef => .ok (some ⟨false, "goto-section", d.name⟩)
        | none, some .functionRef => .ok (some ⟨false, "call-function", d.name⟩)
        | none, some .variableRef => .error (problemAt path n 0 0 .variableLink)
        | none, _ => .error (problemAt path n 0 0 (.unrecognizedLink url))

/-- A link over a row in which everything is replaced. -/
def expandLink (w : Wording) (path : String) (tally : Tally) (n : Node) (row : List (Tree Node)) :
    Tally × Except Failure (List (Tree Node)) :=
  match anchorOf? path n with
  | .error e => (tally, .error e)
  | .ok none => (tally, .ok [.node n row])
  | .ok (some a) => (tally.link a, anchored n row (a.id? w tally) a.action a.target)

/-- The alternative text of an image over a row. -/
def altOf (row : List (Tree Node)) : Option String :=
  match row.head? with
  | some x =>
    if x.value.kind == "text" then
      x.value.literal.map fun s => String.ofList (unescape s.toList)
    else some ""
  | none => some ""

def expandImage (path : String) (n : Node) (row : List (Tree Node)) :
    Except Failure (List (Tree Node)) :=
  match altOf row with
  | none => .error (.fault .wordless)
  | some alt =>
    match AttrValue.destination n.destination with
    | .error f => .error (.fault f)
    | .ok destination =>
      match imageMarkup destination alt with
      | .error cause => .error (problemAt path n 0 0 cause)
      | .ok markup => .ok [.node (markupNode n markup) []]

theorem expandImage_eq_ok {path : String} {n : Node} {row out : List (Tree Node)}
    (h : expandImage path n row = .ok out) : ∃ markup, out = [.node (markupNode n markup) []] := by
  unfold expandImage at h
  cases halt : altOf row with
  | none => rw [halt] at h; cases h
  | some alt =>
    rw [halt] at h
    dsimp only at h
    cases hdest : AttrValue.destination n.destination with
    | error f => rw [hdest] at h; cases h
    | ok destination =>
      rw [hdest] at h
      dsimp only at h
      cases hmarkup : imageMarkup destination alt with
      | error cause => rw [hmarkup] at h; cases h
      | ok markup =>
        rw [hmarkup] at h
        exact ⟨markup, (Except.ok.inj h).symm⟩

/-- The section directive of a text that holds nothing else. -/
def declares? (n : Node) : Option Directive :=
  match Opening.find? ⟨0, 0, 0⟩ n.characters with
  | none => none
  | some o =>
    match Directive.scan n.characters o.index with
    | .error _ => none
    | .ok d =>
      if n.kind = "text" ∧ d.kind = .sectionBegin ∧ d.start = 0 ∧
          (Text.strip (n.characters.drop d.stop)).isEmpty then some d
      else none

theorem declares?_eq_some {n : Node} {d : Directive} (h : declares? n = some d) :
    Opening.find? ⟨0, 0, 0⟩ n.characters = some ⟨0, 0, 0⟩ ∧
      Directive.scan n.characters 0 = .ok d ∧ n.kind = "text" ∧ d.kind = .sectionBegin ∧
      d.start = 0 ∧ (Text.strip (n.characters.drop d.stop)).isEmpty = true := by
  unfold declares? at h
  cases hfind : Opening.find? ⟨0, 0, 0⟩ n.characters with
  | none => rw [hfind] at h; cases h
  | some o =>
    rw [hfind] at h
    dsimp only at h
    cases hscan : Directive.scan n.characters o.index with
    | error e => rw [hscan] at h; cases h
    | ok d' =>
      rw [hscan] at h
      dsimp only at h
      split_ifs at h with hall
      obtain rfl := Option.some.inj h
      obtain ⟨hkind, hbegin, hstart, hrest⟩ := hall
      have hindex : o.index = 0 := by rw [← (Directive.scan_bounds hscan).1, hstart]
      obtain rfl : o = ⟨0, 0, 0⟩ := (Opening.find?_index hfind).resolve_right (by simp [hindex])
      exact ⟨rfl, hscan, hkind, hbegin, hstart, hrest⟩

theorem declares?_of_scan {n : Node} {o : Opening} {d : Directive}
    (hfind : Opening.find? ⟨0, 0, 0⟩ n.characters = some o)
    (hscan : Directive.scan n.characters o.index = .ok d)
    (h : n.kind = "text" ∧ d.kind = .sectionBegin ∧ d.start = 0 ∧
      (Text.strip (n.characters.drop d.stop)).isEmpty = true) : declares? n = some d := by
  unfold declares?
  rw [hfind]
  dsimp only
  rw [hscan]
  exact if_pos h

/-- The text and the directive of a paragraph of the document that declares a section. -/
def declaration? (parentKind : String) : Tree Node → Option (Node × Directive)
  | .node n [.node text _] =>
    if n.container = true ∧ n.kind = "paragraph" ∧ parentKind = "document" then
      (declares? text).map fun d => (text, d)
    else none
  | _ => none

theorem declaration?_eq_some {parentKind : String} {n text : Node} {row : List (Tree Node)}
    {d : Directive} (h : declaration? parentKind (.node n row) = some (text, d)) :
    (∃ below, row = [.node text below]) ∧ n.container = true ∧ n.kind = "paragraph" ∧
      parentKind = "document" ∧ declares? text = some d := by
  unfold declaration? at h
  split at h
  · next _ text' below heq =>
    obtain ⟨rfl, rfl⟩ := Tree.node.inj heq
    split_ifs at h with hkinds
    obtain ⟨d', hd', hpair⟩ := Option.map_eq_some_iff.mp h
    obtain ⟨rfl, rfl⟩ := Prod.mk.inj hpair
    exact ⟨⟨below, rfl⟩, hkinds.1, hkinds.2.1, hkinds.2.2, hd'⟩
  · cases h

/-- A lone text below a paragraph that declares no section does not declare one. -/
theorem declares?_of_declaration? {parentKind : String} {n text : Node} {below : List (Tree Node)}
    (h : declaration? parentKind (.node n [.node text below]) = none) (hc : n.container = true)
    (hn : n.kind = "paragraph") (hp : parentKind = "document") : declares? text = none := by
  unfold declaration? at h
  dsimp only at h
  rw [if_pos ⟨hc, hn, hp⟩] at h
  exact Option.map_eq_none_iff.mp h

/-- Why the section of a declaration cannot begin. -/
def declarationProblem? (place : Place) (tally : Tally) (d : Directive) : Option Cause :=
  if tally.count = 0 && place.before then some (.contentBefore d.text)
  else if d.identifier.isEmpty then some (.namelessSection d.text)
  else if tally.taken.contains d.identifier || tally.declared.contains d.identifier then
    some (.duplicate d.identifier)
  else none

/-- The beginning of a section in place of the paragraph `n`. -/
def sectionNode (w : Wording) (tally : Tally) (n : Node) (d : Directive) : Node :=
  { kind := "html_inline", literal := some (w.sectionBegin (tally.count = 0) d.identifier),
    position := n.position }

/-- A paragraph `n` whose text declares a section. -/
def expandSection (w : Wording) (path : String) (place : Place) (tally : Tally) (n text : Node)
    (d : Directive) : Tally × Except Failure (List (Tree Node)) :=
  match declarationProblem? place tally d with
  | some cause => (tally, .error (problemAt path text 0 0 cause))
  | none => (tally.declare d.identifier, .ok [.node (sectionNode w tally n d) []])

/-- A container over a row in which everything is replaced. -/
def expandOver (w : Wording) (path : String) (tally : Tally) (n : Node) (row : List (Tree Node)) :
    Tally × Except Failure (List (Tree Node)) :=
  if n.kind == "link" then expandLink w path tally n row else (tally, .ok [.node n row])

mutual

/-- The row that stands for a tree when everything in it is replaced. -/
def expand (w : Wording) (path : String) (place : Place) (tally : Tally) :
    Tree Node → Tally × Except Failure (List (Tree Node))
  | .node n row =>
    if n.kind == "image" then (tally, expandImage path n row)
    else if !n.container then
      if isScanned n.kind then (tally, segments path place n) else (tally, .ok [.node n row])
    else
      match declaration? place.parentKind (.node n row) with
      | some (text, d) => expandSection w path place tally n text d
      | none =>
        andThen (expandAll w path { parentKind := n.kind } tally row) fun tally row =>
          expandOver w path tally n row

/-- The row that stands for a row of trees. -/
def expandAll (w : Wording) (path : String) (place : Place) (tally : Tally) :
    List (Tree Node) → Tally × Except Failure (List (Tree Node))
  | [] => (tally, .ok [])
  | x :: rest =>
    andThen (expand w path { place with after := !rest.isEmpty } tally x) fun tally row =>
      andThen (expandAll w path { place with before := true } tally rest) fun tally rest =>
        (tally, .ok (row ++ rest))

end

theorem segments_ne_nil {path : String} {place : Place} {n : Node} {out : List (Tree Node)}
    (h : segments path place n = .ok out) : out ≠ [] := by
  rw [segments_eq] at h
  split at h
  · cases h
    simp
  · split at h
    · cases h
    · split_ifs at h
      · cases h
        simp
      · split at h
        · cases h
          simp
        · cases h

theorem ne_of_isScanned {kind : String} (h : isScanned kind = true) :
    kind ≠ "link" ∧ kind ≠ "image" := by
  constructor <;> rintro rfl <;> exact absurd h (by decide)

/-- The cases of the recursion at a node over a row. -/
inductive Shape (parentKind : String) (n : Node) (row : List (Tree Node)) : Prop where
  | image (hkind : n.kind = "image")
  | scanned (hc : n.container = false) (hs : isScanned n.kind = true)
  | plain (hkind : n.kind ≠ "image") (hc : n.container = false) (hs : isScanned n.kind = false)
  | opening (text : Node) (d : Directive)
      (hdecl : declaration? parentKind (.node n row) = some (text, d))
  | container (hkind : n.kind ≠ "image") (hc : n.container = true)
      (hdecl : declaration? parentKind (.node n row) = none)

theorem shape (parentKind : String) (n : Node) (row : List (Tree Node)) :
    Shape parentKind n row := by
  by_cases hkind : n.kind = "image"
  · exact .image hkind
  cases hc : n.container with
  | false =>
    cases hs : isScanned n.kind with
    | true => exact .scanned hc hs
    | false => exact .plain hkind hc hs
  | true =>
    cases hdecl : declaration? parentKind (.node n row) with
    | some found => exact .opening found.1 found.2 hdecl
    | none => exact .container hkind hc hdecl

section Equations

variable {w : Wording} {path : String} {place : Place} {tally tally' : Tally} {n : Node}
  {row out : List (Tree Node)}

theorem expand_image (hkind : n.kind = "image") :
    expand w path place tally (.node n row) = (tally, expandImage path n row) := by
  rw [expand, if_pos (by simpa using hkind)]

theorem expand_scanned (hc : n.container = false) (hs : isScanned n.kind = true) :
    expand w path place tally (.node n row) = (tally, segments path place n) := by
  obtain ⟨-, himage⟩ := ne_of_isScanned hs
  rw [expand, if_neg (by simpa using himage), if_pos (by simp [hc]), if_pos hs]

theorem expand_plain (hkind : n.kind ≠ "image") (hc : n.container = false)
    (hs : isScanned n.kind = false) :
    expand w path place tally (.node n row) = (tally, .ok [.node n row]) := by
  rw [expand, if_neg (by simpa using hkind), if_pos (by simp [hc]), if_neg (by simp [hs])]

theorem expand_section {text : Node} {d : Directive}
    (hdecl : declaration? place.parentKind (.node n row) = some (text, d)) :
    expand w path place tally (.node n row) = expandSection w path place tally n text d := by
  obtain ⟨-, hc, hkind, -⟩ := declaration?_eq_some hdecl
  rw [expand, if_neg (by rw [hkind]; decide), if_neg (by simp [hc]), hdecl]

theorem expand_container (hkind : n.kind ≠ "image") (hc : n.container = true)
    (hdecl : declaration? place.parentKind (.node n row) = none) :
    expand w path place tally (.node n row) =
      andThen (expandAll w path { parentKind := n.kind } tally row) fun tally row =>
        expandOver w path tally n row := by
  rw [expand, if_neg (by simpa using hkind), if_neg (by simp [hc]), hdecl]

theorem expandAll_cons (x : Tree Node) (rest : List (Tree Node)) :
    expandAll w path place tally (x :: rest) =
      andThen (expand w path { place with after := !rest.isEmpty } tally x) fun tally row =>
        andThen (expandAll w path { place with before := true } tally rest) fun tally rest =>
          (tally, .ok (row ++ rest)) := by
  rw [expandAll]

theorem andThen_eq_ok {α β : Type} {x : Tally × Except Failure α}
    {f : Tally → α → Tally × Except Failure β} {b : β} (h : andThen x f = (tally', .ok b)) :
    ∃ tally₁ a, x = (tally₁, .ok a) ∧ f tally₁ a = (tally', .ok b) := by
  obtain ⟨tally₁, result⟩ := x
  cases result with
  | error e => cases h
  | ok a => exact ⟨tally₁, a, rfl, h⟩

theorem expandSection_eq_ok {text : Node} {d : Directive}
    (h : expandSection w path place tally n text d = (tally', .ok out)) :
    declarationProblem? place tally d = none ∧ tally' = tally.declare d.identifier ∧
      out = [.node (sectionNode w tally n d) []] := by
  unfold expandSection at h
  cases hproblem : declarationProblem? place tally d with
  | some cause =>
    rw [hproblem] at h
    cases h
  | none =>
    rw [hproblem] at h
    obtain ⟨htally, hout⟩ := Prod.mk.inj h
    exact ⟨rfl, htally.symm, (Except.ok.inj hout).symm⟩

theorem exists_of_isOk {ε α : Type} {x : Except ε α} (h : x.isOk = true) : ∃ a, x = .ok a := by
  cases x with
  | error e => cases h
  | ok a => exact ⟨a, rfl⟩

theorem inlineText_eq_ok {text : String} (h : inlineText row = .ok text) :
    ∃ parts, streamsOf (mapAll unescaped row) = .ok parts ∧
      Slot.renderInline (parts.flatMap (·.2)) = .ok text := by
  unfold inlineText at h
  cases hparts : streamsOf (mapAll unescaped row) with
  | error f =>
    rw [hparts] at h
    cases h
  | ok parts =>
    rw [hparts] at h
    exact ⟨parts, rfl, h⟩

def anchorNode (w : Wording) (tally : Tally) (n : Node) (a : Anchor) (text : String) : Node :=
  markupNode n (Markup.anchor (a.id? w tally) a.action a.target text)

theorem expandOver_stays (h : n.kind = "link" → anchorOf? path n = .ok none) :
    expandOver w path tally n row = (tally, .ok [.node n row]) := by
  unfold expandOver
  by_cases hkind : n.kind = "link"
  · rw [if_pos (by simpa using hkind), expandLink, h hkind]
  · rw [if_neg (by simpa using hkind)]

theorem expandOver_anchor {a : Anchor} {text : String} (hkind : n.kind = "link")
    (ha : anchorOf? path n = .ok (some a)) (htext : inlineText row = .ok text) :
    expandOver w path tally n row =
      (tally.link a, .ok [.node (anchorNode w tally n a text) []]) := by
  unfold expandOver
  rw [if_pos (by simpa using hkind), expandLink, ha]
  dsimp only [anchored]
  rw [htext]
  rfl

/-- A container stays, or it is a link and gives way to an anchor. -/
theorem expandOver_eq_ok (h : expandOver w path tally n row = (tally', .ok out)) :
    ((n.kind = "link" → anchorOf? path n = .ok none) ∧ tally' = tally ∧ out = [.node n row]) ∨
      ∃ a text, n.kind = "link" ∧ anchorOf? path n = .ok (some a) ∧ inlineText row = .ok text ∧
        tally' = tally.link a ∧ out = [.node (anchorNode w tally n a text) []] := by
  have hstays (hlink : n.kind = "link" → anchorOf? path n = .ok none) :
      tally' = tally ∧ out = [.node n row] := by
    rw [expandOver_stays hlink] at h
    obtain ⟨htally, hout⟩ := Prod.mk.inj h
    exact ⟨htally.symm, (Except.ok.inj hout).symm⟩
  by_cases hkind : n.kind = "link"
  · cases hanchor : anchorOf? path n with
    | error e =>
      rw [expandOver, if_pos (by simpa using hkind), expandLink, hanchor] at h
      cases h
    | ok anchor =>
      cases anchor with
      | none => exact Or.inl ⟨fun _ => rfl, hstays fun _ => hanchor⟩
      | some a =>
        cases htext : inlineText row with
        | error f =>
          rw [expandOver, if_pos (by simpa using hkind), expandLink, hanchor] at h
          dsimp only [anchored] at h
          rw [htext] at h
          cases h
        | ok text =>
          rw [expandOver_anchor hkind hanchor htext] at h
          obtain ⟨htally, hout⟩ := Prod.mk.inj h
          exact Or.inr ⟨a, text, hkind, rfl, rfl, htally.symm, (Except.ok.inj hout).symm⟩
  · exact Or.inl ⟨fun hlink => absurd hlink hkind, hstays fun hlink => absurd hlink hkind⟩

inductive Expands (w : Wording) (path : String) (place : Place) (tally : Tally) (n : Node)
    (row : List (Tree Node)) : Tally → List (Tree Node) → Prop where
  | image {out : List (Tree Node)} (hkind : n.kind = "image")
      (himage : expandImage path n row = .ok out) : Expands w path place tally n row tally out
  | scanned {out : List (Tree Node)} (hc : n.container = false) (hs : isScanned n.kind = true)
      (hsegments : segments path place n = .ok out) : Expands w path place tally n row tally out
  | plain (hkind : n.kind ≠ "image") (hc : n.container = false) (hs : isScanned n.kind = false) :
      Expands w path place tally n row tally [.node n row]
  | opening {text : Node} {d : Directive}
      (hdecl : declaration? place.parentKind (.node n row) = some (text, d))
      (hproblem : declarationProblem? place tally d = none) :
      Expands w path place tally n row (tally.declare d.identifier)
        [.node (sectionNode w tally n d) []]
  | stays {tally' : Tally} {inner : List (Tree Node)} (hkind : n.kind ≠ "image")
      (hc : n.container = true) (hdecl : declaration? place.parentKind (.node n row) = none)
      (hlink : n.kind = "link" → anchorOf? path n = .ok none)
      (hbelow : expandAll w path { parentKind := n.kind } tally row = (tally', .ok inner)) :
      Expands w path place tally n row tally' [.node n inner]
  | anchor {tally' : Tally} {inner : List (Tree Node)} {a : Anchor} {text : String}
      (hkind : n.kind = "link") (hc : n.container = true)
      (hdecl : declaration? place.parentKind (.node n row) = none)
      (hanchor : anchorOf? path n = .ok (some a))
      (hbelow : expandAll w path { parentKind := n.kind } tally row = (tally', .ok inner))
      (htext : inlineText inner = .ok text) :
      Expands w path place tally n row (tally'.link a) [.node (anchorNode w tally' n a text) []]

theorem expand_eq_ok (h : expand w path place tally (.node n row) = (tally', .ok out)) :
    Expands w path place tally n row tally' out := by
  cases shape place.parentKind n row with
  | image hkind =>
    rw [expand_image hkind] at h
    obtain ⟨rfl, himage⟩ := Prod.mk.inj h
    exact .image hkind himage
  | scanned hc hs =>
    rw [expand_scanned hc hs] at h
    obtain ⟨rfl, hsegments⟩ := Prod.mk.inj h
    exact .scanned hc hs hsegments
  | plain hkind hc hs =>
    rw [expand_plain hkind hc hs] at h
    cases h
    exact .plain hkind hc hs
  | opening text d hdecl =>
    rw [expand_section hdecl] at h
    obtain ⟨hproblem, rfl, rfl⟩ := expandSection_eq_ok h
    exact .opening hdecl hproblem
  | container hkind hc hdecl =>
    rw [expand_container hkind hc hdecl] at h
    obtain ⟨tally₁, inner, hbelow, hover⟩ := andThen_eq_ok h
    rcases expandOver_eq_ok hover with ⟨hlink, rfl, rfl⟩ | ⟨a, text, hlink, ha, htext, rfl, rfl⟩
    · exact .stays hkind hc hdecl hlink hbelow
    · exact .anchor hlink hc hdecl ha hbelow htext

/-- No tree goes without a trace. -/
theorem expand_ne_nil {x : Tree Node} (h : expand w path place tally x = (tally', .ok out)) :
    out ≠ [] := by
  obtain ⟨n, row⟩ := x
  cases expand_eq_ok h with
  | image _ himage =>
    obtain ⟨markup, rfl⟩ := expandImage_eq_ok himage
    simp
  | scanned _ _ hsegments => exact segments_ne_nil hsegments
  | plain => simp
  | opening => simp
  | stays => simp
  | anchor => simp

theorem expandAll_ne_nil (hne : row ≠ [])
    (h : expandAll w path place tally row = (tally', .ok out)) : out ≠ [] := by
  cases row with
  | nil => exact absurd rfl hne
  | cons x rest =>
    rw [expandAll_cons] at h
    obtain ⟨tally₁, out₁, hfirst, h⟩ := andThen_eq_ok h
    obtain ⟨tally₂, out₂, -, h⟩ := andThen_eq_ok h
    obtain rfl := Except.ok.inj (Prod.mk.inj h).2
    simp [expand_ne_nil hfirst]

end Equations

/-- A document in which everything is replaced. -/
def expandDocument (w : Wording) (path : String) (tally : Tally) :
    Tree Node → Tally × Except Failure (Tree Node)
  | .node n row =>
    andThen (expandAll w path { parentKind := n.kind } tally row) fun tally row =>
      (tally, .ok (.node n row))

theorem expandDocument_fst (w : Wording) (path : String) (tally : Tally) (x : Tree Node) :
    (expandDocument w path tally x).1 =
      (expandAll w path { parentKind := x.value.kind } tally x.row).1 := by
  obtain ⟨n, row⟩ := x
  rw [expandDocument, value_node, row_node]
  cases expandAll w path { parentKind := n.kind } tally row with
  | mk tally' result => cases result <;> rfl

theorem expandDocument_eq_ok {w : Wording} {path : String} {tally : Tally} {x y : Tree Node}
    (h : (expandDocument w path tally x).2 = .ok y) :
    ∃ out, expandAll w path { parentKind := x.value.kind } tally x.row =
        ((expandDocument w path tally x).1, .ok out) ∧ y = .node x.value out := by
  obtain ⟨n, row⟩ := x
  rw [expandDocument] at h ⊢
  cases hrow : expandAll w path { parentKind := n.kind } tally row with
  | mk tally' result =>
    rw [hrow] at h
    cases result with
    | error e => cases h
    | ok out =>
      refine ⟨out, hrow, ?_⟩
      cases h
      rfl

end Expansion

end Hyperstory
