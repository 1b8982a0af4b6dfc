import Hyperstory.Proofs.Settled

/-! A text that is written with escapes is read back part by part. -/
namespace Hyperstory

open Hyperstory.Tree Expansion

namespace Segment

/-- The part as it is written in a file. -/
def escaped : Segment → Segment
  | text cs => text (escape cs)
  | reference kind name => reference kind (escape name)

/-- The literal in which parts are written one after the other. -/
def written (segs : List Segment) : String := String.ofList (segs.flatMap fun s => s.escaped.raw)

/-- The parts behind some text: neighbouring texts are one, and empty texts are gone. -/
def join (before : List Char) : List Segment → List Segment
  | [] => ahead before
  | text cs :: segs => join (before ++ cs) segs
  | reference kind name :: segs => ahead before ++ reference kind name :: join [] segs

/-- The parts that are left of a leaf. One without any reference stays, even if it is empty. -/
def normal (segs : List Segment) : List Segment := ofLeaf (join [] segs)

@[simp]
theorem read_escaped (s : Segment) : s.escaped.read = s := by
  cases s with
  | text cs => rw [escaped, read, unescape_escape_text]
  | reference kind name => rw [escaped, read, unescape_escape_text]

theorem map_escaped_ahead (cs : List Char) : (ahead cs).map escaped = ahead (escape cs) := by
  cases cs with
  | nil => rfl
  | cons c cs =>
    have hne : escape (c :: cs) ≠ [] := fun h => List.cons_ne_nil c cs (escape_eq_nil h)
    unfold ahead
    rw [if_neg (by simp), if_neg (by simpa using hne)]
    rfl

/-- A reference whose name is escaped ends at its own brace. -/
theorem span_escaped (kind : ReferenceKind) (name : List Char) :
    Directive.span 0 (escaped (.reference kind name)).raw =
      some (escaped (.reference kind name)).raw.length := by
  obtain ⟨kind, hkind⟩ := kind
  have hsigil : kind.sigil ≠ '\\' ∧ kind.sigil ≠ '{' ∧ kind.sigil ≠ '}' := by
    cases kind with
    | sectionBegin => exact absurd rfl hkind
    | sectionRef => decide
    | functionRef => decide
    | variableRef => decide
  have hname : Directive.span 1 (escape name ++ ['}']) = some ((escape name).length + 1) := by
    rw [Directive.span_quiet 1 (whole_escape name) (not_bare_escape (.inl rfl) name)
      (not_bare_escape (.inr rfl) name)]
    simp [Directive.span, Nat.add_comm]
  show Directive.span 0 ('{' :: kind.sigil :: (escape name ++ ['}'])) =
    some ('{' :: kind.sigil :: (escape name ++ ['}'])).length
  rw [Directive.span, Int.zero_add, Directive.span_plain hsigil.1 hsigil.2.1 hsigil.2.2, hname]
  simp

/-- A written text is made of the parts that were written. -/
theorem cut_written (before : List Char) (segs : List Segment) :
    Cut (escape before ++ segs.flatMap fun s => s.escaped.raw)
      ((join before segs).map escaped) := by
  induction segs generalizing before with
  | nil =>
    rw [join, map_escaped_ahead, List.flatMap_nil, List.append_nil]
    by_cases hbefore : before = []
    · subst hbefore
      exact .nil
    · have hne : escape before ≠ [] := mt escape_eq_nil hbefore
      rw [ahead, if_neg (by simpa using hne)]
      exact .text hne (not_bare_escape (.inl rfl) before)
  | cons s segs ih =>
    rw [List.flatMap_cons, ← List.append_assoc]
    cases s with
    | text cs =>
      rw [join, show (escaped (.text cs)).raw = escape cs from rfl, ← escape_append]
      exact ih (before ++ cs)
    | reference kind name =>
      rw [join, List.map_append, map_escaped_ahead, List.map_cons]
      exact .reference (whole_escape before) (not_bare_escape (.inl rfl) before)
        (span_escaped kind name) (ih [])

end Segment

/-- A leaf that reads as parts does not declare a section. -/
theorem declares?_of_segments {path : String} {place : Place} {n : Node} {out : List (Tree Node)}
    (h : segments path place n = .ok out) : declares? n = none := by
  cases hdecl : declares? n with
  | none => rfl
  | some d =>
    obtain ⟨hfind, hscan, -, hbegin, -⟩ := declares?_eq_some hdecl
    rw [segments_eq, hfind] at h
    dsimp only at h
    rw [hscan] at h
    dsimp only at h
    rw [if_pos hbegin] at h
    cases h

/-- A written leaf is cut into its parts, and without its escapes it shows what was meant. -/
theorem segments_written (path : String) {n : Node} {segs : List Segment}
    (hkind : n.kind = "text") (hc : n.container = false)
    (hliteral : n.literal = some (Segment.written segs)) :
    ∃ out, (∀ place, segments path place n = .ok out) ∧
      List.Forall₂ (Segment.Shown n) (Segment.normal segs) (mapAll unescaped out) := by
  have hs : isScanned n.kind = true := by
    rw [hkind]
    decide
  have hcs : n.characters = segs.flatMap fun s => s.escaped.raw := by
    rw [Node.characters, hliteral, Segment.written]
    simp
  obtain ⟨out, hout, hshown⟩ : ∃ out, (∀ place, segments path place n = .ok out) ∧
      List.Forall₂ (fun s => s.named.Shown n)
        (Segment.ofLeaf ((Segment.join [] segs).map Segment.escaped)) out :=
    segments_of_cut (Segment.cut_written [] segs) hcs hc
  refine ⟨out, hout, ?_⟩
  have hread := forall₂_unescaped hs hshown
  rw [Segment.map_ofLeaf_read, List.map_map,
    show Segment.read ∘ Segment.escaped = id from funext Segment.read_escaped, List.map_id] at hread
  exact hread

/-- A container through which what stands in it reaches the page: it is no image and no link that
the engine follows. -/
structure Node.Transparent (n : Node) : Prop where
  container : n.container = true
  wordless : isScanned n.kind = true → n.literal = none
  image : n.kind ≠ "image"
  link : n.kind = "link" → ∀ destination, AttrValue.destination n.destination = .ok destination →
    (Url.decodeDestination destination).toList.head? ≠ some '{'

theorem Node.Transparent.anchorOf? {n : Node} (h : n.Transparent) (hkind : n.kind = "link")
    (path : String) :
    Expansion.anchorOf? path n = .ok none ∨ ∃ e, Expansion.anchorOf? path n = .error e := by
  have hlink := h.link hkind
  unfold Expansion.anchorOf?
  cases hdestination : AttrValue.destination n.destination with
  | error f => exact Or.inr ⟨_, rfl⟩
  | ok destination =>
    dsimp only
    rw [if_pos (by simpa using hlink destination hdestination)]
    exact Or.inl rfl

/-- Such a container stays, whatever stands in it, or its destination cannot be read. -/
theorem Node.Transparent.expandOver {n : Node} (h : n.Transparent) (path : String) :
    (∀ w tally row, Expansion.expandOver w path tally n row = (tally, .ok [.node n row])) ∨
      ∃ e, ∀ w tally row, Expansion.expandOver w path tally n row = (tally, .error e) := by
  unfold Expansion.expandOver
  by_cases hkind : n.kind = "link"
  · have hkind' : (n.kind == "link") = true := beq_iff_eq.mpr hkind
    unfold expandLink
    rcases h.anchorOf? hkind path with hanchor | ⟨e, hanchor⟩
    · refine Or.inl fun w tally row => ?_
      rw [if_pos hkind', hanchor]
    · refine Or.inr ⟨e, fun w tally row => ?_⟩
      rw [if_pos hkind', hanchor]
  · refine Or.inl fun w tally row => ?_
    rw [if_neg (mt beq_iff_eq.mp hkind)]

/-- A document around one place in it. -/
inductive Around where
  | here (after : List (Tree Node))
  | later (first : Tree Node) (inner : Around)
  | under (n : Node) (inner : Around) (after : List (Tree Node))

namespace Around

/-- The document with a row at the place. -/
def fill (row : List (Tree Node)) : Around → List (Tree Node)
  | here after => row ++ after
  | later first inner => first :: inner.fill row
  | under n inner after => .node n (inner.fill row) :: after

/-- The containers above the place. -/
def spine : Around → List Node
  | here _ => []
  | later _ inner => inner.spine
  | under n inner _ => n :: inner.spine

/-- The document with more in front. -/
def behind (front : List (Tree Node)) (c : Around) : Around := front.foldr later c

def map (f : Node → Node) : Around → Around
  | here after => here (mapAll f after)
  | later first inner => later (first.map f) (inner.map f)
  | under n inner after => under (f n) (inner.map f) (mapAll f after)

/-- A step to a place: to the next tree of the row, or to the row below the first. -/
inductive Step where
  | next
  | down

/-- What is found after some steps, and the document around it. -/
def at? : List Step → List (Tree Node) → Option (Around × Tree Node)
  | _, [] => none
  | [], x :: rest => some (here rest, x)
  | .next :: steps, x :: rest => (at? steps rest).map fun found => (later x found.1, found.2)
  | .down :: steps, .node n cs :: rest =>
    (at? steps cs).map fun found => (under n found.1 rest, found.2)

theorem fill_of_at? {steps : List Step} {row : List (Tree Node)} {c : Around} {x : Tree Node}
    (h : at? steps row = some (c, x)) : row = c.fill [x] := by
  induction steps generalizing row c with
  | nil =>
    cases row with
    | nil => cases h
    | cons y rest =>
      cases h
      rfl
  | cons step steps ih =>
    cases row with
    | nil => cases step <;> cases h
    | cons y rest =>
      obtain ⟨n, cs⟩ := y
      cases step with
      | next =>
        obtain ⟨found, hfound, hpair⟩ := Option.map_eq_some_iff.mp h
        cases hpair
        exact congrArg _ (ih hfound)
      | down =>
        obtain ⟨found, hfound, hpair⟩ := Option.map_eq_some_iff.mp h
        cases hpair
        rw [fill, ← ih hfound]

theorem fill_behind (row front : List (Tree Node)) (c : Around) :
    (c.behind front).fill row = front ++ c.fill row := by
  induction front with
  | nil => rfl
  | cons x front ih => exact congrArg (x :: ·) ih

theorem spine_behind (front : List (Tree Node)) (c : Around) :
    (c.behind front).spine = c.spine := by
  induction front with
  | nil => rfl
  | cons x front ih => exact ih

theorem mapAll_fill (f : Node → Node) (row : List (Tree Node)) (c : Around) :
    mapAll f (c.fill row) = (c.map f).fill (mapAll f row) := by
  induction c with
  | here after => rw [fill, mapAll_append, map, fill]
  | later first inner ih => rw [fill, mapAll_cons, ih, map, fill]
  | under n inner after ih => rw [fill, mapAll_cons, map_node, ih, map, fill]

theorem spine_map (f : Node → Node) (c : Around) : (c.map f).spine = c.spine.map f := by
  induction c with
  | here after => rfl
  | later first inner ih => exact ih
  | under n inner after ih => exact congrArg (f n :: ·) ih

theorem fill_ne_nil {row : List (Tree Node)} (hrow : row ≠ []) (c : Around) :
    c.fill row ≠ [] := by
  cases c with
  | here after => simp [fill, hrow]
  | later => simp [fill]
  | under => simp [fill]

/-- What stands below is no declaration because of the place. -/
theorem declaration?_fill {n : Node} (hdecl : declares? n = none) {c : Around}
    (hclear : ∀ m ∈ c.spine, m.Transparent) (parentKind : String) (m : Node) :
    declaration? parentKind (.node m (c.fill [.node n []])) = none := by
  have hlone (text : Node) (row : List (Tree Node)) (htext : declares? text = none) :
      declaration? parentKind (.node m [.node text row]) = none := by
    unfold declaration?
    dsimp only
    rw [htext]
    exact ite_self none
  cases hrow : c.fill [.node n []] with
  | nil => exact absurd hrow (fill_ne_nil (by simp) c)
  | cons x rest =>
    cases rest with
    | cons y rest => simp [declaration?]
    | nil =>
      cases c with
      | here after =>
        obtain ⟨rfl, -⟩ := List.cons.inj hrow
        exact hlone n [] hdecl
      | later first inner => exact absurd (List.cons.inj hrow).2 (fill_ne_nil (by simp) inner)
      | under k inner after =>
        obtain ⟨rfl, -⟩ := List.cons.inj hrow
        refine hlone k _ ?_
        cases hk : declares? k with
        | none => rfl
        | some d =>
          -- a container has no words in which it could declare one
          obtain ⟨hfind, -, hkind, -⟩ := declares?_eq_some hk
          have hwordless := (hclear k (by simp [spine])).wordless (by rw [hkind]; decide)
          rw [Node.characters, hwordless] at hfind
          cases hfind

/-- What happens around a leaf that is cut into parts does not depend on it: the recursion fails
for another reason, or it puts the parts in the place of the leaf. -/
theorem expandAll_fill (w : Wording) (path : String) {c : Around}
    (hclear : ∀ m ∈ c.spine, m.Transparent) (place : Place) (tally : Tally) :
    ∃ (tally' : Tally) (around : Except Failure Around),
      (∀ c', around = .ok c' → c'.spine = c.spine) ∧
      ∀ (n : Node) (row : List (Tree Node)), n.container = false → isScanned n.kind = true →
        (∀ place, segments path place n = .ok row) →
        expandAll w path place tally (c.fill [.node n []]) =
          (tally', around.map fun c' => c'.fill row) := by
  induction c generalizing place tally with
  | here after =>
    cases hafter : expandAll w path { place with before := true } tally after with
    | mk tally' result =>
      refine ⟨tally', result.map here, fun c' hc' => ?_, fun n row hc hs hrow => ?_⟩
      · obtain ⟨after', -, rfl⟩ : ∃ after', result = .ok after' ∧ here after' = c' := by
          cases result with
          | error e => cases hc'
          | ok after' => exact ⟨after', rfl, Except.ok.inj hc'⟩
        rfl
      · rw [fill, List.singleton_append, expandAll_cons, expand_scanned hc hs, hrow, andThen_ok,
          hafter]
        cases result <;> rfl
  | later first inner ih =>
    obtain ⟨tally₁, result, hfirst⟩ :
        ∃ tally₁ result, expand w path { place with after := true } tally first =
          (tally₁, result) := ⟨_, _, rfl⟩
    cases result with
    | error e =>
      refine ⟨tally₁, .error e, fun c' hc' => (by cases hc'), fun n row hc hs hrow => ?_⟩
      have hmore : (inner.fill [.node n []]).isEmpty = false := by
        simpa using fill_ne_nil (by simp) inner
      rw [fill, expandAll_cons, hmore, Bool.not_false, hfirst]
      rfl
    | ok front =>
      obtain ⟨tally', around, hspine, hall⟩ := ih hclear { place with before := true } tally₁
      refine ⟨tally', around.map (behind front), fun c' hc' => ?_, fun n row hc hs hrow => ?_⟩
      · cases around with
        | error e => cases hc'
        | ok c₁ =>
          obtain rfl := Except.ok.inj hc'
          rw [spine_behind, hspine c₁ rfl, spine]
      · have hmore : (inner.fill [.node n []]).isEmpty = false := by
          simpa using fill_ne_nil (by simp) inner
        rw [fill, expandAll_cons, hmore, Bool.not_false, hfirst, andThen_ok, hall n row hc hs hrow]
        cases around with
        | error e => rfl
        | ok c₁ => exact congrArg (fun out => (tally', Except.ok out)) (fill_behind row front c₁).symm
  | under m inner after ih =>
    obtain ⟨hm, hinner⟩ : m.Transparent ∧ ∀ k ∈ inner.spine, k.Transparent :=
      List.forall_mem_cons.mp hclear
    obtain ⟨tally₁, inside, hspine, hall⟩ := ih hinner { parentKind := m.kind } tally
    have hexpand (n : Node) (row : List (Tree Node)) (hc : n.container = false)
        (hs : isScanned n.kind = true) (hrow : ∀ place, segments path place n = .ok row)
        (place : Place) :
        expand w path place tally (.node m (inner.fill [.node n []])) =
          andThen (tally₁, inside.map fun c' => c'.fill row) fun tally row =>
            expandOver w path tally m row := by
      have hdecl := declaration?_fill (declares?_of_segments (hrow place)) hinner place.parentKind m
      rw [expand_container hm.image hm.container hdecl, hall n row hc hs hrow]
    cases inside with
    | error e =>
      refine ⟨tally₁, .error e, fun c' hc' => (by cases hc'), fun n row hc hs hrow => ?_⟩
      rw [fill, expandAll_cons, hexpand n row hc hs hrow]
      rfl
    | ok c₁ =>
      rcases hm.expandOver path with hstays | ⟨e, hfails⟩
      · obtain ⟨tally₂, result, hafter⟩ :
            ∃ tally₂ result, expandAll w path { place with before := true } tally₁ after =
              (tally₂, result) := ⟨_, _, rfl⟩
        refine ⟨tally₂, result.map (under m c₁), fun c' hc' => ?_, fun n row hc hs hrow => ?_⟩
        · cases result with
          | error e => cases hc'
          | ok after' =>
            obtain rfl := Except.ok.inj hc'
            rw [spine, spine, hspine c₁ rfl]
        · rw [fill, expandAll_cons, hexpand n row hc hs hrow]
          show andThen (expandOver w path tally₁ m (c₁.fill row)) _ = _
          rw [hstays, andThen_ok, hafter]
          cases result <;> rfl
      · refine ⟨tally₁, .error e, fun c' hc' => (by cases hc'), fun n row hc hs hrow => ?_⟩
        rw [fill, expandAll_cons, hexpand n row hc hs hrow]
        show andThen (expandOver w path tally₁ m (c₁.fill row)) _ = _
        rw [hfails]
        rfl

/-- The walk over a document and the removal of its escapes, around a leaf that is cut into
parts. -/
theorem all_fill (path : String) (tally : Tally) {c : Around} (hclear : ∀ m ∈ c.spine, m.Transparent) :
    ∃ (tally' : Tally) (around : Except Failure Around),
      (∀ c', around = .ok c' → c'.spine = c.spine) ∧
      ∀ (n : Node) (row : List (Tree Node)) (tokens : List Token) (t : Forest),
        n.container = false → isScanned n.kind = true →
        (∀ place, segments path place n = .ok row) → Compiler.Joins tokens t →
        (t.tree 0).row = c.fill [.node n []] →
        ∃ final, Expansion.all path tally t 0 = (tally', final) ∧
          (∀ e, around = .error e → final = .error e) ∧
          ∀ c', around = .ok c' → ∃ t', final = .ok t' ∧
            ((t'.stripEscapes 0).tree 0).row = c'.fill (mapAll unescaped row) := by
  obtain ⟨tally', around, hspine, hall⟩ :=
    expandAll_fill .standard path hclear { parentKind := "document" } tally
  cases around with
  | error e =>
    refine ⟨tally', .error e, fun c' hc' => (by cases hc'), fun n row tokens t hc hs hrow hjoins
      htop => ?_⟩
    obtain ⟨final, hfinal, herror, -⟩ := hjoins.all_eq path tally
    rw [htop, hall n row hc hs hrow] at hfinal herror
    refine ⟨final, hfinal, fun e' he => ?_, fun c' hc' => (by cases hc')⟩
    obtain rfl := Except.error.inj he
    exact herror e rfl
  | ok c₁ =>
    have hself : (c₁.map unescaped).spine = c.spine := by
      rw [spine_map, hspine c₁ rfl]
      refine (List.map_congr_left fun m hm => ?_).trans (List.map_id _)
      exact Forest.unescaped_eq_self (hclear m hm).wordless
    refine ⟨tally', .ok (c₁.map unescaped), fun c' hc' => ?_, fun n row tokens t hc hs hrow hjoins
      htop => ?_⟩
    · obtain rfl := Except.ok.inj hc'
      exact hself
    · obtain ⟨final, hfinal, -, hok⟩ := hjoins.all_eq path tally
      rw [htop, hall n row hc hs hrow] at hfinal hok
      refine ⟨final, hfinal, fun e he => (by cases he), fun c' hc' => ?_⟩
      obtain rfl := Except.ok.inj hc'
      obtain ⟨t', kids', rfl, hd', htree⟩ := hok _ rfl
      obtain ⟨-, hstrip⟩ := Forest.stripEscapes_tree hd'
      refine ⟨t', rfl, ?_⟩
      rw [hstrip, htree, row_node, row_node, mapAll_fill]

end Around

/-- A pass that removes the escapes above a rewritten row. -/
theorem Forest.Rewrites.stripEscapes {t t' : Forest} {kids kids' : NodeId → List NodeId}
    {p : NodeId} {l old r : List NodeId} {out : List (Tree Node)} {new : List (Tree NodeId)}
    (h : Forest.Rewrites t kids p l old r out t' kids' new) {a : Nat} {cs : List (Tree NodeId)}
    (ha : a < t'.size) (hc : (t'.label a).container = true) (htop : kids' a = cs.map value)
    (hcs : Follows kids' cs) (hnew : ∀ j ∈ valuesAll new, j ∈ valuesAll cs) :
    mapAll (t'.stripEscapes a).label new = mapAll unescaped out := by
  have hstrip := Forest.stripEscapes_stripped h.document ha hc htop hcs
  rw [← h.reads, mapAll_mapAll]
  refine mapAll_congr fun j hj => ?_
  rw [hstrip.label, if_pos (List.mem_cons_of_mem a (hnew j hj))]

/-- Writing parts as a text and reading the text gives the parts back. In a document, whatever
stands around the text: if nothing else fails, the walk and the removal of escapes leave the parts
where the text stood. At any place that the walk comes to, also in links that the engine follows:
it goes on behind the parts, and whichever pass then removes the escapes leaves them as they were
meant. -/
theorem written_read_back (path : String) (tally : Tally) :
    (∀ c : Around, (∀ m ∈ c.spine, m.Transparent) →
      ∃ (tally' : Tally) (around : Except Failure Around),
        (∀ c', around = .ok c' → c'.spine = c.spine) ∧
        ∀ (segs : List Segment) (n : Node) (tokens : List Token) (t : Forest),
          n.kind = "text" → n.container = false → n.literal = some (Segment.written segs) →
          Compiler.Joins tokens t → (t.tree 0).row = c.fill [.node n []] →
          ∃ final, Expansion.all path tally t 0 = (tally', final) ∧
            (∀ e, around = .error e → final = .error e) ∧
            ∀ c', around = .ok c' → ∃ t' row, final = .ok t' ∧
              ((t'.stripEscapes 0).tree 0).row = c'.fill row ∧
              List.Forall₂ (Segment.Shown n) (Segment.normal segs) row) ∧
    ∀ (segs : List Segment) (t : Forest) (kids : NodeId → List NodeId) (root p i : Nat)
      (l r : List NodeId), t.Document kids → root ≤ p → kids p = l ++ i :: r →
      (t.label i).kind = "text" → (t.label i).container = false →
      (t.label i).literal = some (Segment.written segs) →
      ∃ turns t' kids' out new,
        Leads path tally t (.ahead root p (i :: r)) turns tally t' (.ahead root p r) ∧
        Forest.Rewrites t kids p l [i] r out t' kids' new ∧
        ∀ (a : Nat) (cs : List (Tree NodeId)), a < t'.size → (t'.label a).container = true →
          kids' a = cs.map value → Follows kids' cs → (∀ j ∈ valuesAll new, j ∈ valuesAll cs) →
          List.Forall₂ (Segment.Shown (t.label i)) (Segment.normal segs)
            (mapAll (t'.stripEscapes a).label new) := by
  have hscanned {n : Node} (h : n.kind = "text") : isScanned n.kind = true := by
    rw [h]
    decide
  constructor
  · intro c hclear
    obtain ⟨tally', around, hspine, hall⟩ := Around.all_fill path tally hclear
    refine ⟨tally', around, hspine, fun segs n tokens t hkind hc hliteral hjoins htop => ?_⟩
    obtain ⟨out, hout, hshown⟩ := segments_written path hkind hc hliteral
    obtain ⟨final, hfinal, herror, hok⟩ := hall n out tokens t hc (hscanned hkind) hout hjoins htop
    refine ⟨final, hfinal, herror, fun c' hc' => ?_⟩
    obtain ⟨t', ht', hrow⟩ := hok c' hc'
    exact ⟨t', mapAll unescaped out, ht', hrow, hshown⟩
  · intro segs t kids root p i l r hd hroot hk hkind hc hliteral
    obtain ⟨out, hout, hshown⟩ := segments_written path hkind hc hliteral
    have hperforms : Performs path t kids p l [i] r tally (.ahead root p (i :: r))
        (.ahead root p r) (2 * (t.label i).characters.length + 1)
        (tally, segments path ⟨"", !l.isEmpty, !r.isEmpty⟩ (t.label i)) :=
      segments_performs path tally rfl hd hk hroot hc (hscanned hkind) rfl rfl
        fun _ _ _ => declares?_of_segments (hout ⟨"", false, false⟩)
    rw [hout] at hperforms
    obtain ⟨t', kids', new, hrewrites, hleads⟩ := hperforms
    refine ⟨_, t', kids', out, new, hleads, hrewrites, fun a cs ha hca htop hcs hnew => ?_⟩
    rw [hrewrites.stripEscapes ha hca htop hcs hnew]
    exact hshown

/-- Texts with backslashes and braces, next to references with such names. -/
def writtenParts : List Segment :=
  [.text ['\\'], .text ['{', '\\'], .reference ⟨.variableRef, by decide⟩ ['}', '\\'],
    .reference ⟨.sectionRef, by decide⟩ [], .text [], .reference ⟨.functionRef, by decide⟩ ['{'],
    .text ['a', '}']]

/-- A section in which the parts are written below emphasis. -/
def writtenStory : List Token :=
  paragraphTokens (textTokens "\x7b\x7bA\x7d\x7d") ++
    paragraphTokens ({ kind := "em_open", tag := "em", nesting := .opens } ::
      textTokens (Segment.written writtenParts) ++
      [{ kind := "em_close", tag := "em", nesting := .closes }, { kind := "softbreak", tag := "br" }])

theorem written_read_back_writtenStory :
    ∃ t n c c' t' tally' row, Compiler.Joins writtenStory t ∧
      (t.tree 0).row = Around.fill [.node n []] c ∧
      n.literal = some (Segment.written writtenParts) ∧
      Expansion.all "s.md" ({} : Compiler).tally t 0 = (tally', .ok t') ∧
      ((t'.stripEscapes 0).tree 0).row = Around.fill row c' ∧
      List.Forall₂ (Segment.Shown n)
        [.text ['\\', '{', '\\'], .reference ⟨.variableRef, by decide⟩ ['}', '\\'],
          .reference ⟨.sectionRef, by decide⟩ [], .reference ⟨.functionRef, by decide⟩ ['{'],
          .text ['a', '}']] row := by
  have heval : ((Compiler.joined? writtenStory).any fun t =>
      (Expansion.all "s.md" ({} : Compiler).tally t 0).2.isOk &&
      (Around.at? [.next, .down, .down] (t.tree 0).row).any fun found =>
        found.1.spine.all (fun m => m.container && ["paragraph", "em"].contains m.kind) &&
          found.2.row.isEmpty && found.2.value.kind == "text" && !found.2.value.container &&
          found.2.value.literal == some (Segment.written writtenParts)) = true := by
    decide +kernel
  obtain ⟨t, hjoined, heval⟩ := (Option.any_eq_true _ _).mp heval
  rw [Bool.and_eq_true] at heval
  obtain ⟨hok, heval⟩ := heval
  obtain ⟨⟨c, n, below⟩, hfound, heval⟩ := (Option.any_eq_true _ _).mp heval
  have hjoins := Compiler.joins_iff.mpr hjoined
  have hrow := Around.fill_of_at? hfound
  simp only [Bool.and_eq_true, beq_iff_eq, Bool.not_eq_true', List.isEmpty_iff, List.all_eq_true,
    value_node, row_node] at heval
  obtain ⟨⟨⟨⟨hspine, rfl⟩, hkind⟩, hc⟩, hliteral⟩ := heval
  have hclear : ∀ m ∈ c.spine, m.Transparent := by
    intro m hm
    obtain ⟨hmc, hmk⟩ := hspine m hm
    have hmk : m.kind = "paragraph" ∨ m.kind = "em" := by simpa using hmk
    rcases hmk with h | h
    · exact ⟨hmc, by simp [h, isScanned], by simp [h], by simp [h]⟩
    · exact ⟨hmc, by simp [h, isScanned], by simp [h], by simp [h]⟩
  obtain ⟨tally', around, -, hread⟩ := (written_read_back "s.md" ({} : Compiler).tally).1 c hclear
  obtain ⟨final, hall, herror, hrest⟩ :=
    hread writtenParts n writtenStory t hkind hc hliteral hjoins hrow
  cases around with
  | error e =>
    rw [hall, herror e rfl] at hok
    cases hok
  | ok c' =>
    obtain ⟨t', row, rfl, hrow', hshown⟩ := hrest c' rfl
    exact ⟨t, n, c, c', t', tally', row, hjoins, hrow, hliteral, hall, hrow', hshown⟩

end Hyperstory
