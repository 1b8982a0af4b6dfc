import Hyperstory.Proofs.Replacing
import Mathlib.Algebra.BigOperators.Group.List.Basic
import Mathlib.Algebra.BigOperators.Ring.List
import Mathlib.Algebra.Order.BigOperators.Group.List
import Mathlib.Algebra.Order.Ring.Nat

/-!
The loop that replaces directives in place does what the recursion over the tree says. It is
followed turn by turn along the rows of the tree, and it ends.
-/
namespace Hyperstory.Expansion

open Hyperstory.Tree Forest

/-- The loop, started at a cursor, ends with a result after at most so many turns. Nothing else
bounds the turns. -/
inductive Runs (path : String) :
    Tally → Forest → Cursor → Nat → Tally × Except Failure Forest → Prop where
  | done {tally : Tally} {t : Forest} {c : Cursor} {n : Nat} (h : c.next? t = none) :
      Runs path tally t c n (tally, .ok t)
  | fail {tally tally' : Tally} {t : Forest} {c c' : Cursor} {v : Visit} {e : Failure} {n : Nat}
      (h : c.next? t = some (v, c')) (hv : visit path tally t c' v = (tally', .error e)) :
      Runs path tally t c (n + 1) (tally', .error e)
  | turn {tally tally' : Tally} {t t' : Forest} {c c' c'' : Cursor} {v : Visit} {n : Nat}
      {result : Tally × Except Failure Forest} (h : c.next? t = some (v, c'))
      (hv : visit path tally t c' v = (tally', .ok (t', c'')))
      (hrest : Runs path tally' t' c'' n result) : Runs path tally t c (n + 1) result

variable {path : String} {tally tally' tally'' : Tally} {t t' t'' : Forest} {c c' c'' : Cursor}

theorem Runs.mono {n m : Nat} {result : Tally × Except Failure Forest}
    (h : Runs path tally t c n result) (hnm : n ≤ m) : Runs path tally t c m result := by
  induction h generalizing m with
  | done h => exact .done h
  | fail h hv =>
    obtain ⟨m, rfl⟩ := Nat.exists_eq_add_of_le' (Nat.one_le_of_lt hnm)
    exact .fail h hv
  | turn h hv _ ih =>
    obtain ⟨m, rfl⟩ := Nat.exists_eq_add_of_le' (Nat.one_le_of_lt hnm)
    exact .turn h hv (ih (by omega))

/-- As many turns as a run takes are enough for the walk that counts them. -/
theorem walk_of_runs {n : Nat} {result : Tally × Except Failure Forest}
    (h : Runs path tally t c n result) : walk path n tally t c = result := by
  induction h with
  | @done _ _ _ n h =>
    cases n with
    | zero => rfl
    | succ n => rw [walk, h]
  | fail h hv =>
    rw [walk, h]
    dsimp only
    rw [hv]
  | turn h hv _ ih =>
    rw [walk, h]
    dsimp only
    rw [hv]
    exact ih

/-- In at most `n` turns the loop comes from one position to another. -/
def Leads (path : String) (tally : Tally) (t : Forest) (c : Cursor) (n : Nat) (tally' : Tally)
    (t' : Forest) (c' : Cursor) : Prop :=
  ∀ (m : Nat) (result : Tally × Except Failure Forest),
    Runs path tally' t' c' m result → Runs path tally t c (n + m) result

namespace Leads

variable {n m : Nat}

theorem refl (n : Nat) : Leads path tally t c n tally t c :=
  fun _ _ h => h.mono (Nat.le_add_left _ _)

theorem trans (h : Leads path tally t c n tally' t' c')
    (h' : Leads path tally' t' c' m tally'' t'' c'') :
    Leads path tally t c (n + m) tally'' t'' c'' := by
  intro k result hrun
  rw [Nat.add_assoc]
  exact h (m + k) result (h' k result hrun)

theorem mono (h : Leads path tally t c n tally' t' c') (hnm : n ≤ m) :
    Leads path tally t c m tally' t' c' :=
  fun k result hrun => (h k result hrun).mono (by omega)

theorem step {root i : NodeId} {entering : Bool}
    (hv : visit path tally t (.after t root ⟨i, entering⟩) ⟨i, entering⟩ =
      (tally', .ok (t', c'))) :
    Leads path tally t ⟨root, some i, entering⟩ 1 tally' t' c' := by
  intro m result hrun
  rw [Nat.add_comm]
  exact .turn rfl hv hrun

end Leads

theorem Runs.fail_at {root i : NodeId} {entering : Bool} {e : Failure} (n : Nat)
    (hv : visit path tally t (.after t root ⟨i, entering⟩) ⟨i, entering⟩ = (tally', .error e)) :
    Runs path tally t ⟨root, some i, entering⟩ (n + 1) (tally', .error e) := .fail rfl hv

section Visit

variable {i : NodeId} {entering : Bool}

theorem leaf_eq (path : String) (tally : Tally) (t : Forest) (i : NodeId) :
    leaf path tally t i =
      match Opening.find? ⟨0, 0, 0⟩ (t.label i).characters with
      | none => (tally, .ok (t, none))
      | some o =>
        match Directive.scan (t.label i).characters o.index with
        | .error e => (tally, .error (problemAt path (t.label i) o.lines o.columns e.cause))
        | .ok d =>
          if d.kind = .sectionBegin then
            match sectionProblem? t tally i d with
            | some cause => (tally, .error (problemAt path (t.label i) o.lines o.columns cause))
            | none =>
              ((beginSection t tally i d).1,
                .ok ((beginSection t tally i d).2.1, some (beginSection t tally i d).2.2))
          else (tally, .ok ((splice t i d o).1, some (splice t i d o).2)) := rfl

/-- Most visits change nothing: of containers that are no link, of links that are entered, and of
leaves without directives. -/
theorem visit_quiet (hlink : (t.label i).kind = "link" → entering = true)
    (himage : (t.label i).kind ≠ "image")
    (hscan : isScanned (t.label i).kind = true →
      Opening.find? ⟨0, 0, 0⟩ (t.label i).characters = none) :
    visit path tally t c ⟨i, entering⟩ = (tally, .ok (t, c)) := by
  unfold visit
  rw [show (t.node (Visit.mk i entering).node).kind = (t.label i).kind from rfl]
  dsimp only
  split_ifs with h₁ h₂ h₃ h₄
  · rfl
  · exact absurd (hlink (by simpa using h₁)) h₂
  · exact absurd (by simpa using h₃) himage
  · have hleaf : leaf path tally t i = (tally, .ok (t, none)) := by
      rw [leaf_eq, hscan h₄]
    rw [hleaf]
  · rfl

theorem visit_scanned (hs : isScanned (t.label i).kind = true) :
    visit path tally t c ⟨i, entering⟩ =
      match leaf path tally t i with
      | (tally, .ok (t, some html)) => (tally, .ok (t, c.resumeAt html true))
      | (tally, .ok (t, none)) => (tally, .ok (t, c))
      | (tally, .error e) => (tally, .error e) := by
  obtain ⟨hlink, himage⟩ := ne_of_isScanned hs
  have hlink : ¬ ((t.node i).kind == "link") = true := mt beq_iff_eq.mp hlink
  have himage : ¬ ((t.node i).kind == "image") = true := mt beq_iff_eq.mp himage
  exact (if_neg hlink).trans ((if_neg himage).trans (if_pos hs))

/-- A leaf with a malformed directive is a problem. -/
theorem visit_malformed (hs : isScanned (t.label i).kind = true) {o : Opening}
    {e : Directive.Problem}
    (hfind : Opening.find? ⟨0, 0, 0⟩ (t.label i).characters = some o)
    (hscan : Directive.scan (t.label i).characters o.index = .error e) :
    visit path tally t c ⟨i, entering⟩ =
      (tally, .error (problemAt path (t.label i) o.lines o.columns e.cause)) := by
  rw [visit_scanned hs, leaf_eq, hfind]
  dsimp only
  rw [hscan]

/-- A leaf with a directive begins a section, or it is cut there. The loop resumes at the markup. -/
theorem visit_directive (hs : isScanned (t.label i).kind = true) {o : Opening} {d : Directive}
    (hfind : Opening.find? ⟨0, 0, 0⟩ (t.label i).characters = some o)
    (hscan : Directive.scan (t.label i).characters o.index = .ok d) :
    visit path tally t c ⟨i, entering⟩ =
      if d.kind = .sectionBegin then
        match sectionProblem? t tally i d with
        | some cause => (tally, .error (problemAt path (t.label i) o.lines o.columns cause))
        | none =>
          ((beginSection t tally i d).1,
            .ok ((beginSection t tally i d).2.1, c.resumeAt (beginSection t tally i d).2.2 true))
      else (tally, .ok ((splice t i d o).1, c.resumeAt (splice t i d o).2 true)) := by
  rw [visit_scanned hs, leaf_eq, hfind]
  dsimp only
  rw [hscan]
  dsimp only
  split_ifs
  · cases sectionProblem? t tally i d <;> rfl
  · rfl

theorem visit_image (hkind : (t.label i).kind = "image") :
    visit path tally t c ⟨i, entering⟩ =
      match image path t i with
      | .ok (t, html) => (tally, .ok (t, c.resumeAt html true))
      | .error e => (tally, .error e) := by
  have himage : ((t.node i).kind == "image") = true := beq_iff_eq.mpr hkind
  have hlink : ¬ ((t.node i).kind == "link") = true := by
    rw [show (t.node i).kind = "image" from hkind]
    decide
  exact (if_neg hlink).trans (if_pos himage)

theorem visit_link (hkind : (t.label i).kind = "link") :
    visit path tally t c ⟨i, false⟩ =
      match link path tally t i with
      | (tally, .ok t) => (tally, .ok (t, c))
      | (tally, .error e) => (tally, .error e) := by
  have hlink : ((t.node i).kind == "link") = true := beq_iff_eq.mpr hkind
  exact (if_pos hlink).trans (if_neg Bool.false_ne_true)

end Visit

variable {kids : NodeId → List NodeId} {root p i : Nat} {l r old : List NodeId}

/-- The loop goes from `c` to `c'` and rewrites children of `p` as the result says, or it fails as
the result says, within `cost` turns. -/
def Performs (path : String) (t : Forest) (kids : NodeId → List NodeId) (p : NodeId)
    (l old r : List NodeId) (tally : Tally) (c c' : Cursor) (cost : Nat) :
    Tally × Except Failure (List (Tree Node)) → Prop
  | (tally', .error e) => Runs path tally t c cost (tally', .error e)
  | (tally', .ok out) => ∃ t' kids' new, Rewrites t kids p l old r out t' kids' new ∧
      Leads path tally t c cost tally' t' c'

theorem Performs.mono {cost cost' : Nat} {result : Tally × Except Failure (List (Tree Node))}
    (h : Performs path t kids p l old r tally c c' cost result) (hcost : cost ≤ cost') :
    Performs path t kids p l old r tally c c' cost' result := by
  match result, h with
  | (_, .error _), h => exact Runs.mono h hcost
  | (_, .ok _), ⟨t', kids', new, hrewrites, hleads⟩ =>
    exact ⟨t', kids', new, hrewrites, hleads.mono hcost⟩

/-- What is performed on the nodes that follow the rewritten ones. -/
theorem Performs.append (row : List (Tree NodeId)) {kids' : NodeId → List NodeId}
    {old' : List NodeId} {out : List (Tree Node)} {new : List (Tree NodeId)} {n m : Nat}
    {result : Tally × Except Failure (List (Tree Node))}
    (h : Rewrites t kids p l old (row.map value ++ r) out t' kids' new)
    (hleads : Leads path tally t c n tally' t' c') (hrow : Follows kids' row)
    (h' : Performs path t' kids' p (l ++ new.map value) (valuesAll row) r tally' c' c'' m result)
    (hsub : ∀ j ∈ old, j ∈ old') (hold : ∀ j : Nat, j ∈ valuesAll row → j ∈ old' ∨ t.size ≤ j) :
    Performs path t kids p l old' r tally c c'' (n + m)
      (andThen result fun tally rest => (tally, .ok (out ++ rest))) := by
  match result, h' with
  | (_, .error _), h' => exact hleads m _ h'
  | (_, .ok _), ⟨t'', kids'', new', hrewrites, hleads'⟩ =>
    exact ⟨t'', kids'', _, h.append row hrow hrewrites hsub hold, hleads.trans hleads'⟩

/-- A node is a paragraph of the document. -/
def atTop (t : Forest) (p : NodeId) : Bool :=
  (t.label p).kind == "paragraph" &&
    match (t.links p).parent with
    | some top => (t.label top).kind == "document"
    | none => false

theorem atTop_eq (h : t.Linked kids) (hk : kids p = l ++ i :: r) :
    atTop t i = ((t.label i).kind == "paragraph" && (t.label p).kind == "document") := by
  unfold atTop
  rw [h.parent_eq hk]

/-- Why a section cannot begin, by the siblings of the leaf. -/
theorem sectionProblem?_eq (h : t.Linked kids) (hk : kids p = l ++ i :: r) (d : Directive) :
    sectionProblem? t tally i d =
      if (t.label i).kind != "text" then some (.notInParagraph d.text)
      else if d.start > 0 || !l.isEmpty then some (.notAlone d.text)
      else if !(Text.strip ((t.label i).characters.drop d.stop)).isEmpty || !r.isEmpty then
        some (.notAlone d.text)
      else if !atTop t p then some (.insideBlock d.text)
      else if tally.count = 0 && (t.links p).prev.isSome then some (.contentBefore d.text)
      else if d.identifier.isEmpty then some (.namelessSection d.text)
      else if tally.taken.contains d.identifier || tally.declared.contains d.identifier then
        some (.duplicate d.identifier)
      else none := by
  have hparent : (t.node i).links.parent = some p := h.parent_eq hk
  have hprev : (t.node i).links.prev.isSome = !l.isEmpty := by
    rw [show (t.node i).links.prev = l.getLast? from h.prev_eq hk]
    cases l <;> simp
  have hnext : (t.node i).links.next.isSome = !r.isEmpty := by
    rw [show (t.node i).links.next = r.head? from h.next_eq hk]
    cases r <;> simp
  unfold sectionProblem?
  simp only [hparent, hprev, hnext]
  rfl

/-- Where the recursion finds a section misplaced, the loop does so too. -/
theorem sectionProblem?_misplaced (h : t.Linked kids) (hk : kids p = l ++ i :: r) {d : Directive}
    {o : Opening} {place : Place} (hbefore : place.before = !l.isEmpty)
    (hafter : place.after = !r.isEmpty)
    (hfind : Opening.find? ⟨0, 0, 0⟩ (t.label i).characters = some o)
    (hscan : Directive.scan (t.label i).characters o.index = .ok d) (hd : d.kind = .sectionBegin)
    (hlone : l = [] → r = [] → atTop t p = true → declares? (t.label i) = none) :
    sectionProblem? t tally i d = some (misplaced place (t.label i) d) := by
  rw [sectionProblem?_eq h hk, misplaced, hbefore, hafter]
  split_ifs with hkind hstart hrest htop
  · rfl
  · rfl
  · rfl
  · rfl
  -- Otherwise the leaf would declare a section.
  all_goals
    exfalso
    simp only [Bool.or_eq_true, Bool.not_eq_true', decide_eq_true_eq, not_or, Bool.not_eq_false,
      List.isEmpty_iff, bne_iff_ne, ne_eq, not_not] at hkind hstart hrest htop
    have hdecl := declares?_of_scan hfind hscan
      ⟨hkind, hd, by omega, List.isEmpty_iff.mpr hrest.1⟩
    rw [hlone hstart.2 hrest.2 htop] at hdecl
    cases hdecl

/-- Below a paragraph that declares no section, no leaf stands alone with a declaration. -/
theorem declares?_of_lone (h : t.Linked kids) (hk : kids p = l ++ i :: r)
    (hc : (t.label i).container = true) {parentKind : String}
    (hparent : parentKind = (t.label p).kind) {cs : List (Tree NodeId)}
    (hdecl : declaration? parentKind (.node (t.label i) (mapAll t.label cs)) = none) {j : NodeId}
    (hvalues : cs.map value = [j]) (hat : atTop t i = true) : declares? (t.label j) = none := by
  rw [atTop_eq h hk, Bool.and_eq_true, beq_iff_eq, beq_iff_eq] at hat
  obtain ⟨⟨j', below⟩, rfl, rfl⟩ := List.map_eq_singleton_iff.mp hvalues
  exact declares?_of_declaration? (by simpa using hdecl) hc hat.1 (hparent.trans hat.2)

/-- A container has no directives of its own. -/
theorem silent_of_container (hd : t.Document kids) (hc : (t.label i).container = true)
    (hs : isScanned (t.label i).kind = true) :
    Opening.find? ⟨0, 0, 0⟩ (t.label i).characters = none := by
  rw [Node.characters, hd.literal i hc hs]
  rfl

theorem visit_root (hd : t.Document kids) {entering : Bool} :
    visit path tally t c ⟨0, entering⟩ = (tally, .ok (t, c)) := by
  refine visit_quiet ?_ ?_ (silent_of_container hd hd.rootContainer) <;> rw [hd.rootKind]
  · exact fun h => absurd h (by decide)
  · decide

theorem atTop_root (hd : t.Document kids) : atTop t 0 = false := by
  rw [atTop, hd.rootKind]
  rfl

theorem after_leaf (hd : t.Document kids) (hk : kids p = l ++ i :: r) (hroot : root ≤ p)
    (hc : (t.label i).container = false) :
    Cursor.after t root ⟨i, true⟩ = .ahead root p r := by
  obtain ⟨hpi, -⟩ := hd.linked.later p i (by simp [hk])
  exact Cursor.after_last hd.linked hk (by omega) fun _ => hc

/-- The loop goes on over a leaf without directives. -/
theorem visit_over_leaf (hd : t.Document kids) (hk : kids p = l ++ i :: r) (hroot : root ≤ p)
    (hc : (t.label i).container = false) (himage : (t.label i).kind ≠ "image")
    (hscan : isScanned (t.label i).kind = true →
      Opening.find? ⟨0, 0, 0⟩ (t.label i).characters = none) :
    visit path tally t (.after t root ⟨i, true⟩) ⟨i, true⟩ = (tally, .ok (t, .ahead root p r)) := by
  rw [visit_quiet (fun _ => rfl) himage hscan, after_leaf hd hk hroot hc]

theorem leads_over_leaf (hd : t.Document kids) (hk : kids p = l ++ i :: r) (hroot : root ≤ p)
    (hc : (t.label i).container = false) (himage : (t.label i).kind ≠ "image")
    (hscan : isScanned (t.label i).kind = true →
      Opening.find? ⟨0, 0, 0⟩ (t.label i).characters = none) :
    Leads path tally t (.ahead root p (i :: r)) 1 tally t (.ahead root p r) :=
  Leads.step (visit_over_leaf hd hk hroot hc himage hscan)

/-- Markup is passed over when the loop resumes at it. -/
theorem visit_over_markup (out : List (Tree Node)) (first : List (Tree NodeId))
    {kids' : NodeId → List NodeId} {n : Node} {m : Nat}
    (h : Rewrites t kids p l old r (out ++ [.node n []]) t' kids' (first ++ [.node m []]))
    (hroot : root ≤ p) (hc : n.container = false) (hkind : n.kind = "html_inline") :
    visit path tally t' (.after t' root ⟨m, true⟩) ⟨m, true⟩ =
      (tally, .ok (t', .ahead root p r)) := by
  have hlabel : t'.label m = n := by
    have hreads := h.reads
    rw [mapAll_append] at hreads
    simpa using (List.append_inj' hreads rfl).2
  have hhere : kids' p = l ++ first.map value ++ m :: r := by simp [h.here]
  refine visit_over_leaf h.document hhere hroot (by rw [hlabel, hc]) ?_ ?_ <;> rw [hlabel, hkind]
  · decide
  · exact fun hs => absurd hs (by decide)

theorem leads_over_markup (out : List (Tree Node)) (first : List (Tree NodeId))
    {kids' : NodeId → List NodeId} {n : Node} {m : Nat}
    (h : Rewrites t kids p l old r (out ++ [.node n []]) t' kids' (first ++ [.node m []]))
    (hroot : root ≤ p) (hc : n.container = false) (hkind : n.kind = "html_inline") :
    Leads path tally t' ⟨root, some m, true⟩ 1 tally t' (.ahead root p r) :=
  Leads.step (visit_over_markup out first h hroot hc hkind)

/-- The loop goes on at the markup that a leaf's first directive has given way to. -/
theorem visit_of_leaf (hs : isScanned (t.label i).kind = true) {html : NodeId}
    (hleaf : leaf path tally t i = (tally, .ok (t', some html))) :
    visit path tally t (.after t root ⟨i, true⟩) ⟨i, true⟩ =
      (tally, .ok (t', ⟨root, some html, true⟩)) := by
  rw [visit_scanned hs, hleaf]
  dsimp only
  rw [Cursor.after_resumeAt]

/-- A directive that begins no section gives way to its expansion. What stands after it is a leaf of
its own. -/
theorem leaf_splices (path : String) (tally : Tally) (hd : t.Document kids)
    (hk : kids p = l ++ i :: r) (hc : (t.label i).container = false) {o : Opening} {d : Directive}
    (hfind : Opening.find? ⟨0, 0, 0⟩ (t.label i).characters = some o)
    (hscan : Directive.scan (t.label i).characters o.index = .ok d) (hd' : d.kind ≠ .sectionBegin) :
    ∃ t' kids' first tail,
      leaf path tally t i = (tally, .ok (t', some t.size)) ∧
      Rewrites t kids p l [i] (tail ++ r) (kept (t.label i) d ++ [expanded (t.label i) d]) t' kids'
        (first ++ [.node t.size []]) ∧
      (if ((t.label i).characters.drop d.stop).isEmpty then tail = []
        else tail = [t.size + 1] ∧ t'.label (t.size + 1) = remainder (t.label i) d o) := by
  obtain ⟨t', kids', first, tail, hsplice, hrewrites, htail⟩ := splice_rewrites hd hk hc d o
  refine ⟨t', kids', first, tail, ?_, hrewrites, htail⟩
  rw [leaf_eq, hfind]
  dsimp only
  rw [hscan]
  dsimp only
  rw [if_neg hd', hsplice]

/-- What stands after a directive is a leaf behind the nodes that stand for what came before. -/
theorem remainder_ahead {kids' : NodeId → List NodeId} {out : List (Tree Node)}
    {new : List (Tree NodeId)} {d : Directive} {o : Opening}
    (h : Rewrites t kids p l [i] ((t.size + 1) :: r) out t' kids' new)
    (hlabel : t'.label (t.size + 1) = remainder (t.label i) d o) :
    kids' p = (l ++ new.map value) ++ (t.size + 1) :: r ∧
      Follows kids' [.node (t.size + 1) []] ∧
      (t'.label (t.size + 1)).container = false ∧
      (t'.label (t.size + 1)).characters = (t.label i).characters.drop d.stop := by
  have hc : (t'.label (t.size + 1)).container = false := by
    rw [hlabel]
    rfl
  refine ⟨h.here, .cons (h.document.leaf _ hc) .nil .nil, hc, ?_⟩
  rw [hlabel, characters_remainder]

/-- The loop cuts a leaf at its directives. -/
theorem segments_performs (path : String) (tally : Tally) {n : Nat} {place : Place}
    (hn : (t.label i).characters.length = n)
    (hd : t.Document kids) (hk : kids p = l ++ i :: r) (hroot : root ≤ p)
    (hc : (t.label i).container = false) (hs : isScanned (t.label i).kind = true)
    (hbefore : place.before = !l.isEmpty) (hafter : place.after = !r.isEmpty)
    (hlone : l = [] → r = [] → atTop t p = true → declares? (t.label i) = none) :
    Performs path t kids p l [i] r tally (.ahead root p (i :: r)) (.ahead root p r) (2 * n + 1)
      (tally, segments path place (t.label i)) := by
  -- What stands after a directive is a shorter leaf.
  induction n using Nat.strong_induction_on generalizing t kids l i place with
  | _ n ih =>
    rw [segments_eq]
    cases hfind : Opening.find? ⟨0, 0, 0⟩ (t.label i).characters with
    | none =>
      obtain ⟨-, himage⟩ := ne_of_isScanned hs
      refine ⟨t, kids, _, .same_leaf hd hk hc, ?_⟩
      exact (leads_over_leaf hd hk hroot hc himage fun _ => hfind).mono (by omega)
    | some o =>
      dsimp only
      cases hscan : Directive.scan (t.label i).characters o.index with
      | error e =>
        exact Runs.fail_at (2 * n) (visit_malformed hs hfind hscan)
      | ok d =>
        have hbounds := Directive.scan_bounds hscan
        dsimp only
        split_ifs with hbegin hrest
        · refine Runs.fail_at (2 * n) ?_
          rw [visit_directive hs hfind hscan, if_pos hbegin,
            sectionProblem?_misplaced hd.linked hk hbefore hafter hfind hscan hbegin hlone]
        all_goals
          obtain ⟨t', kids', first, tail, hleaf, hrewrites, htail⟩ :=
            leaf_splices path tally hd hk hc hfind hscan hbegin
          have hleads : Leads path tally t (.ahead root p (i :: r)) 2 tally t'
              (.ahead root p (tail ++ r)) :=
            (Leads.step (visit_of_leaf hs hleaf)).trans
              (leads_over_markup _ first hrewrites hroot rfl rfl)
          generalize first ++ [.node t.size []] = new at hrewrites
        · rw [if_pos hrest] at htail
          subst htail
          exact ⟨t', kids', new, hrewrites, hleads.mono (by omega)⟩
        · rw [if_neg hrest] at htail
          obtain ⟨rfl, hlabel⟩ := htail
          obtain ⟨hk', hrow, hc', hchars⟩ := remainder_ahead hrewrites hlabel
          have hne : l ++ new.map value ≠ [] := by
            have := hrewrites.ne_nil (by simp)
            simp [this]
          have hlen : (t'.label (t.size + 1)).characters.length = n - d.stop := by
            rw [hchars, List.length_drop, hn]
          have hafter' : ({ place with before := true } : Place).after = !r.isEmpty := hafter
          have hrest := ih (n - d.stop) (by omega) hlen hrewrites.document hk' hc'
            (by rw [hlabel]; exact hs) (by simpa using hne) hafter' fun hl => absurd hl hne
          rw [hlabel] at hrest
          have happend := Performs.append [.node (t.size + 1) []] (r := r) hrewrites
            hleads hrow (by simpa using hrest) (fun j hj => hj) (by simp)
          refine Performs.mono ?_ (show 2 + (2 * (n - d.stop) + 1) ≤ 2 * n + 1 by omega)
          cases hseg : segments path { place with before := true } (remainder (t.label i) d o) <;>
            simpa [hseg] using happend

/-- The loop looks for the same problems of a declaration. -/
theorem sectionProblem?_declared (h : t.Linked kids) (hk : kids p = l ++ i :: r) {c : NodeId}
    (hkc : kids i = [c]) {place : Place} {d : Directive} (hbefore : place.before = !l.isEmpty)
    (hkind : (t.label i).kind = "paragraph") (hdoc : (t.label p).kind = "document")
    (hdecl : declares? (t.label c) = some d) :
    sectionProblem? t tally c d = declarationProblem? place tally d := by
  obtain ⟨-, -, htext, -, hstart, hrest⟩ := declares?_eq_some hdecl
  have htop : atTop t i = true := by
    rw [atTop_eq h hk, hkind, hdoc]
    rfl
  have hprev : (t.links i).prev.isSome = !l.isEmpty := by
    rw [h.prev_eq hk]
    cases l <;> simp
  rw [sectionProblem?_eq h (l := []) (r := []) hkc, declarationProblem?, htext, hstart, hrest, htop,
    hprev, hbefore]
  rfl

/-- A paragraph that declares a section gives way to its beginning. -/
theorem section_performs {place : Place} {cs : List (Tree NodeId)} (hd : t.Document kids)
    (hk : kids p = l ++ i :: r) (hroot : root ≤ p) (htop : kids i = cs.map value)
    (hparent : place.parentKind = (t.label p).kind) (hbefore : place.before = !l.isEmpty)
    {text : Node} {d : Directive}
    (h : declaration? place.parentKind (.node (t.label i) (mapAll t.label cs)) = some (text, d)) :
    Performs path t kids p l (i :: valuesAll cs) r tally (.ahead root p (i :: r))
      (.ahead root p r) 3
      (expandSection .standard path place tally (t.label i) text d) := by
  obtain ⟨⟨below, hrow⟩, -, hkind, hdoc, hdecl⟩ := declaration?_eq_some h
  rw [hparent] at hdoc
  obtain ⟨c, rfl, hkc⟩ : ∃ c, t.label c = text ∧ kids i = [c] := by
    match cs, hrow with
    | [.node c _], hrow =>
      simp only [mapAll_cons, map_node, mapAll_nil, List.cons.injEq, Tree.node.injEq] at hrow
      exact ⟨c, hrow.1.1, htop⟩
  obtain ⟨hfind, hscan, htext, hbegin, -⟩ := declares?_eq_some hdecl
  have hlink : (t.links c).parent = some i := hd.linked.parent_eq (l := []) (r := []) hkc
  have henter : Leads path tally t (.ahead root p (i :: r)) 1 tally t ⟨root, some c, true⟩ := by
    have hci : (t.label i).container = true := hd.container_of_mem (i := c) (by simp [hkc])
    refine Leads.step ?_
    rw [visit_quiet (fun _ => rfl) (by rw [hkind]; decide) fun hs => ?_,
      Cursor.after_enter hd.linked hci, hkc]
    · rfl
    · rw [hkind] at hs
      exact absurd hs (by decide)
  have hvisit : visit path tally t (.after t root ⟨c, true⟩) ⟨c, true⟩ =
      match declarationProblem? place tally d with
      | some cause => (tally, .error (problemAt path (t.label c) 0 0 cause))
      | none =>
        ((beginSection t tally c d).1,
          .ok ((beginSection t tally c d).2.1,
            ⟨root, some (beginSection t tally c d).2.2, true⟩)) := by
    rw [visit_directive (by rw [htext]; rfl) hfind hscan, if_pos hbegin,
      sectionProblem?_declared hd.linked hk hkc hbefore hkind hdoc hdecl, Cursor.after_resumeAt]
  unfold expandSection
  cases hproblem : declarationProblem? place tally d with
  | some cause =>
    rw [hproblem] at hvisit
    exact henter 2 _ (Runs.fail_at 1 hvisit)
  | none =>
    obtain ⟨t', kids', heq, hrewrites⟩ := beginSection_rewrites hd hk tally hlink d
    rw [hproblem, heq] at hvisit
    have hover : Leads path (tally.declare d.identifier) t' ⟨root, some t.size, true⟩ 1
        (tally.declare d.identifier) t' (.ahead root p r) :=
      leads_over_markup [] [] hrewrites hroot rfl rfl
    exact ⟨t', kids', _, hrewrites.mono (by simp),
      (henter.trans (Leads.step hvisit)).trans hover⟩

/-- Visiting an image fails or puts markup in its place, at which the loop resumes. -/
theorem visit_of_image {cs : List (Tree NodeId)} (path : String) (tally : Tally) (root : NodeId)
    (hd : t.Document kids) (hk : kids p = l ++ i :: r) (htop : kids i = cs.map value)
    (hkind : (t.label i).kind = "image") :
    match expandImage path (t.label i) (mapAll t.label cs) with
    | .error e => visit path tally t (.after t root ⟨i, true⟩) ⟨i, true⟩ = (tally, .error e)
    | .ok out => ∃ t' kids' markup, out = [.node (markupNode (t.label i) markup) []] ∧
        visit path tally t (.after t root ⟨i, true⟩) ⟨i, true⟩ =
          (tally, .ok (t', ⟨root, some t.size, true⟩)) ∧
        Rewrites t kids p l [i] r out t' kids' [.node t.size []] := by
  have himage := image_rewrites path hd hk htop
  cases hx : expandImage path (t.label i) (mapAll t.label cs) with
  | error e =>
    rw [hx] at himage
    dsimp only
    rw [visit_image hkind, himage]
  | ok out =>
    rw [hx] at himage
    obtain ⟨t', kids', heq, hrewrites⟩ := himage
    obtain ⟨markup, hout⟩ := expandImage_eq_ok hx
    refine ⟨t', kids', markup, hout, ?_, hrewrites⟩
    rw [visit_image hkind, heq]
    dsimp only
    rw [Cursor.after_resumeAt]

theorem image_performs {cs : List (Tree NodeId)} (hd : t.Document kids)
    (hk : kids p = l ++ i :: r) (hroot : root ≤ p) (htop : kids i = cs.map value)
    (hkind : (t.label i).kind = "image") :
    Performs path t kids p l (i :: valuesAll cs) r tally (.ahead root p (i :: r))
      (.ahead root p r) 2
      (tally, expandImage path (t.label i) (mapAll t.label cs)) := by
  have hvisit := visit_of_image path tally root hd hk htop hkind
  cases hx : expandImage path (t.label i) (mapAll t.label cs) with
  | error e =>
    rw [hx] at hvisit
    exact Runs.fail_at 1 hvisit
  | ok out =>
    rw [hx] at hvisit
    obtain ⟨t', kids', markup, rfl, hvisit, hrewrites⟩ := hvisit
    exact ⟨t', kids', _, hrewrites.mono (by simp),
      (Leads.step hvisit).trans (leads_over_markup [] [] hrewrites hroot rfl rfl)⟩

/-- What is performed after the loop has come to a position where only inner nodes differ. -/
theorem Performs.after {kids' : NodeId → List NodeId} {old' : List NodeId} {n m : Nat}
    {result : Tally × Except Failure (List (Tree Node))}
    (hleads : Leads path tally t c n tally' t' c') (hframe : Frame t kids p old t' kids')
    (h : Performs path t' kids' p l old' r tally' c' c'' m result)
    (hold : ∀ j : Nat, j ∈ old' → j ∈ old ∨ t.size ≤ j) :
    Performs path t kids p l old r tally c c'' (n + m) result := by
  match result, h with
  | (_, .error _), h => exact hleads m _ h
  | (_, .ok _), ⟨t'', kids'', new, hrewrites, hleads'⟩ =>
    exact ⟨t'', kids'', new, .after hframe hrewrites hold, hleads.trans hleads'⟩

/-- Leaving a container fails or rewrites it, and the loop goes on to what stands next. -/
theorem visit_leaving (path : String) (tally : Tally) {cs : List (Tree NodeId)}
    (hd : t.Document kids) (hk : kids p = l ++ i :: r) (hroot : root ≤ p)
    (hc : (t.label i).container = true) (himage : (t.label i).kind ≠ "image")
    (htop : kids i = cs.map value) (hcs : Follows kids cs) :
    match expandOver .standard path tally (t.label i) (mapAll t.label cs) with
    | (tally', .error e) =>
      visit path tally t (.after t root ⟨i, false⟩) ⟨i, false⟩ = (tally', .error e)
    | (tally', .ok out) => ∃ t' kids' new,
        visit path tally t (.after t root ⟨i, false⟩) ⟨i, false⟩ =
          (tally', .ok (t', .ahead root p r)) ∧
        Rewrites t kids p l (i :: valuesAll cs) r out t' kids' new := by
  have hpi := (hd.linked.later p i (by simp [hk])).1
  have hafter : Cursor.after t root ⟨i, false⟩ = .ahead root p r :=
    Cursor.after_last hd.linked hk (by omega) (by simp)
  unfold expandOver
  split_ifs with hkind
  · have hkind : (t.label i).kind = "link" := by simpa using hkind
    have hlink := link_rewrites path tally hd hk hc hkind htop hcs
    cases hx : expandLink .standard path tally (t.label i) (mapAll t.label cs) with
    | mk tally' result =>
      rw [hx] at hlink
      cases result with
      | error e =>
        dsimp only
        rw [visit_link hkind, hlink]
      | ok out =>
        obtain ⟨t', kids', new, heq, hrewrites⟩ := hlink
        refine ⟨t', kids', new, ?_, hrewrites⟩
        rw [visit_link hkind, heq, hafter]
  · refine ⟨t, kids, _, ?_, .same_node hd hk htop hcs⟩
    rw [visit_quiet (fun h => absurd (by simpa using h) hkind) himage (silent_of_container hd hc),
      hafter]

/-- The loop leaves a container below which everything is replaced. -/
theorem expandOver_performs (path : String) (tally : Tally) {cs : List (Tree NodeId)}
    (hd : t.Document kids) (hk : kids p = l ++ i :: r) (hroot : root ≤ p)
    (hc : (t.label i).container = true) (himage : (t.label i).kind ≠ "image")
    (htop : kids i = cs.map value) (hcs : Follows kids cs) :
    Performs path t kids p l (i :: valuesAll cs) r tally ⟨root, some i, false⟩ (.ahead root p r) 1
      (expandOver .standard path tally (t.label i) (mapAll t.label cs)) := by
  have hvisit := visit_leaving path tally hd hk hroot hc himage htop hcs
  cases hover : expandOver .standard path tally (t.label i) (mapAll t.label cs) with
  | mk tally' result =>
    rw [hover] at hvisit
    cases result with
    | error e => exact Runs.fail_at 0 hvisit
    | ok out =>
      obtain ⟨t', kids', new, hvisit, hrewrites⟩ := hvisit
      exact ⟨t', kids', new, hrewrites, Leads.step hvisit⟩

/-- How many turns the loop may need for a row. -/
def effort (row : List (Tree Node)) : Nat :=
  ((valuesAll row).map fun n => 2 + 2 * n.characters.length).sum

@[simp]
theorem effort_nil : effort [] = 0 := by simp [effort]

@[simp]
theorem effort_cons (n : Node) (cs rest : List (Tree Node)) :
    effort (.node n cs :: rest) = 2 + 2 * n.characters.length + effort cs + effort rest := by
  simp [effort, Nat.add_assoc]

/-- The loop over the children of a node, once it stands before the first of those in `row`. -/
def RowPerforms (path : String) (root : Nat) (row : List (Tree NodeId)) : Prop :=
  ∀ (place : Place) (tally : Tally) {t : Forest} {kids : NodeId → List NodeId} {p : Nat}
    {l : List NodeId}, t.Document kids → Follows kids row → kids p = l ++ row.map value → root ≤ p →
    place.parentKind = (t.label p).kind → place.before = !l.isEmpty →
    (l = [] → ∀ i, row.map value = [i] → atTop t p = true → declares? (t.label i) = none) →
    Performs path t kids p l (valuesAll row) [] tally (.ahead root p (row.map value))
      (.ahead root p []) (effort (mapAll t.label row))
      (expandAll .standard path place tally (mapAll t.label row))

/-- The loop over a container below which the loop does its work. -/
theorem container_performs {place : Place} {cs : List (Tree NodeId)} (ih : RowPerforms path root cs)
    (hd : t.Document kids) (hk : kids p = l ++ i :: r) (hroot : root ≤ p)
    (htop : kids i = cs.map value) (hcs : Follows kids cs) (hc : (t.label i).container = true)
    (himage : (t.label i).kind ≠ "image") (hparent : place.parentKind = (t.label p).kind)
    (hdecl : declaration? place.parentKind (.node (t.label i) (mapAll t.label cs)) = none) :
    Performs path t kids p l (i :: valuesAll cs) r tally (.ahead root p (i :: r)) (.ahead root p r)
      (1 + (effort (mapAll t.label cs) + 1))
      (andThen (expandAll .standard path { parentKind := (t.label i).kind } tally
        (mapAll t.label cs)) fun tally row => expandOver .standard path tally (t.label i) row) := by
  have hpi := (hd.linked.later p i (by simp [hk])).1
  have henter : Leads path tally t (.ahead root p (i :: r)) 1 tally t
      (.ahead root i (cs.map value)) := by
    refine Leads.step ?_
    rw [visit_quiet (fun _ => rfl) himage (silent_of_container hd hc),
      Cursor.after_enter hd.linked hc, htop]
  have hrow := ih { parentKind := (t.label i).kind } tally hd hcs (l := []) (by simpa using htop)
    (hroot.trans hpi.le) rfl rfl fun _ _ => declares?_of_lone hd.linked hk hc hparent hdecl
  cases hx : expandAll .standard path { parentKind := (t.label i).kind } tally
      (mapAll t.label cs) with
  | mk tally' result =>
    rw [hx] at hrow
    cases result with
    | error e => exact (henter _ _ hrow).mono (by omega)
    | ok out =>
      obtain ⟨t', kids', new, hrewrites, hleads⟩ := hrow
      have hwrap := hrewrites.wrap hd hk htop hcs
      have hlabel : t'.label i = t.label i := by
        have := hwrap.reads
        simp only [mapAll_cons, map_node, mapAll_nil, List.cons.injEq, Tree.node.injEq] at this
        exact this.1.1
      have hover := expandOver_performs path tally' hwrap.document
        (by simpa using hwrap.here) hroot (by rw [hlabel, hc]) (by rw [hlabel]; exact himage)
        (by simpa using hrewrites.here) hrewrites.follows
      rw [hlabel, hrewrites.reads] at hover
      rw [andThen_ok, ← Nat.add_assoc]
      exact .after (henter.trans hleads) hwrap.frame hover (by simpa using hwrap.fresh)

theorem expand_performs (place : Place) (tally : Tally) {cs : List (Tree NodeId)}
    (ih : RowPerforms path root cs)
    (hd : t.Document kids) (hk : kids p = l ++ i :: r) (hroot : root ≤ p)
    (htop : kids i = cs.map value) (hcs : Follows kids cs)
    (hparent : place.parentKind = (t.label p).kind) (hbefore : place.before = !l.isEmpty)
    (hafter : place.after = !r.isEmpty)
    (hlone : l = [] → r = [] → atTop t p = true → declares? (t.label i) = none) :
    Performs path t kids p l (i :: valuesAll cs) r tally (.ahead root p (i :: r)) (.ahead root p r)
      (2 + 2 * (t.label i).characters.length + effort (mapAll t.label cs))
      (expand .standard path place tally (.node (t.label i) (mapAll t.label cs))) := by
  have hleaf : (t.label i).container = false → cs = [] := by
    intro hc
    have hnil := hd.leaf i hc
    rwa [htop, List.map_eq_nil_iff] at hnil
  cases shape place.parentKind (t.label i) (mapAll t.label cs) with
  | image hkind =>
    rw [expand_image hkind]
    exact (image_performs hd hk hroot htop hkind).mono (by omega)
  | scanned hc hs =>
    obtain rfl := hleaf hc
    rw [expand_scanned hc hs]
    have := segments_performs path tally rfl hd hk hroot hc hs hbefore hafter hlone
    simpa using this.mono (by omega)
  | plain hkind hc hs =>
    rw [expand_plain hkind hc hs]
    refine ⟨t, kids, _, .same_node hd hk htop hcs, ?_⟩
    refine (leads_over_leaf hd hk hroot hc hkind fun h => ?_).mono (by omega)
    rw [hs] at h
    cases h
  | opening text d hdecl =>
    rw [expand_section hdecl]
    obtain ⟨⟨below, hrow⟩, -⟩ := declaration?_eq_some hdecl
    refine (section_performs hd hk hroot htop hparent hbefore hdecl).mono ?_
    rw [hrow, effort_cons]
    omega
  | container hkind hc hdecl =>
    rw [expand_container hkind hc hdecl]
    exact (container_performs ih hd hk hroot htop hcs hc hkind hparent hdecl).mono (by omega)

/-- The loop over the children of a node does what the recursion says of their row. -/
theorem rowPerforms (path : String) (root : Nat) (row : List (Tree NodeId)) :
    RowPerforms path root row := by
  induction row using row_induction with
  | nil =>
    intro place tally t kids p l hd hrow hk _ _ _ _
    rw [mapAll_nil, expandAll]
    have hsame := Rewrites.same hd hrow (p := p) (l := l) (r := []) (by simpa using hk)
    exact ⟨t, kids, [], by simpa using hsame, .refl _⟩
  | cons i cs rest ihcs ihrest =>
    intro place tally t kids p l hd hrow hk hroot hparent hbefore hlone
    obtain _ | ⟨htop, hcs, hrest⟩ := hrow
    simp only [List.map_cons, value_node] at hk hlone ⊢
    rw [mapAll_cons, map_node, expandAll_cons, effort_cons, valuesAll_cons, values_node]
    have hafter : ({ place with after := !(mapAll t.label rest).isEmpty } : Place).after =
        !(rest.map value).isEmpty := by
      cases rest <;> simp
    have hfirst := expand_performs { place with after := !(mapAll t.label rest).isEmpty } tally ihcs
      hd hk hroot htop hcs hparent hbefore hafter fun hl hr => hlone hl i (by simp [hr])
    cases hx : expand .standard path { place with after := !(mapAll t.label rest).isEmpty } tally
        (.node (t.label i) (mapAll t.label cs)) with
    | mk tally' result =>
      rw [hx] at hfirst
      cases result with
      | error e => exact Runs.mono hfirst (by omega)
      | ok out =>
        obtain ⟨t', kids', new, hrewrites, hleads⟩ := hfirst
        obtain ⟨hrest', hlabels⟩ := hrewrites.frame.rest hd hk htop hcs hrest
        have hne : l ++ new.map value ≠ [] := by
          have := hrewrites.ne_nil (expand_ne_nil hx)
          simp [this]
        have hp : t'.label p = t.label p := by
          obtain ⟨hpi, hi⟩ := hd.linked.later p i (by simp [hk])
          refine hrewrites.frame.label p (hpi.trans hi) fun hp => ?_
          have := hd.linked.lt_of_mem_valuesAll (.cons htop hcs .nil) (p := p)
            (by simpa using hpi) (by simpa using hp)
          exact this.ne rfl
        have hothers := ihrest { place with before := true } tally' hrewrites.document hrest'
          hrewrites.here hroot (by rw [hp]; exact hparent) (by simpa using hne)
          fun hl => absurd hl hne
        rw [hlabels] at hothers
        rw [andThen_ok]
        exact .append rest (by simpa using hrewrites) hleads hrest' hothers
          (fun j hj => List.mem_append_left (valuesAll rest) hj)
          (fun j hj => Or.inl (List.mem_append_right _ hj))

theorem characters_eq_sum (t : Forest) :
    t.nodes.toList.foldl (fun total n => total + (n.literal.getD "").length) 0 =
      ((List.range t.size).map fun j => (t.label j).characters.length).sum := by
  have hnodes : t.nodes.toList = (List.range t.size).map t.node := by
    refine List.ext_getElem (by simp [size]) fun j h₁ h₂ => ?_
    simp at h₁
    simp [Forest.node, Array.getD, h₁]
  rw [hnodes, List.foldl_map, List.sum_eq_foldl, List.foldl_map]
  rfl

/-- The bound of the walk is enough for the rows below the root. -/
theorem effort_lt_walkBound (hd : t.Document kids) {cs : List (Tree NodeId)}
    (htop : kids 0 = cs.map value) (hcs : Follows kids cs) :
    effort (mapAll t.label cs) + 2 ≤ walkBound t := by
  have hnd := hd.linked.nodup_valuesAll hcs ⟨0, fun c hc => htop ▸ hc⟩ (htop ▸ hd.linked.nodup 0)
  have hsub : valuesAll cs ⊆ List.range t.size := fun j hj => List.mem_range.mpr
    (hd.linked.lt_size_of_mem_valuesAll hcs (fun c hc => (hd.linked.later 0 c (htop ▸ hc)).2) hj)
  have hsize := hd.size_pos
  obtain ⟨places, hperm, hsublist⟩ := hnd.subperm hsub
  have hsum : effort (mapAll t.label cs) ≤
      ((List.range t.size).map fun j => 2 + 2 * (t.label j).characters.length).sum := by
    rw [effort, valuesAll_mapAll, List.map_map, ← (hperm.map _).sum_eq]
    exact (hsublist.map _).sum_le_sum fun _ _ => Nat.zero_le _
  have htotal : ((List.range t.size).map fun j => 2 + 2 * (t.label j).characters.length).sum =
      2 * t.size + 2 * ((List.range t.size).map fun j => (t.label j).characters.length).sum := by
    rw [List.sum_map_add, List.sum_map_mul_left]
    simp [Nat.mul_comm]
  unfold walkBound visitBound
  rw [characters_eq_sum]
  dsimp only
  omega

/-- The loop below the root of a document ends with what the recursion gives, within its bound. -/
theorem document_runs (path : String) (tally : Tally) (hd : t.Document kids) :
    ∃ final, Runs path tally t (.start 0) (walkBound t)
        ((expandDocument .standard path tally (t.tree 0)).1, final) ∧
      final.map (fun t' => t'.tree 0) = (expandDocument .standard path tally (t.tree 0)).2 ∧
      ∀ t', final = .ok t' → ∃ kids', t'.Document kids' := by
  obtain ⟨cs, hvalues, hcs⟩ := hd.linked.exists_row (kids 0)
  have htop := hvalues.symm
  have henter : Leads path tally t (.start 0) 1 tally t (.ahead 0 0 (cs.map value)) := by
    refine Leads.step ?_
    rw [visit_root hd, Cursor.after_enter hd.linked hd.rootContainer, htop]
  have hrow := rowPerforms path 0 cs { parentKind := (t.label 0).kind } tally hd hcs (l := [])
    (by simpa using htop) le_rfl rfl rfl fun _ _ _ hat => absurd hat (by rw [atTop_root hd]; decide)
  have hbound := effort_lt_walkBound hd htop hcs
  rw [hd.linked.tree_eq (.cons htop hcs .nil), expandDocument]
  cases hx : expandAll .standard path { parentKind := (t.label 0).kind } tally
      (mapAll t.label cs) with
  | mk tally' result =>
    rw [hx] at hrow
    cases result with
    | error e =>
      exact ⟨.error e, (henter _ _ hrow).mono (by omega), rfl, fun t' h => by cases h⟩
    | ok out =>
      obtain ⟨t', kids', new, hrewrites, hleads⟩ := hrow
      have hlabel : t'.label 0 = t.label 0 := by
        refine hrewrites.frame.label 0 hd.size_pos fun h0 => ?_
        exact hd.linked.notMem_below htop hcs h0
      have hleave : Runs path tally' t' ⟨0, some 0, false⟩ 1 (tally', .ok t') := by
        refine .turn rfl (visit_root hrewrites.document) (n := 0) (.done ?_)
        rw [Cursor.after_root]
        rfl
      refine ⟨.ok t', ((henter.trans hleads) _ _ hleave).mono (by omega), ?_, fun t'' h => ?_⟩
      · have htree := hrewrites.document.linked.tree_eq
          (.cons (by simpa using hrewrites.here) hrewrites.follows .nil)
        rw [andThen_ok]
        simp [Except.map, htree, hlabel, hrewrites.reads]
      · cases h
        exact ⟨kids', hrewrites.document⟩

end Hyperstory.Expansion
