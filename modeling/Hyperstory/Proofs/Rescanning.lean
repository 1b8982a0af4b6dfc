import Hyperstory.Proofs.Cuts
import Hyperstory.Proofs.Walk

/-!
Reading a leaf once. The loop replaces the first directive of a leaf, splits off what stands after it
and reads that from its beginning again. All of it together is one reading of the whole text from left
to right: the same nodes at the same places, or the same first problem, with one turn of the loop for
each directive.
-/
namespace Hyperstory

open Hyperstory.Tree Expansion Forest

/-- A part of a text that is read once from left to right. -/
inductive Piece where
  | raw (cs : List Char)
  /-- A directive from its opening to its closing brace. -/
  | directive (cs : List Char)
  /-- An opening brace that nothing closes, and all that follows. -/
  | unclosed (cs : List Char)
  deriving DecidableEq, Repr

/-- Lines and columns from the beginning of a leaf. -/
structure Offset where
  lines : Nat := 0
  columns : Nat := 0
  deriving DecidableEq, Repr

namespace Offset

def step (x : Offset) (c : Char) : Offset :=
  if c = '\n' then ⟨x.lines + 1, 0⟩ else ⟨x.lines, x.columns + 1⟩

def past (x : Offset) (cs : List Char) : Offset := cs.foldl step x

/-- Past a directive, which counts as columns only. -/
def beyond (x : Offset) (cs : List Char) : Offset := ⟨x.lines, x.columns + cs.length⟩

/-- The place so far from the beginning of a leaf. -/
def place (x : Offset) (n : Node) : Option Position :=
  n.position.map fun p => p.shift x.lines x.columns

/-- An offset from a leaf that begins at an offset itself. -/
def plus (x y : Offset) : Offset :=
  if y.lines = 0 then ⟨x.lines, x.columns + y.columns⟩ else ⟨x.lines + y.lines, y.columns⟩

variable {x y : Offset} {cs : List Char}

@[simp]
theorem plus_zero : x.plus {} = x := rfl

theorem plus_step (c : Char) : x.plus (y.step c) = (x.plus y).step c := by
  unfold plus step
  by_cases hc : c = '\n' <;> by_cases hy : y.lines = 0 <;> simp [hc, hy, Nat.add_assoc]

theorem plus_past : x.plus (y.past cs) = (x.plus y).past cs := by
  unfold past
  induction cs generalizing y with
  | nil => rfl
  | cons c cs ih => rw [List.foldl_cons, List.foldl_cons, ih, plus_step]

theorem plus_beyond : x.plus (y.beyond cs) = (x.plus y).beyond cs := by
  unfold plus beyond
  by_cases hy : y.lines = 0 <;> simp [hy, Nat.add_assoc]

theorem shift_shift (p : Position) :
    (p.shift x.lines x.columns).shift y.lines y.columns =
      p.shift (x.plus y).lines (x.plus y).columns := by
  unfold Position.shift plus
  by_cases hx : x.lines = 0 <;> by_cases hy : y.lines = 0 <;> simp [hx, hy, Int.add_assoc]

end Offset

namespace Directive

/-- Where a directive stands does not matter for what it asks for. -/
theorem ofText_zero {start : Nat} {cs : List Char} {d : Directive} (h : ofText start cs = .ok d) :
    d.start = start ∧ d.stop = start + cs.length ∧ d.text = String.ofList cs ∧
      ofText 0 cs = .ok { d with start := 0, stop := d.text.length } := by
  unfold ofText at h ⊢
  cases hkind : DirectiveKind.ofText? ((cs.drop 1).take 1) with
  | none =>
    rw [hkind] at h
    cases h
  | some kind =>
    rw [hkind] at h
    cases h
    exact ⟨rfl, rfl, rfl, by simp⟩

theorem ofText_zero_error {start : Nat} {cs : List Char} {e : Problem}
    (h : ofText start cs = .error e) : ofText 0 cs = .error e := by
  unfold ofText at h ⊢
  cases hkind : DirectiveKind.ofText? ((cs.drop 1).take 1) with
  | none =>
    rw [hkind] at h
    exact h
  | some kind =>
    rw [hkind] at h
    cases h

end Directive

theorem exists_of_map_ok {ε α β : Type} {x : Except ε α} {f : α → β} {b : β}
    (h : x.map f = .ok b) : ∃ a, x = .ok a ∧ b = f a := by
  cases x with
  | error e => cases h
  | ok a => exact ⟨a, rfl, (Except.ok.inj h).symm⟩

namespace Piece

def characters : Piece → List Char
  | raw cs => cs
  | directive cs => cs
  | unclosed cs => cs

def isDirective : Piece → Bool
  | directive _ => true
  | _ => false

/-- What a part asks for, if it is not plain text. -/
def meaning : Piece → Except Directive.Problem (Option Directive)
  | raw _ => .ok none
  | directive cs => (Directive.ofText 0 cs).map some
  | unclosed cs => .error (.unterminated (String.ofList (cs.take 10)))

theorem isDirective_of_meaning {x : Piece} {found : Option Directive} (h : x.meaning = .ok found) :
    x.isDirective = found.isSome := by
  cases x with
  | raw cs => cases h; rfl
  | directive cs =>
    obtain ⟨d, -, rfl⟩ := exists_of_map_ok h
    rfl
  | unclosed cs => cases h

/-- The part that ends where the text does. -/
def last (depth : Nat) (held : List Char) : List Piece :=
  if depth = 0 then if held.isEmpty then [] else [raw held] else [unclosed held]

/-- Reads on, so many braces deep, after the characters that were read since the last part. -/
def readFrom (depth : Nat) (held : List Char) : List Char → List Piece
  | [] => last depth held
  | '\\' :: c :: cs => readFrom depth (held ++ ['\\', c]) cs
  | '{' :: cs =>
    if depth = 0 then last 0 held ++ readFrom 1 ['{'] cs else readFrom (depth + 1) (held ++ ['{']) cs
  | '}' :: cs =>
    if depth = 0 then readFrom 0 (held ++ ['}']) cs
    else if depth = 1 then directive (held ++ ['}']) :: readFrom 0 [] cs
    else readFrom (depth - 1) (held ++ ['}']) cs
  | c :: cs => readFrom depth (held ++ [c]) cs

def read (cs : List Char) : List Piece := readFrom 0 [] cs

variable {depth : Nat} {held cs : List Char}

theorem flatMap_last : (last depth held).flatMap characters = held := by
  unfold last
  split_ifs with hdepth hheld
  · rw [List.isEmpty_iff.mp hheld]
    rfl
  · exact List.append_nil held
  · exact List.append_nil held

/-- Nothing is lost. -/
theorem flatMap_readFrom (depth : Nat) (held cs : List Char) :
    (readFrom depth held cs).flatMap characters = held ++ cs := by
  fun_induction readFrom depth held cs with
  | case1 => rw [flatMap_last, List.append_nil]
  | case2 depth held c cs ih => rw [ih, List.append_assoc]; rfl
  | case3 held cs ih => rw [List.flatMap_append, flatMap_last, ih]; rfl
  | case4 depth held cs _ ih => rw [ih, List.append_assoc]; rfl
  | case5 held cs ih => rw [ih, List.append_assoc]; rfl
  | case6 held cs _ ih =>
    rw [List.flatMap_cons, ih]
    exact List.append_assoc held ['}'] cs
  | case7 depth held cs _ _ ih => rw [ih, List.append_assoc]; rfl
  | case8 depth held c cs _ _ _ ih => rw [ih, List.append_assoc]; rfl

theorem flatMap_read (cs : List Char) : (read cs).flatMap characters = cs :=
  flatMap_readFrom 0 [] cs

/-- No plain part is empty. -/
theorem ne_nil_of_mem_readFrom (h : raw [] ∈ readFrom depth held cs) : False := by
  have hlast : ∀ {depth : Nat} {held : List Char}, raw [] ∉ last depth held := by
    intro depth held hmem
    unfold last at hmem
    split_ifs at hmem with hdepth hheld
    · cases hmem
    · obtain rfl := raw.inj (List.mem_singleton.mp hmem)
      exact hheld rfl
    · cases List.mem_singleton.mp hmem
  fun_induction readFrom depth held cs with
  | case1 => exact hlast h
  | case2 depth held c cs ih => exact ih h
  | case3 held cs ih =>
    rcases List.mem_append.mp h with h | h
    · exact hlast h
    · exact ih h
  | case4 depth held cs _ ih => exact ih h
  | case5 held cs ih => exact ih h
  | case6 held cs _ ih =>
    rcases List.mem_cons.mp h with h | h
    · cases h
    · exact ih h
  | case7 depth held cs _ _ ih => exact ih h
  | case8 depth held c cs _ _ _ ih => exact ih h

theorem readFrom_plain {c : Char} (hc : c ≠ '\\') (hopen : c ≠ '{') (hclose : c ≠ '}') :
    readFrom depth held (c :: cs) = readFrom depth (held ++ [c]) cs := by
  rw [readFrom]
  · exact fun _ _ h => absurd h hc
  · exact hopen
  · exact hclose

/-- Between directives a closing brace is a character as any other. -/
theorem readFrom_zero {c : Char} (hc : c ≠ '\\') (hopen : c ≠ '{') :
    readFrom 0 held (c :: cs) = readFrom 0 (held ++ [c]) cs := by
  by_cases hclose : c = '}'
  · subst hclose
    rw [readFrom, if_pos rfl]
  · exact readFrom_plain hc hopen hclose

theorem readFrom_backslash : readFrom depth held ['\\'] = last depth (held ++ ['\\']) := by
  rw [readFrom, readFrom]
  · exact fun _ _ _ h => nomatch h
  · decide
  · decide

/-! ### Inside a directive -/

/-- Where no brace closes a directive, all the rest is one part. -/
theorem readFrom_of_span_none {d : Int} (hd : d = depth) (hdepth : 0 < depth)
    (h : Directive.span d cs = none) : readFrom depth held cs = [unclosed (held ++ cs)] := by
  have hlast : ∀ {depth : Nat} (held : List Char), 0 < depth → last depth held = [unclosed held] :=
    fun held h => if_neg (by omega)
  fun_induction Directive.span d cs generalizing depth held with
  | case1 => rw [readFrom, hlast held hdepth, List.append_nil]
  | case2 => rw [readFrom_backslash, hlast _ hdepth]
  | case3 d c cs ih =>
    rw [readFrom, ih hd hdepth (Option.map_eq_none_iff.mp h), List.append_assoc]
    rfl
  | case4 d cs ih =>
    rw [readFrom, if_neg (by omega), ih (by omega) (by omega) (Option.map_eq_none_iff.mp h),
      List.append_assoc]
    rfl
  | case5 => cases h
  | case6 d cs hne ih =>
    rw [readFrom, if_neg (by omega), if_neg (by omega),
      ih (by omega) (by omega) (Option.map_eq_none_iff.mp h), List.append_assoc]
    rfl
  | case7 d c cs hend hnext hopen hclose ih =>
    rw [readFrom_plain (ne_backslash hend hnext) hopen hclose,
      ih hd hdepth (Option.map_eq_none_iff.mp h), List.append_assoc]
    rfl

/-- A directive goes up to the brace that closes it. -/
theorem readFrom_of_span_some {d : Int} {n : Nat} (hd : d = depth) (hdepth : 0 < depth)
    (h : Directive.span d cs = some n) :
    readFrom depth held cs = directive (held ++ cs.take n) :: read (cs.drop n) := by
  rw [Directive.span_eq_some_iff] at h
  induction h generalizing depth held with
  | escape c _ ih =>
    rw [readFrom, ih hd hdepth, List.append_assoc]
    rfl
  | opening _ ih =>
    rw [readFrom, if_neg (by omega), ih (by omega) (by omega), List.append_assoc]
    rfl
  | closing =>
    rw [readFrom, if_neg (by omega), if_pos (by omega)]
    rfl
  | inner hne _ ih =>
    rw [readFrom, if_neg (by omega), if_neg (by omega), ih (by omega) (by omega),
      List.append_assoc]
    rfl
  | plain hc hopen hclose _ ih =>
    rw [readFrom_plain hc hopen hclose, ih hd hdepth, List.append_assoc]
    rfl

/-! ### Between directives -/

theorem readFrom_of_none {o : Opening} (h : o.find? cs = none) :
    readFrom 0 held cs = last 0 (held ++ cs) := by
  fun_induction Opening.find? o cs generalizing held with
  | case1 => rw [readFrom, List.append_nil]
  | case2 => rw [readFrom_backslash]
  | case3 o cs ih => rw [readFrom, ih h, List.append_assoc]; rfl
  | case4 o c cs _ ih => rw [readFrom, ih h, List.append_assoc]; rfl
  | case5 o cs ih =>
    rw [readFrom_plain (by decide) (by decide) (by decide), ih h, List.append_assoc]
    rfl
  | case6 => cases h
  | case7 o c cs hend _ hnext _ hopen ih =>
    rw [readFrom_zero (ne_backslash hend hnext) hopen, ih h, List.append_assoc]
    rfl

/-- A directive begins at the first brace that no backslash takes away. -/
theorem exists_of_find? {o o' : Opening} (h : o.find? cs = some o') :
    ∃ before after, cs = before ++ '{' :: after ∧ o'.index = o.index + before.length ∧
      (⟨o'.lines, o'.columns⟩ : Offset) = Offset.past ⟨o.lines, o.columns⟩ before ∧
      ∀ held, readFrom 0 held cs = last 0 (held ++ before) ++ readFrom 1 ['{'] after := by
  have hpast : ∀ (o : Opening) (c : Char), (⟨(o.past c).lines, (o.past c).columns⟩ : Offset) =
      Offset.step ⟨o.lines, o.columns⟩ c := by
    intro o c
    unfold Opening.past Offset.step
    split <;> rfl
  rw [Opening.find?_eq_some_iff] at h
  induction h with
  | @here o cs =>
    refine ⟨[], cs, rfl, rfl, rfl, fun held => ?_⟩
    rw [readFrom, if_pos rfl, List.append_nil]
  | escape c _ ih =>
    obtain ⟨before, after, rfl, hindex, hoffset, hread⟩ := ih
    refine ⟨'\\' :: c :: before, after, rfl, ?_, ?_, fun held => ?_⟩
    · rw [hindex, Opening.index_past, Opening.index_past, List.length_cons, List.length_cons]
      omega
    · rw [hoffset, hpast, hpast]
      rfl
    · rw [readFrom, hread, List.append_assoc]
      rfl
  | @plain _ _ c _ hc hopen _ ih =>
    obtain ⟨before, after, rfl, hindex, hoffset, hread⟩ := ih
    refine ⟨c :: before, after, rfl, ?_, ?_, fun held => ?_⟩
    · rw [hindex, Opening.index_past, List.length_cons]
      omega
    · rw [hoffset, hpast]
      rfl
    · rw [readFrom_zero hc hopen, hread, List.append_assoc]
      rfl

/-- The first directive of a text, and what stands before and after it. -/
theorem read_of_scan {o : Opening} {d : Directive} (hfind : Opening.find? ⟨0, 0, 0⟩ cs = some o)
    (hscan : Directive.scan cs o.index = .ok d) :
    read cs = last 0 (cs.take d.start) ++ directive d.text.toList :: read (cs.drop d.stop) ∧
      (⟨o.lines, o.columns⟩ : Offset) = Offset.past {} (cs.take d.start) ∧
      (directive d.text.toList).meaning = .ok (some { d with start := 0, stop := d.text.length }) := by
  obtain ⟨before, after, rfl, hindex, hoffset, hread⟩ := exists_of_find? hfind
  rw [Nat.zero_add] at hindex
  have hdrop : (before ++ '{' :: after).drop o.index = '{' :: after := by rw [hindex, List.drop_left]
  rw [Directive.scan, hdrop, Directive.span] at hscan
  cases hspan : Directive.span (0 + 1) after with
  | none =>
    rw [hspan] at hscan
    cases hscan
  | some m =>
    rw [hspan] at hscan
    change Directive.ofText o.index ('{' :: after.take m) = .ok d at hscan
    have hm := Directive.span_le_length hspan
    obtain ⟨hstart, hstop, htext, hmeaning⟩ := Directive.ofText_zero hscan
    have hlength : ('{' :: after.take m).length = m + 1 := by
      rw [List.length_cons, List.length_take]
      omega
    have hbefore : (before ++ '{' :: after).take d.start = before := by
      rw [hstart, hindex, List.take_left]
    have hafter : (before ++ '{' :: after).drop d.stop = after.drop m := by
      rw [hstop, hindex, hlength, List.drop_length_add_append, List.drop_succ_cons]
    have htext' : d.text.toList = '{' :: after.take m := by rw [htext, String.toList_ofList]
    refine ⟨?_, ?_, ?_⟩
    · rw [hbefore, hafter, htext', read, hread, List.nil_append,
        readFrom_of_span_some (show (0 + 1 : Int) = (1 : Nat) from rfl) Nat.one_pos hspan]
      rfl
    · rw [hbefore]
      exact hoffset
    · rw [htext', meaning, hmeaning]
      rfl

/-- The first directive of a text, where that cannot be read. -/
theorem exists_of_scan_error {o : Opening} {e : Directive.Problem}
    (hfind : Opening.find? ⟨0, 0, 0⟩ cs = some o) (hscan : Directive.scan cs o.index = .error e) :
    ∃ before x after, read cs = last 0 before ++ x :: after ∧ x.meaning = .error e ∧
      (⟨o.lines, o.columns⟩ : Offset) = Offset.past {} before := by
  obtain ⟨before, after, rfl, hindex, hoffset, hread⟩ := exists_of_find? hfind
  rw [Nat.zero_add] at hindex
  have hdrop : (before ++ '{' :: after).drop o.index = '{' :: after := by rw [hindex, List.drop_left]
  rw [Directive.scan, hdrop, Directive.span] at hscan
  cases hspan : Directive.span (0 + 1) after with
  | none =>
    rw [hspan] at hscan
    refine ⟨before, unclosed ('{' :: after), [], ?_, ?_, hoffset⟩
    · rw [read, hread, List.nil_append,
        readFrom_of_span_none (show (0 + 1 : Int) = (1 : Nat) from rfl) Nat.one_pos hspan]
      rfl
    · cases hscan
      rfl
  | some m =>
    rw [hspan] at hscan
    change Directive.ofText o.index ('{' :: after.take m) = .error e at hscan
    refine ⟨before, directive ('{' :: after.take m), read (after.drop m), ?_, ?_, hoffset⟩
    · rw [read, hread, List.nil_append,
        readFrom_of_span_some (show (0 + 1 : Int) = (1 : Nat) from rfl) Nat.one_pos hspan]
      rfl
    · rw [meaning, Directive.ofText_zero_error hscan]
      rfl

end Piece

namespace Expansion

open Piece

/-! ### The row that one reading gives -/

/-- The leaf for a plain part: the leaf itself, or one that was split off after a directive. -/
def leafOf (n : Node) (split : Bool) (began : Offset) (cs : List Char) : Node :=
  if split then Forest.splitOff n (String.ofList cs) (began.place n)
  else { n with literal := some (String.ofList cs) }

/-- The row for the parts of a leaf, or the first problem. A plain part becomes a leaf and a
directive its expansion, at the place where the leaf before it began. -/
def layOut (path : String) (n : Node) (split : Bool) (began here : Offset) :
    List Piece → Except Failure (List (Tree Node))
  | [] => .ok []
  | x :: rest =>
    match x.meaning with
    | .error e => .error (problemAt path n here.lines here.columns e.cause)
    | .ok none =>
      (layOut path n split began (here.past x.characters) rest).map
        (.node (leafOf n split began x.characters) [] :: ·)
    | .ok (some d) =>
      let next := here.beyond x.characters
      (layOut path n true next next rest).map
        (.node (markupNode (leafOf n split began []) (Markup.expansionIn n.kind d.reference)) [] :: ·)

/-- A leaf read once from left to right. One without characters stays as it is. -/
def inOneReading (path : String) (n : Node) : Except Failure (List (Tree Node)) :=
  match Piece.read n.characters with
  | [] => .ok [.node n []]
  | x :: rest => layOut path n false {} {} (x :: rest)

variable {path : String} {n m : Node} {began here x : Offset} {split : Bool}

/-- What was split off begins at its offset. -/
theorem place_splitOff {literal : String} :
    began.place (Forest.splitOff n literal (x.place n)) = (x.plus began).place n := by
  unfold Offset.place Forest.splitOff
  cases n.position with
  | none => rfl
  | some p => simp [Offset.shift_shift]

theorem leafOf_splitOff {literal : String} (cs : List Char) (hsplit : split = false → began = {}) :
    leafOf (Forest.splitOff n literal (x.place n)) split began cs =
      leafOf n true (x.plus began) cs := by
  cases split with
  | true =>
    simp only [leafOf, if_true, place_splitOff]
    unfold Forest.splitOff Offset.place
    cases n.position <;> rfl
  | false =>
    rw [hsplit rfl, Offset.plus_zero]
    rfl

/-- What was split off is laid out as the rest of the leaf is. -/
theorem layOut_splitOff {literal : String} (hsplit : split = false → began = {})
    (pieces : List Piece) :
    layOut path (Forest.splitOff n literal (x.place n)) split began here pieces =
      layOut path n true (x.plus began) (x.plus here) pieces := by
  induction pieces generalizing split began here with
  | nil => rfl
  | cons piece rest ih =>
    rw [layOut, layOut]
    cases piece.meaning with
    | error e =>
      dsimp only
      unfold problemAt
      rw [← Offset.place, ← Offset.place, place_splitOff]
    | ok found =>
      cases found with
      | none =>
        dsimp only
        rw [ih hsplit, Offset.plus_past, leafOf_splitOff _ hsplit]
      | some d =>
        dsimp only
        rw [ih (show true = false → _ from fun h => by cases h), Offset.plus_beyond,
          leafOf_splitOff _ hsplit]
        rfl

/-- What stands before the first directive stays in the leaf. -/
theorem layOut_last (before : List Char) (rest : List Piece) :
    layOut path n false {} {} (last 0 before ++ rest) =
      (layOut path n false {} (Offset.past {} before) rest).map
        ((if before.isEmpty then [] else [.node (leafOf n false {} before) []]) ++ ·) := by
  unfold last
  rw [if_pos rfl]
  split_ifs with hbefore
  · rw [List.isEmpty_iff.mp hbefore, List.nil_append]
    cases h : layOut path n false {} (Offset.past {} []) rest <;> simp [Except.map] <;> exact h
  · rw [List.cons_append, List.nil_append, layOut]
    rfl

/-- The first directive of a leaf, with what stands before it. -/
theorem layOut_directive {o : Opening} {d : Directive} {rest : List Piece}
    (hoffset : (⟨o.lines, o.columns⟩ : Offset) = Offset.past {} (n.characters.take d.start))
    (hmeaning : (directive d.text.toList).meaning =
      .ok (some { d with start := 0, stop := d.text.length })) :
    layOut path n false {} {} (last 0 (n.characters.take d.start) ++ directive d.text.toList :: rest) =
      (layOut path n true (Offset.beyond ⟨o.lines, o.columns⟩ d.text.toList)
        (Offset.beyond ⟨o.lines, o.columns⟩ d.text.toList) rest).map
        (kept n d ++ expanded n d :: ·) := by
  rw [layOut_last, layOut, hmeaning, ← hoffset]
  show Except.map _ (Except.map _ (layOut path n true (Offset.beyond ⟨o.lines, o.columns⟩ d.text.toList)
    (Offset.beyond ⟨o.lines, o.columns⟩ d.text.toList) rest)) = _
  cases layOut path n true (Offset.beyond ⟨o.lines, o.columns⟩ d.text.toList)
    (Offset.beyond ⟨o.lines, o.columns⟩ d.text.toList) rest <;> rfl

theorem remainder_eq (d : Directive) (o : Opening) :
    remainder n d o = Forest.splitOff n (String.ofList (n.characters.drop d.stop))
      ((Offset.beyond ⟨o.lines, o.columns⟩ d.text.toList).place n) := by
  rw [Offset.place, Offset.beyond, String.length_toList]
  rfl

theorem leafOf_characters (h : n.characters ≠ []) : leafOf n false {} n.characters = n := by
  obtain ⟨s, hs⟩ := Option.isSome_iff_exists.mp (Node.isSome_literal h)
  have hcs : String.ofList n.characters = s := by
    rw [Node.characters, hs, Option.getD_some, String.ofList_toList]
  rw [leafOf, if_neg Bool.false_ne_true, hcs, ← hs]

theorem read_ne_nil {cs : List Char} (h : cs ≠ []) : Piece.read cs ≠ [] := by
  intro hnil
  have hflat := flatMap_read cs
  rw [hnil] at hflat
  exact h hflat.symm

theorem inOneReading_of_ne_nil (h : n.characters ≠ []) :
    inOneReading path n = layOut path n false {} {} (Piece.read n.characters) := by
  unfold inOneReading
  have hne := read_ne_nil h
  generalize Piece.read n.characters = pieces at hne
  cases pieces with
  | nil => exact absurd rfl hne
  | cons x rest => rfl

/-- A leaf in which no section begins: replacing its first directive and reading the rest again comes
to one reading. -/
theorem segments_eq_inOneReading (path : String) (place : Place) (n : Node)
    (h : ∀ x ∈ Piece.read n.characters, ∀ d, x.meaning = .ok (some d) → d.kind ≠ .sectionBegin) :
    segments path place n = inOneReading path n := by
  -- What stands after a directive is a shorter leaf.
  induction hlen : n.characters.length using Nat.strong_induction_on generalizing n place with
  | _ size ih =>
    rw [segments_eq]
    cases hfind : Opening.find? ⟨0, 0, 0⟩ n.characters with
    | none =>
      have hread : Piece.read n.characters = last 0 n.characters := readFrom_of_none hfind
      by_cases hne : n.characters = []
      · rw [inOneReading, hread, hne]
        rfl
      · have hlast : layOut path n false {} {} (last 0 n.characters ++ []) = _ :=
          layOut_last n.characters []
        rw [List.append_nil] at hlast
        rw [inOneReading_of_ne_nil hne, hread, hlast, leafOf_characters hne,
          if_neg (mt List.isEmpty_iff.mp hne)]
        rfl
    | some o =>
      have hne : n.characters ≠ [] := by
        intro hnil
        rw [hnil] at hfind
        cases hfind
      dsimp only
      rw [inOneReading_of_ne_nil hne]
      cases hscan : Directive.scan n.characters o.index with
      | error e =>
        obtain ⟨before, x, after, hread, hx, hoffset⟩ := exists_of_scan_error hfind hscan
        rw [hread, layOut_last, layOut, hx, ← hoffset]
        rfl
      | ok d =>
        obtain ⟨hread, hoffset, hmeaning⟩ := read_of_scan hfind hscan
        have hbounds := Directive.scan_bounds hscan
        have hkind : d.kind ≠ .sectionBegin :=
          h (directive d.text.toList) (by rw [hread]; simp) { d with start := 0, stop := d.text.length }
            hmeaning
        have hrest : ∀ x ∈ Piece.read (n.characters.drop d.stop), ∀ d,
            x.meaning = .ok (some d) → d.kind ≠ .sectionBegin := fun x hx =>
          h x (by rw [hread]; simp [hx])
        dsimp only
        rw [if_neg hkind, hread, layOut_directive hoffset hmeaning]
        split_ifs with hempty
        · rw [List.isEmpty_iff.mp hempty]
          rfl
        · have hne' : (remainder n d o).characters ≠ [] := by
            rw [characters_remainder]
            exact mt List.isEmpty_iff.mpr hempty
          have hseg := ih (n.characters.length - d.stop) (by omega) { place with before := true }
            (remainder n d o) (by rwa [characters_remainder])
            (by rw [characters_remainder, List.length_drop])
          rw [hseg, inOneReading_of_ne_nil hne', characters_remainder, remainder_eq,
            layOut_splitOff (fun _ => rfl), Offset.plus_zero]
          cases layOut path n true (Offset.beyond ⟨o.lines, o.columns⟩ d.text.toList)
            (Offset.beyond ⟨o.lines, o.columns⟩ d.text.toList)
            (Piece.read (n.characters.drop d.stop)) <;> rfl

/-! ### Turns of the loop -/

/-- How many directives come before the first problem. -/
def replaced : List Piece → Nat
  | [] => 0
  | x :: rest =>
    match x.meaning with
    | .error _ => 0
    | .ok none => replaced rest
    | .ok (some _) => replaced rest + 1

theorem replaced_last (before : List Char) (rest : List Piece) :
    replaced (last 0 before ++ rest) = replaced rest := by
  unfold last
  rw [if_pos rfl]
  split_ifs <;> rfl

/-- A part of a leaf as it stands in the tree: plain text in a leaf of the same sort, or markup in
place of a directive. -/
def Shows (n : Node) (x : Piece) : Tree Node → Prop
  | .node m below => below = [] ∧ m.inline = n.inline ∧
    match x.meaning with
    | .error _ => False
    | .ok none => m.characters = x.characters ∧ m.kind = n.kind ∧ m.token = n.token
    | .ok (some d) =>
      m.kind = "html_inline" ∧ m.literal = some (Markup.expansionIn n.kind d.reference)

theorem exists_of_layOut_cons {piece : Piece} {rest : List Piece} {row : List (Tree Node)}
    (h : layOut path n split began here (piece :: rest) = .ok row) :
    ∃ y row' split' began' here', row = y :: row' ∧ Shows n piece y ∧
      layOut path n split' began' here' rest = .ok row' ∧
      replaced (piece :: rest) = replaced rest + if piece.isDirective then 1 else 0 := by
  have hinline : ∀ cs, (leafOf n split began cs).inline = n.inline := by
    intro cs
    cases split <;> rfl
  rw [layOut] at h
  cases hx : piece.meaning with
  | error e =>
    rw [hx] at h
    cases h
  | ok found =>
    rw [hx] at h
    cases found with
    | none =>
      obtain ⟨row', hrow, rfl⟩ := exists_of_map_ok h
      refine ⟨_, row', split, began, _, rfl, ⟨rfl, hinline _, ?_⟩, hrow, ?_⟩
      · rw [hx]
        cases split <;> exact ⟨by simp [leafOf, Node.characters, Forest.splitOff], rfl, rfl⟩
      · rw [replaced, hx, isDirective_of_meaning hx]
        rfl
    | some d =>
      obtain ⟨row', hrow, rfl⟩ := exists_of_map_ok h
      refine ⟨_, row', true, _, _, rfl, ⟨rfl, hinline [], ?_⟩, hrow, ?_⟩
      · rw [hx]
        exact ⟨rfl, rfl⟩
      · rw [replaced, hx, isDirective_of_meaning hx]
        rfl

/-- Where there is no problem, the row shows each part, and each directive was replaced. -/
theorem shows_of_layOut {pieces : List Piece} {row : List (Tree Node)}
    (h : layOut path n split began here pieces = .ok row) :
    List.Forall₂ (Shows n) pieces row ∧ replaced pieces = pieces.countP isDirective := by
  induction pieces generalizing split began here row with
  | nil =>
    obtain rfl := Except.ok.inj h
    exact ⟨.nil, rfl⟩
  | cons x rest ih =>
    obtain ⟨y, row', split', began', here', rfl, hshows, hrow, hcount⟩ := exists_of_layOut_cons h
    obtain ⟨hrest, hreplaced⟩ := ih hrow
    refine ⟨.cons hshows hrest, ?_⟩
    rw [hcount, hreplaced, List.countP_cons]

theorem shows_of_inOneReading {row : List (Tree Node)} (h : inOneReading path n = .ok row) :
    replaced (Piece.read n.characters) = (Piece.read n.characters).countP isDirective ∧
      if Piece.read n.characters = [] then row = [.node n []]
      else List.Forall₂ (Shows n) (Piece.read n.characters) row := by
  unfold inOneReading at h
  cases hread : Piece.read n.characters with
  | nil =>
    rw [hread] at h
    rw [if_pos rfl]
    exact ⟨rfl, (Except.ok.inj h).symm⟩
  | cons x rest =>
    rw [hread] at h
    obtain ⟨hshows, hcount⟩ := shows_of_layOut h
    rw [if_neg (List.cons_ne_nil x rest)]
    exact ⟨hcount, hshows⟩

/-- The loop goes from one position to another, and so many of its turns replace a directive of a
leaf. The others change nothing. -/
inductive Reaches (path : String) (tally : Tally) :
    Forest → Cursor → Nat → Forest → Cursor → Prop where
  | here {t : Forest} {c : Cursor} : Reaches path tally t c 0 t c
  | passes {t t' : Forest} {c c₁ c₂ c' : Cursor} {v : Visit} {count : Nat}
      (h : c.next? t = some (v, c₁)) (hv : visit path tally t c₁ v = (tally, .ok (t, c₂)))
      (hrest : Reaches path tally t c₂ count t' c') : Reaches path tally t c count t' c'
  | replaces {t t₁ t' : Forest} {c c₁ c' : Cursor} {v : Visit} {html : NodeId} {count : Nat}
      (h : c.next? t = some (v, c₁)) (hs : isScanned (t.label v.node).kind = true)
      (hleaf : leaf path tally t v.node = (tally, .ok (t₁, some html)))
      (hrest : Reaches path tally t₁ (c₁.resumeAt html true) count t' c') :
      Reaches path tally t c (count + 1) t' c'

variable {tally : Tally} {t t' : Forest} {c c' : Cursor} {kids : NodeId → List NodeId}
  {root p i count : Nat} {l r : List NodeId}

/-- So many turns of the loop are behind it. -/
theorem Reaches.exists_turns (h : Reaches path tally t c count t' c') :
    ∃ turns, ∀ fuel, walk path (turns + fuel) tally t c = walk path fuel tally t' c' := by
  induction h with
  | here => exact ⟨0, fun fuel => by rw [Nat.zero_add]⟩
  | passes h hv _ ih =>
    obtain ⟨turns, hturns⟩ := ih
    refine ⟨turns + 1, fun fuel => ?_⟩
    rw [Nat.succ_add, walk, h]
    dsimp only
    rw [hv]
    exact hturns fuel
  | @replaces t t₁ t' c c₁ c' v html count h hs hleaf _ ih =>
    obtain ⟨turns, hturns⟩ := ih
    refine ⟨turns + 1, fun fuel => ?_⟩
    have hv : visit path tally t c₁ ⟨v.node, v.entering⟩ =
        (tally, .ok (t₁, c₁.resumeAt html true)) := by
      rw [visit_scanned hs, hleaf]
    rw [Nat.succ_add, walk, h]
    dsimp only
    rw [hv]
    exact hturns fuel

theorem Reaches.trans {t'' : Forest} {c'' : Cursor} {more : Nat}
    (h : Reaches path tally t c count t' c') (h' : Reaches path tally t' c' more t'' c'') :
    Reaches path tally t c (count + more) t'' c'' := by
  induction h with
  | here => rwa [Nat.zero_add]
  | passes h hv _ ih => exact .passes h hv (ih h')
  | replaces h hs hleaf _ ih =>
    rw [Nat.succ_add]
    exact .replaces h hs hleaf (ih h')

/-- The loop makes the nodes `out` of a leaf, or fails, after it has replaced so many directives. -/
def Rescans (path : String) (tally : Tally) (t : Forest) (kids : NodeId → List NodeId)
    (root p : NodeId) (l : List NodeId) (i : NodeId) (r : List NodeId) (count : Nat) :
    Except Failure (List (Tree Node)) → Prop
  | .ok out => ∃ t' kids' new, Rewrites t kids p l [i] r out t' kids' new ∧
      Reaches path tally t (.ahead root p (i :: r)) count t' (.ahead root p r)
  | .error e => ∃ t' c' c'' v, Reaches path tally t (.ahead root p (i :: r)) count t' c' ∧
      c'.next? t' = some (v, c'') ∧ visit path tally t' c'' v = (tally, .error e)

/-- The loop replaces the directives of a leaf one after the other. -/
theorem rescans (path : String) (tally : Tally) (place : Place) (hd : t.Document kids)
    (hk : kids p = l ++ i :: r) (hroot : root ≤ p) (hc : (t.label i).container = false)
    (hs : isScanned (t.label i).kind = true)
    (h : ∀ x ∈ Piece.read (t.label i).characters, ∀ d, x.meaning = .ok (some d) →
      d.kind ≠ .sectionBegin) :
    Rescans path tally t kids root p l i r (replaced (Piece.read (t.label i).characters))
      (segments path place (t.label i)) := by
  -- What stands after a directive is a shorter leaf.
  induction hlen : (t.label i).characters.length using Nat.strong_induction_on
    generalizing t kids l i place with
  | _ size ih =>
    rw [segments_eq]
    cases hfind : Opening.find? ⟨0, 0, 0⟩ (t.label i).characters with
    | none =>
      obtain ⟨-, himage⟩ := ne_of_isScanned hs
      have hread : Piece.read (t.label i).characters = last 0 (t.label i).characters ++ [] := by
        rw [List.append_nil]
        exact readFrom_of_none hfind
      rw [hread, replaced_last]
      refine ⟨t, kids, _, .same_leaf hd hk hc, ?_⟩
      exact .passes rfl (visit_over_leaf hd hk hroot hc himage fun _ => hfind) .here
    | some o =>
      dsimp only
      cases hscan : Directive.scan (t.label i).characters o.index with
      | error e =>
        obtain ⟨before, x, after, hread, hx, -⟩ := exists_of_scan_error hfind hscan
        rw [hread, replaced_last, replaced, hx]
        exact ⟨t, _, _, _, .here, rfl, visit_malformed hs hfind hscan⟩
      | ok d =>
        obtain ⟨hread, -, hmeaning⟩ := read_of_scan hfind hscan
        have hbounds := Directive.scan_bounds hscan
        have hkind : d.kind ≠ .sectionBegin :=
          h (directive d.text.toList) (by rw [hread]; simp) { d with start := 0, stop := d.text.length }
            hmeaning
        have hrest : ∀ x ∈ Piece.read ((t.label i).characters.drop d.stop), ∀ d,
            x.meaning = .ok (some d) → d.kind ≠ .sectionBegin := fun x hx =>
          h x (by rw [hread]; simp [hx])
        obtain ⟨t', kids', first, tail, hleaf, hrewrites, htail⟩ :=
          leaf_splices path tally hd hk hc hfind hscan hkind
        have hfirst : Reaches path tally t (.ahead root p (i :: r)) 1 t'
            (.ahead root p (tail ++ r)) := by
          refine .replaces (v := ⟨i, true⟩) rfl hs hleaf ?_
          rw [Cursor.after_resumeAt]
          exact .passes rfl (visit_over_markup _ first hrewrites hroot rfl rfl) .here
        generalize first ++ [.node t.size []] = new at hrewrites
        dsimp only
        rw [if_neg hkind, hread, replaced_last, replaced, hmeaning]
        split_ifs with hempty
        · rw [if_pos hempty] at htail
          subst htail
          rw [List.isEmpty_iff.mp hempty]
          exact ⟨t', kids', new, hrewrites, hfirst⟩
        · rw [if_neg hempty] at htail
          obtain ⟨rfl, hlabel⟩ := htail
          obtain ⟨hk', hrow, hc', hchars⟩ := remainder_ahead hrewrites hlabel
          have hagain := ih ((t.label i).characters.length - d.stop) (by omega)
            { place with before := true } hrewrites.document hk' hc' (by rw [hlabel]; exact hs)
            (by rwa [hchars]) (by rw [hchars, List.length_drop])
          rw [hchars, hlabel] at hagain
          rw [Nat.add_comm]
          cases hseg : segments path { place with before := true } (remainder (t.label i) d o) with
          | error e =>
            rw [hseg] at hagain
            obtain ⟨t'', c', c'', v, hreaches, hnext, hfails⟩ := hagain
            exact ⟨t'', c', c'', v, hfirst.trans hreaches, hnext, hfails⟩
          | ok row =>
            rw [hseg] at hagain
            obtain ⟨t'', kids'', new', hrewrites', hreaches⟩ := hagain
            have hboth := hrewrites.append [.node (t.size + 1) []] hrow (by simpa using hrewrites')
              (fun j hj => hj) (by simp)
            exact ⟨t'', kids'', _, by simpa using hboth, hfirst.trans hreaches⟩

/-- Replacing the first directive of a leaf and reading what was split off again, until nothing is
left, gives the nodes or the first problem that one reading of the whole text gives. In between, the
loop replaces one directive after the other: as many as there are, or as come before the problem. The
parts together are the text, and each stands in the tree; no leaf is empty where there are parts, and
all are of the same sort as the leaf that was cut. -/
theorem rescanning_is_one_reading (path : String) (tally : Tally) (hd : t.Document kids)
    (hk : kids p = l ++ i :: r) (hroot : root ≤ p) (hc : (t.label i).container = false)
    (hs : isScanned (t.label i).kind = true)
    (h : ∀ x ∈ Piece.read (t.label i).characters, ∀ d, x.meaning = .ok (some d) →
      d.kind ≠ .sectionBegin) :
    let n := t.label i
    let pieces := Piece.read n.characters
    pieces.flatMap Piece.characters = n.characters ∧ .raw [] ∉ pieces ∧
    match inOneReading path n with
    | .ok out =>
      (∃ t' kids' new, Rewrites t kids p l [i] r out t' kids' new ∧
        Reaches path tally t (.ahead root p (i :: r)) (pieces.countP Piece.isDirective) t'
          (.ahead root p r) ∧
        ∃ turns, ∀ fuel, walk path (turns + fuel) tally t (.ahead root p (i :: r)) =
          walk path fuel tally t' (.ahead root p r)) ∧
      if pieces = [] then out = [.node n []] else List.Forall₂ (Shows n) pieces out
    | .error e =>
      ∃ t' c turns, Reaches path tally t (.ahead root p (i :: r)) (replaced pieces) t' c ∧
        ∀ fuel, walk path (turns + 1 + fuel) tally t (.ahead root p (i :: r)) =
          (tally, .error e) := by
  intro n pieces
  have hone := segments_eq_inOneReading path ⟨(t.label p).kind, false, false⟩ n h
  have hrescans := rescans path tally ⟨(t.label p).kind, false, false⟩ hd hk hroot hc hs h
  rw [hone] at hrescans
  refine ⟨flatMap_read _, ne_nil_of_mem_readFrom, ?_⟩
  cases hreading : inOneReading path n with
  | error e =>
    rw [hreading] at hrescans
    obtain ⟨t', c, c', v, hreaches, hnext, hfails⟩ := hrescans
    obtain ⟨turns, hturns⟩ := hreaches.exists_turns
    refine ⟨t', c, turns, hreaches, fun fuel => ?_⟩
    rw [Nat.add_assoc, hturns, Nat.add_comm, walk, hnext]
    dsimp only
    rw [hfails]
  | ok row =>
    rw [hreading] at hrescans
    obtain ⟨t', kids', new, hrewrites, hreaches⟩ := hrescans
    obtain ⟨hcount, hshows⟩ := shows_of_inOneReading hreading
    dsimp only
    rw [← hcount]
    exact ⟨⟨t', kids', new, hrewrites, hreaches, hreaches.exists_turns⟩, hshows⟩

/-- A paragraph with two references on two lines. -/
def twoReferences : List Token := paragraphTokens (textTokens "a\x7b@b\x7d\n\x7b$c\x7dd")

theorem rescanning_is_one_reading_twoReferences :
    let pieces : List Piece := [.raw ['a'], .directive ['{', '@', 'b', '}'], .raw ['\n'],
      .directive ['{', '$', 'c', '}'], .raw ['d']]
    let tally : Tally := { nextInline := 0, taken := [] }
    ∃ t kids row, Forest.ofTokens twoReferences = .ok t ∧ t.Document kids ∧ kids 1 = [2] ∧
      Piece.read (t.label 2).characters = pieces ∧
      inOneReading "s.md" (t.label 2) = .ok row ∧ List.Forall₂ (Shows (t.label 2)) pieces row ∧
      ∃ t' kids' new, Rewrites t kids 1 [] [2] [] row t' kids' new ∧
        Reaches "s.md" tally t ⟨0, some 2, true⟩ 2 t' ⟨0, some 1, false⟩ := by
  intro pieces tally
  have heval : (Forest.ofTokens twoReferences).map (fun t => (t.children 1, (t.label 2).container,
      (t.label 2).kind, Piece.read (t.label 2).characters,
      (inOneReading "s.md" (t.label 2)).isOk)) = .ok ([2], false, "text", pieces, true) := by
    decide +kernel
  obtain ⟨t, ht, hfacts⟩ := exists_of_map_ok heval
  obtain ⟨hkids, hc, hkind, hread, hok⟩ : [2] = t.children 1 ∧ false = (t.label 2).container ∧
      "text" = (t.label 2).kind ∧ pieces = Piece.read (t.label 2).characters ∧
      true = (inOneReading "s.md" (t.label 2)).isOk := by
    simpa only [Prod.mk.injEq] using hfacts
  obtain ⟨kids, hd⟩ := (Forest.ofTokens_grown (Q := fun _ _ => True) ht fun _ _ _ => trivial).document
  have hk : kids 1 = [] ++ 2 :: [] := by rw [← hd.linked.children_eq, ← hkids]; rfl
  have hnone : ∀ x ∈ Piece.read (t.label 2).characters, ∀ d, x.meaning = .ok (some d) →
      d.kind ≠ .sectionBegin := by
    have hall : pieces.all (fun x => x.meaning.toOption.join.all (·.kind != .sectionBegin)) = true := by
      decide
    intro x hx d hmeaning
    have hone := List.all_eq_true.mp hall x (hread ▸ hx)
    rw [hmeaning] at hone
    exact bne_iff_ne.mp hone
  obtain ⟨row, hrow⟩ : ∃ row, inOneReading "s.md" (t.label 2) = .ok row := by
    cases hreading : inOneReading "s.md" (t.label 2) with
    | error e => rw [hreading] at hok; cases hok
    | ok row => exact ⟨row, rfl⟩
  obtain ⟨-, -, hresult⟩ := rescanning_is_one_reading "s.md" tally hd hk
    (show 0 ≤ 1 by decide) hc.symm (by rw [← hkind]; rfl) hnone
  rw [hrow, ← hread] at hresult
  obtain ⟨⟨t', kids', new, hrewrites, hreaches, -⟩, hshows⟩ := hresult
  exact ⟨t, kids, row, ht, hd, hk, hread.symm, hrow, hshows, t', kids', new, hrewrites, hreaches⟩

end Expansion

end Hyperstory
