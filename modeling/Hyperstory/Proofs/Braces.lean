import Mathlib.Order.Bounds.Basic
import Hyperstory.Proofs.Cuts

/-! Where a directive ends: the first brace that closes as many as were opened. -/
namespace Hyperstory

/-- The characters of a text as they are read one by one, each with its position; a backslash
takes the character after it along. -/
def readOff (i : Nat) : List Char → List (Nat × Char)
  | [] => []
  | '\\' :: _ :: cs => (i, '\\') :: readOff (i + 2) cs
  | c :: cs => (i, c) :: readOff (i + 1) cs

/-- How many braces more were opened than closed up to position `j`, with `j` itself. -/
def balance (l : List (Nat × Char)) (j : Nat) : Int :=
  l.countP (fun x => x.1 ≤ j ∧ x.2 = '{') - l.countP (fun x => x.1 ≤ j ∧ x.2 = '}')

/-- A closing brace stands at position `j`, and with it every brace opened from `start` on is
closed. -/
def Closes (literal : List Char) (start j : Nat) : Prop :=
  (j, '}') ∈ readOff start (literal.drop start) ∧ balance (readOff start (literal.drop start)) j = 0

instance (literal : List Char) (start j : Nat) : Decidable (Closes literal start j) :=
  inferInstanceAs (Decidable (_ ∧ _))

section ReadOff

variable {i j : Nat} {c : Char} {cs : List Char}

theorem readOff_plain (hc : c ≠ '\\') : readOff i (c :: cs) = (i, c) :: readOff (i + 1) cs := by
  rw [readOff]
  exact fun _ _ h => absurd h hc

theorem le_of_mem_readOff {x : Nat × Char} (h : x ∈ readOff i cs) : i ≤ x.1 := by
  fun_induction readOff i cs with
  | case1 => simp at h
  | case2 i c cs ih =>
    rcases List.mem_cons.mp h with rfl | h
    · exact Nat.le_refl i
    · have := ih h
      omega
  | case3 i c cs _ ih =>
    rcases List.mem_cons.mp h with rfl | h
    · exact Nat.le_refl i
    · have := ih h
      omega

/-- What a character adds to the count of open braces. -/
def weight (c : Char) : Int := if c = '{' then 1 else if c = '}' then -1 else 0

@[simp]
theorem balance_cons (x : Nat × Char) (l : List (Nat × Char)) :
    balance (x :: l) j = (if x.1 ≤ j then weight x.2 else 0) + balance l j := by
  unfold balance weight
  rw [List.countP_cons, List.countP_cons]
  by_cases hopen : x.2 = '{'
  · by_cases hx : x.1 ≤ j <;> simp [hopen, hx]
    omega
  · by_cases hclose : x.2 = '}'
    · by_cases hx : x.1 ≤ j <;> simp [hclose, hx]
      omega
    · simp [hopen, hclose]

theorem balance_of_lt {l : List (Nat × Char)} (h : ∀ x ∈ l, j < x.1) : balance l j = 0 := by
  induction l with
  | nil => rfl
  | cons x l ih =>
    have hx : ¬ x.1 ≤ j := Nat.not_le.mpr (h x List.mem_cons_self)
    rw [balance_cons, if_neg hx, ih fun y hy => h y (List.mem_cons_of_mem _ hy), Int.zero_add]

/-- Up to position `m` at least one brace is open, with `depth` of them opened before. -/
def StaysOpen (depth : Int) (l : List (Nat × Char)) (m : Nat) : Prop :=
  ∀ x ∈ l, x.1 < m → 0 < depth + balance l x.1

/-- The brace at position `j` is the first that leaves none open. -/
structure FirstClosed (depth : Int) (l : List (Nat × Char)) (j : Nat) : Prop where
  brace : (j, '}') ∈ l
  closed : depth + balance l j = 0
  before : StaysOpen depth l j

variable {k m : Nat} {depth : Int}

theorem balance_head (hk : i < k) :
    balance ((i, c) :: readOff k cs) i = weight c := by
  have hlater : ∀ x ∈ readOff k cs, i < x.1 :=
    fun x hx => Nat.lt_of_lt_of_le hk (le_of_mem_readOff hx)
  rw [balance_cons, if_pos (Nat.le_refl i), balance_of_lt hlater, Int.add_zero]

theorem balance_tail (hk : i < k) {x : Nat × Char} (hx : x ∈ readOff k cs) :
    balance ((i, c) :: readOff k cs) x.1 = weight c + balance (readOff k cs) x.1 := by
  have := le_of_mem_readOff hx
  rw [balance_cons, if_pos (show i ≤ x.1 by omega)]

theorem StaysOpen.cons (hk : i < k) (hhead : 0 < depth + weight c)
    (htail : StaysOpen (depth + weight c) (readOff k cs) m) :
    StaysOpen depth ((i, c) :: readOff k cs) m := by
  intro x hx hlt
  rcases List.mem_cons.mp hx with rfl | hx
  · rwa [balance_head hk]
  · rw [balance_tail hk hx, ← Int.add_assoc]
    exact htail x hx hlt

theorem FirstClosed.cons (hk : i < k) (hhead : 0 < depth + weight c)
    (htail : FirstClosed (depth + weight c) (readOff k cs) j) :
    FirstClosed depth ((i, c) :: readOff k cs) j where
  brace := List.mem_cons_of_mem _ htail.brace
  closed := by
    rw [balance_tail hk htail.brace, ← Int.add_assoc]
    exact htail.closed
  before := htail.before.cons hk hhead

end ReadOff

@[simp]
theorem weight_open : weight '{' = 1 := rfl

@[simp]
theorem weight_close : weight '}' = -1 := rfl

@[simp]
theorem weight_backslash : weight '\\' = 0 := rfl

theorem weight_plain {c : Char} (hopen : c ≠ '{') (hclose : c ≠ '}') : weight c = 0 := by
  rw [weight, if_neg hopen, if_neg hclose]

namespace Directive

variable {depth : Int} {cs : List Char}

/-- Where no end is found, a brace is open all the way. -/
theorem staysOpen_of_span_eq_none (hdepth : 0 < depth) (h : span depth cs = none) (i m : Nat) :
    StaysOpen depth (readOff i cs) m := by
  fun_induction span depth cs generalizing i with
  | case1 => exact fun x hx => absurd hx List.not_mem_nil
  | case2 depth =>
    intro x hx _
    obtain rfl : x = (i, '\\') := by simpa [readOff] using hx
    simpa [readOff, balance] using hdepth
  | case3 depth c cs ih =>
    rw [readOff]
    refine .cons (by omega) (by simpa using hdepth) ?_
    rw [weight_backslash, Int.add_zero]
    exact ih hdepth (Option.map_eq_none_iff.mp h) _
  | case4 depth cs ih =>
    rw [readOff_plain (by decide)]
    refine .cons (by omega) (by rw [weight_open]; omega) ?_
    exact ih (by omega) (Option.map_eq_none_iff.mp h) _
  | case5 => cases h
  | case6 depth cs hone ih =>
    rw [readOff_plain (by decide)]
    refine .cons (by omega) (by rw [weight_close]; omega) ?_
    exact ih (by omega) (Option.map_eq_none_iff.mp h) _
  | case7 depth c cs hend hnext hopen hclose ih =>
    have hweight := weight_plain hopen hclose
    rw [readOff_plain (ne_backslash hend hnext)]
    refine .cons (by omega) (by omega) ?_
    rw [hweight, Int.add_zero]
    exact ih hdepth (Option.map_eq_none_iff.mp h) _

/-- The end that is found is the first brace that leaves none open. -/
theorem firstClosed_of_span_eq_some {n : Nat} (hdepth : 0 < depth) (h : span depth cs = some n)
    (i : Nat) : ∃ k, n = k + 1 ∧ FirstClosed depth (readOff i cs) (i + k) := by
  rw [span_eq_some_iff] at h
  induction h generalizing i with
  | escape c _ ih =>
    obtain ⟨k, rfl, hfirst⟩ := ih hdepth (i + 2)
    refine ⟨k + 2, rfl, ?_⟩
    rw [readOff, show i + (k + 2) = i + 2 + k by omega]
    refine .cons (by omega) (by simpa using hdepth) ?_
    rwa [weight_backslash, Int.add_zero]
  | opening _ ih =>
    obtain ⟨k, rfl, hfirst⟩ := ih (by omega) (i + 1)
    refine ⟨k + 1, rfl, ?_⟩
    rw [readOff_plain (by decide), show i + (k + 1) = i + 1 + k by omega]
    exact .cons (by omega) (by rw [weight_open]; omega) hfirst
  | @closing cs =>
    refine ⟨0, rfl, ?_⟩
    rw [readOff_plain (by decide)]
    refine ⟨List.mem_cons_self, ?_, ?_⟩
    · have hhead : balance ((i, '}') :: readOff (i + 1) cs) i = weight '}' :=
        balance_head (by omega)
      rw [show i + 0 = i from rfl, hhead]
      rfl
    · intro x hx hlt
      have hle : i ≤ x.1 := by
        rcases List.mem_cons.mp hx with rfl | hx
        · exact Nat.le_refl i
        · exact Nat.le_of_succ_le (le_of_mem_readOff hx)
      omega
  | inner hone _ ih =>
    obtain ⟨k, rfl, hfirst⟩ := ih (by omega) (i + 1)
    refine ⟨k + 1, rfl, ?_⟩
    rw [readOff_plain (by decide), show i + (k + 1) = i + 1 + k by omega]
    exact .cons (by omega) (by rw [weight_close]; omega) hfirst
  | plain hc hopen hclose _ ih =>
    obtain ⟨k, rfl, hfirst⟩ := ih hdepth (i + 1)
    have hweight := weight_plain hopen hclose
    refine ⟨k + 1, rfl, ?_⟩
    rw [readOff_plain hc, show i + (k + 1) = i + 1 + k by omega]
    refine .cons (by omega) (by omega) ?_
    rwa [hweight, Int.add_zero]

/-- The end of a directive leaves no escape half read. -/
theorem whole_of_span {n : Nat} (h : span depth cs = some n) : Whole (cs.take (n - 1)) := by
  rw [span_eq_some_iff] at h
  induction h with
  | escape c h ih =>
    obtain ⟨m, rfl⟩ := Nat.exists_eq_add_of_lt h.pos
    exact .escape c ih
  | opening h ih =>
    obtain ⟨m, rfl⟩ := Nat.exists_eq_add_of_lt h.pos
    exact .plain (by decide) ih
  | closing => exact .nil
  | inner _ h ih =>
    obtain ⟨m, rfl⟩ := Nat.exists_eq_add_of_lt h.pos
    exact .plain (by decide) ih
  | plain hc _ _ h ih =>
    obtain ⟨m, rfl⟩ := Nat.exists_eq_add_of_lt h.pos
    exact .plain hc ih

/-- Of two open braces the inner one is closed first. -/
theorem exists_span_of_succ {n : Nat} (hdepth : 0 < depth) (h : span (depth + 1) cs = some n) :
    ∃ m, span depth cs = some m ∧ m < n := by
  fun_induction span depth cs generalizing n with
  | case1 => cases h
  | case2 => cases h
  | case3 depth c cs ih =>
    obtain ⟨n, hn, rfl⟩ := Option.map_eq_some_iff.mp h
    obtain ⟨m, hm, hlt⟩ := ih hdepth hn
    exact ⟨m + 2, by rw [hm]; rfl, by omega⟩
  | case4 depth cs ih =>
    obtain ⟨n, hn, rfl⟩ := Option.map_eq_some_iff.mp h
    obtain ⟨m, hm, hlt⟩ := ih (by omega) hn
    exact ⟨m + 1, by rw [hm]; rfl, by omega⟩
  | case5 cs =>
    rw [span, if_neg (by decide)] at h
    obtain ⟨n, hn, rfl⟩ := Option.map_eq_some_iff.mp h
    exact ⟨1, rfl, Nat.succ_lt_succ (span_pos hn)⟩
  | case6 depth cs hone ih =>
    rw [span, if_neg (by omega), show depth + 1 - 1 = depth - 1 + 1 by omega] at h
    obtain ⟨n, hn, rfl⟩ := Option.map_eq_some_iff.mp h
    obtain ⟨m, hm, hlt⟩ := ih (by omega) hn
    exact ⟨m + 1, by rw [hm]; rfl, by omega⟩
  | case7 depth c cs hend hnext hopen hclose ih =>
    rw [span_plain (ne_backslash hend hnext) hopen hclose] at h
    obtain ⟨n, hn, rfl⟩ := Option.map_eq_some_iff.mp h
    obtain ⟨m, hm, hlt⟩ := ih hdepth hn
    exact ⟨m + 1, by rw [hm]; rfl, by omega⟩

end Directive

/-- What is read from a brace on. -/
theorem drop_of_getElem? {literal : List Char} {start : Nat} {c : Char}
    (h : literal[start]? = some c) : literal.drop start = c :: literal.drop (start + 1) := by
  rw [List.drop_eq_getElem?_toList_append, h]
  rfl

section Scan

variable {literal : List Char} {start j : Nat}

theorem isLeast_closes_of_lt (hj : Closes literal start j)
    (hbefore : ∀ i < j, ¬ Closes literal start i) : IsLeast {j | Closes literal start j} j := by
  refine ⟨hj, fun i hi => ?_⟩
  by_contra hlt
  exact hbefore i (Nat.lt_of_not_le hlt) hi

theorem isLeast_closes (h : FirstClosed 0 (readOff start (literal.drop start)) j) :
    IsLeast {j | Closes literal start j} j := by
  refine isLeast_closes_of_lt ⟨h.brace, by simpa using h.closed⟩ fun i hlt hi => ?_
  have hopen := h.before _ hi.1 hlt
  have hzero := hi.2
  dsimp only at hopen
  omega

theorem not_closes (h : ∀ m, StaysOpen 0 (readOff start (literal.drop start)) m) :
    ¬ Closes literal start j := by
  rintro ⟨hbrace, hzero⟩
  have := h (j + 1) _ hbrace (Nat.lt_succ_self j)
  dsimp only at this
  omega

theorem FirstClosed.opened {cs : List Char} (h : FirstClosed 1 (readOff (start + 1) cs) j) :
    FirstClosed 0 (readOff start ('{' :: cs)) j := by
  rw [readOff_plain (by decide)]
  exact .cons (Nat.lt_succ_self start) (by decide) h

theorem StaysOpen.opened {cs : List Char} {m : Nat} (h : StaysOpen 1 (readOff (start + 1) cs) m) :
    StaysOpen 0 (readOff start ('{' :: cs)) m := by
  rw [readOff_plain (by decide)]
  exact .cons (Nat.lt_succ_self start) (by decide) h

namespace Directive

/-- What can be read where a brace opens: the text up to the first brace that leaves none open, if
there is one, and the kind that the character after the opening brace tells, if it tells one. -/
inductive Scanned (literal : List Char) (start : Nat) : Except Problem Directive → Prop where
  | found {j : Nat} {kind : DirectiveKind}
      (first : FirstClosed 0 (readOff start (literal.drop start)) j)
      (sigil : literal[start + 1]? = some kind.sigil) :
      Scanned literal start (.ok ⟨kind,
        String.ofList (unescape (nameOf kind (literal.extract start (j + 1)))), start, j + 1,
        String.ofList (literal.extract start (j + 1))⟩)
  | meaningless {j : Nat} (first : FirstClosed 0 (readOff start (literal.drop start)) j)
      (sigil : ∀ c ∈ ['{', '@', '#', '$'], literal[start + 1]? ≠ some c) :
      Scanned literal start (.error (.unknown (String.ofList (literal.extract start (j + 1)))))
  | endless (opened : ∀ m, StaysOpen 0 (readOff start (literal.drop start)) m) :
      Scanned literal start
        (.error (.unterminated (String.ofList (literal.extract start (start + 10)))))

theorem ofSigil?_eq_none {c : Char} (h : DirectiveKind.ofSigil? c = none) :
    c ∉ ['{', '@', '#', '$'] := by
  intro hmem
  simp only [List.mem_cons, List.not_mem_nil, or_false] at hmem
  rcases hmem with rfl | rfl | rfl | rfl <;> cases h

/-- The text between two braces is a directive of the kind that its second character tells. -/
theorem Scanned.of_extract (hfirst : FirstClosed 0 (readOff start (literal.drop start)) j)
    (hstart : start < j) (hj : j < literal.length) :
    Scanned literal start (ofText start (literal.extract start (j + 1))) := by
  have hlength : start + (literal.extract start (j + 1)).length = j + 1 := by
    rw [List.extract_eq_take_drop, List.length_take, List.length_drop]
    omega
  have hget : literal[start + 1]? = some literal[start + 1] := List.getElem?_eq_getElem (by omega)
  have hsecond : ((literal.extract start (j + 1)).drop 1).take 1 = [literal[start + 1]] := by
    rw [List.extract_eq_take_drop, List.drop_take, List.drop_drop, List.take_take,
      drop_of_getElem? hget, show min 1 (j + 1 - start - 1) = 1 by omega]
    rfl
  rw [ofText, hsecond, hlength, DirectiveKind.ofText?]
  cases hkind : DirectiveKind.ofSigil? literal[start + 1] with
  | none =>
    refine .meaningless hfirst fun c hc hsigil => ofSigil?_eq_none hkind ?_
    rwa [Option.some.inj (hget.symm.trans hsigil)]
  | some kind => exact .found hfirst (by rw [hget, DirectiveKind.eq_sigil hkind])

theorem scanned (hopen : literal[start]? = some '{') :
    Scanned literal start (scan literal start) := by
  have hdrop := drop_of_getElem? hopen
  have hspan : span 0 (literal.drop start) = (span 1 (literal.drop (start + 1))).map (· + 1) := by
    rw [hdrop, span]
    rfl
  rw [scan, hspan]
  cases hn : span 1 (literal.drop (start + 1)) with
  | none =>
    rw [show (literal.drop start).take 10 = literal.extract start (start + 10) by
      rw [List.extract_eq_take_drop, Nat.add_sub_cancel_left]]
    refine .endless fun m => ?_
    rw [hdrop]
    exact (staysOpen_of_span_eq_none (by decide) hn (start + 1) m).opened
  | some n =>
    obtain ⟨k, rfl, hfirst⟩ := firstClosed_of_span_eq_some (by decide) hn (start + 1)
    have hlength := span_le_length hn
    rw [List.length_drop] at hlength
    have htext : (literal.drop start).take (k + 1 + 1) =
        literal.extract start (start + 1 + k + 1) := by
      rw [List.extract_eq_take_drop, show start + 1 + k + 1 - start = k + 1 + 1 by omega]
    dsimp only [Option.map_some]
    rw [htext]
    refine .of_extract ?_ (by omega) (by omega)
    rw [hdrop]
    exact hfirst.opened

/-- A directive is read whatever stands after its end. -/
theorem scan_take_append {d : Directive} (h : scan literal start = .ok d) (rest : List Char) :
    scan (literal.take d.stop ++ rest) start = .ok d := by
  unfold scan at h
  cases hspan : span 0 (literal.drop start) with
  | none =>
    rw [hspan] at h
    cases h
  | some n =>
    rw [hspan] at h
    have hlength := span_le_length hspan
    rw [List.length_drop] at hlength
    have hpos := span_pos hspan
    have hstop : d.stop = start + n := by
      dsimp only [ofText] at h
      split at h
      · cases h
        dsimp only
        rw [List.length_take, List.length_drop]
        omega
      · cases h
    have htext :
        (literal.take d.stop ++ rest).drop start = (literal.drop start).take n ++ rest := by
      rw [List.drop_append_of_le_length (by rw [List.length_take]; omega), List.drop_take, hstop,
        Nat.add_sub_cancel_left]
    obtain ⟨body, after, hbody, hn, hagain⟩ := span_eq_some hspan
    have htake : (literal.drop start).take n = body ++ ['}'] := by
      rw [hbody, hn, ← List.singleton_append, ← List.append_assoc]
      exact List.take_left' (by simp)
    have hread : span 0 ((literal.drop start).take n ++ rest) = some n := by
      rw [htake]
      exact span_append hagain rest
    have hagain : ((literal.drop start).take n ++ rest).take n = (literal.drop start).take n :=
      List.take_left' (by rw [List.length_take, List.length_drop]; omega)
    rw [scan, htext, hread]
    dsimp only
    rw [hagain]
    exact h

/-- A directive that opens at `start` ends with the first brace read that leaves none open, so it
is there exactly when such a brace is; the character after the opening brace then tells whether
the text means anything, and no character after the end matters. -/
theorem scan_ends_at_first_closing (hopen : literal[start]? = some '{') :
    (((∃ d, scan literal start = .ok d) ∨ ∃ text, scan literal start = .error (.unknown text)) ↔
      ∃ j, Closes literal start j) ∧
    (∀ j, IsLeast {j | Closes literal start j} j →
      (∀ x ∈ readOff start (literal.drop start), x.1 < j →
        0 < balance (readOff start (literal.drop start)) x.1) ∧
      (∀ d, scan literal start = .ok d →
        d.start = start ∧ d.stop = j + 1 ∧ d.text = String.ofList (literal.extract start (j + 1)) ∧
        literal[start + 1]? = some d.kind.sigil) ∧
      ∀ text, scan literal start = .error (.unknown text) →
        text = String.ofList (literal.extract start (j + 1))) ∧
    ((∃ text, scan literal start = .error (.unknown text)) ↔
      (∃ j, Closes literal start j) ∧
        ∀ sigil ∈ ['{', '@', '#', '$'], literal[start + 1]? ≠ some sigil) ∧
    ((∃ near, scan literal start = .error (.unterminated near)) ↔ ¬ ∃ j, Closes literal start j) ∧
    ∀ d, scan literal start = .ok d →
      ∀ rest, scan (literal.take d.stop ++ rest) start = .ok d := by
  have hscanned := scanned hopen
  have hrest : ∀ d, scan literal start = .ok d →
      ∀ rest, scan (literal.take d.stop ++ rest) start = .ok d :=
    fun d => scan_take_append
  generalize scan literal start = r at hscanned hrest ⊢
  cases hscanned with
  | @found j kind hfirst hsigil =>
    have hleast := isLeast_closes hfirst
    refine ⟨?_, fun i hi => ?_, ?_, ?_, hrest⟩
    · exact iff_of_true (.inl ⟨_, rfl⟩) ⟨j, hleast.1⟩
    · obtain rfl := hi.unique hleast
      refine ⟨fun x hx hlt => by simpa using hfirst.before x hx hlt, fun d hd => ?_, nofun⟩
      obtain rfl := Except.ok.inj hd
      exact ⟨rfl, rfl, rfl, hsigil⟩
    · exact iff_of_false nofun fun h => h.2 kind.sigil (by cases kind <;> decide) hsigil
    · exact iff_of_false nofun fun h => h ⟨j, hleast.1⟩
  | @meaningless j hfirst hsigil =>
    have hleast := isLeast_closes hfirst
    refine ⟨?_, fun i hi => ?_, ?_, ?_, hrest⟩
    · exact iff_of_true (.inr ⟨_, rfl⟩) ⟨j, hleast.1⟩
    · obtain rfl := hi.unique hleast
      refine ⟨fun x hx hlt => by simpa using hfirst.before x hx hlt, nofun, fun text htext => ?_⟩
      cases htext
      rfl
    · exact iff_of_true ⟨_, rfl⟩ ⟨⟨j, hleast.1⟩, hsigil⟩
    · exact iff_of_false nofun fun h => h ⟨j, hleast.1⟩
  | endless hopened =>
    have hnone : ¬ ∃ j, Closes literal start j := fun ⟨j, hj⟩ => not_closes hopened hj
    refine ⟨?_, fun j hj => absurd ⟨j, hj.1⟩ hnone, ?_, ?_, hrest⟩
    · exact iff_of_false nofun hnone
    · exact iff_of_false nofun fun h => hnone h.1
    · exact iff_of_true ⟨_, rfl⟩ hnone

/-- A directive with an escaped brace and a pair of braces in its name. -/
def pairedName : List Char := "x\x7b@a\\\x7d\x7bb\x7d\x7dz\x7d".toList

theorem scan_ends_at_first_closing_pairedName :
    pairedName[1]? = some '{' ∧ IsLeast {j | Closes pairedName 1 j} 9 ∧
      ∃ d, scan pairedName 1 = .ok d ∧ d.stop = 10 ∧ d.text = "\x7b@a\\\x7d\x7bb\x7d\x7d" ∧
        ∀ rest, scan (pairedName.take 10 ++ rest) 1 = .ok d := by
  have hopen : pairedName[1]? = some '{' := rfl
  have hleast := isLeast_closes_of_lt (show Closes pairedName 1 9 by decide) (by decide)
  obtain ⟨-, hends, -, -, hrest⟩ := scan_ends_at_first_closing hopen
  have hscan : scan pairedName 1 =
      .ok ⟨.sectionRef, "a\x7d\x7bb\x7d", 1, 10, "\x7b@a\\\x7d\x7bb\x7d\x7d"⟩ := by
    decide +kernel
  obtain ⟨-, hstop, htext, -⟩ := (hends 9 hleast).2.1 _ hscan
  exact ⟨hopen, hleast, _, hscan, hstop, htext, hrest _ hscan⟩

end Directive

end Scan

theorem unescape_append {l : List Char} (hwhole : Whole l) (r : List Char) :
    unescape (l ++ r) = unescape l ++ unescape r := by
  induction hwhole with
  | nil => simp
  | @plain c cs hc _ ih =>
    rw [List.cons_append, unescape_plain hc, unescape_plain hc, ih, List.cons_append]
  | @escape c cs _ ih =>
    rw [List.cons_append, List.cons_append, unescape_escape, unescape_escape, ih, List.cons_append]

namespace Directive

section Sections

variable {literal : List Char} {start : Nat} {d : Directive}

/-- The name of a declaration is cut out by counting: two characters off each end. -/
theorem nameOf_section (inner : List Char) :
    nameOf .sectionBegin ('{' :: '{' :: (inner ++ ['}'])) = inner.dropLast := by
  cases hinner : inner.length with
  | zero =>
    obtain rfl := List.length_eq_zero_iff.mp hinner
    rfl
  | succ n =>
    have hlength : ('{' :: '{' :: (inner ++ ['}'])).length - 2 = n + 2 := by simp [hinner]
    rw [nameOf, hlength, List.dropLast_eq_take, hinner]
    exact List.take_append_of_le_length (by omega)

/-- The text of a declaration: the second brace is closed behind `name`, the first one behind
`tail`, and what is read as the name is all between them but the last character. -/
theorem section_text (hopen : literal[start]? = some '{') (hscan : scan literal start = .ok d)
    (hkind : d.kind = .sectionBegin) :
    ∃ name tail after, Whole name ∧
      literal.drop start = '{' :: '{' :: (name ++ '}' :: tail ++ '}' :: after) ∧
      FirstClosed 0 (readOff (start + 1) (literal.drop (start + 1))) (start + 2 + name.length) ∧
      d.stop = start + name.length + tail.length + 4 ∧
      d.text = String.ofList ('{' :: '{' :: (name ++ '}' :: tail ++ ['}'])) ∧
      d.identifier = String.ofList (unescape (name ++ '}' :: tail).dropLast) := by
  have hsecond : literal[start + 1]? = some '{' := by
    have hscanned := scanned hopen
    rw [hscan] at hscanned
    cases hscanned with
    | found _ hsigil =>
      obtain rfl := hkind
      exact hsigil
  have hdrop := drop_of_getElem? hopen
  have hinner := drop_of_getElem? hsecond
  rw [hinner] at hdrop
  have hspan : span 0 (literal.drop start) =
      ((span 2 (literal.drop (start + 2))).map (· + 1)).map (· + 1) := by
    rw [hdrop, span, span]
    rfl
  rw [scan, hspan] at hscan
  cases hn : span 2 (literal.drop (start + 2)) with
  | none =>
    rw [hn] at hscan
    cases hscan
  | some n =>
    obtain ⟨m, hm, hlt⟩ := exists_span_of_succ Int.one_pos hn
    obtain ⟨name, rest, hname, rfl, -⟩ := span_eq_some hm
    obtain ⟨body, after, hbody, rfl, -⟩ := span_eq_some hn
    obtain ⟨tail, rfl, hrest⟩ :
        ∃ tail, body = name ++ '}' :: tail ∧ rest = tail ++ '}' :: after := by
      rcases List.append_eq_append_iff.mp (hname.symm.trans hbody) with ⟨l, rfl, hl⟩ | ⟨l, rfl, -⟩
      · cases l with
        | nil => simp at hlt
        | cons c tail =>
          obtain ⟨rfl, hrest⟩ := List.cons.inj hl
          exact ⟨tail, rfl, hrest⟩
      · rw [List.length_append] at hlt
        omega
    have hwhole : Whole name := by
      have := whole_of_span hm
      rwa [hname, Nat.add_sub_cancel, List.take_left] at this
    have hfirst : FirstClosed 0 (readOff (start + 1) (literal.drop (start + 1)))
        (start + 2 + name.length) := by
      obtain ⟨k, hk, hfirst⟩ := firstClosed_of_span_eq_some (by decide) hm (start + 2)
      obtain rfl := Nat.succ.inj hk
      rw [hinner]
      exact hfirst.opened
    have htext : (literal.drop start).take ((name ++ '}' :: tail).length + 1 + 1 + 1) =
        '{' :: '{' :: (name ++ '}' :: tail ++ ['}']) := by
      rw [hdrop, hbody, List.append_cons (name ++ '}' :: tail)]
      exact congrArg (fun cs => '{' :: '{' :: cs)
        (List.take_left' (by rw [List.length_append]; rfl))
    rw [hn] at hscan
    dsimp only [Option.map_some] at hscan
    rw [htext] at hscan
    cases hscan
    refine ⟨name, tail, after, hwhole, ?_, hfirst, ?_, rfl, ?_⟩
    · rw [hdrop, hbody]
    · simp
      omega
    · exact congrArg (String.ofList ∘ unescape) (nameOf_section _)

/-- A declaration is named by what stands between its two pairs of braces exactly if the brace that
closes the second opening one stands right before the last. If it closes earlier, that brace ends
up in the name, and the character before the last one is in no name. -/
theorem section_named_between_braces (hopen : literal[start]? = some '{')
    (hscan : scan literal start = .ok d) (hkind : d.kind = .sectionBegin) :
    ((∃ raw, d.text = String.ofList ('{' :: '{' :: (raw ++ ['}', '}'])) ∧
      d.identifier = String.ofList (unescape raw)) ↔ literal[d.stop - 2]? = some '}') ∧
    ∃ k, IsLeast {j | Closes literal (start + 1) j} k ∧ k + 2 ≤ d.stop ∧
      (k + 2 = d.stop →
        d.text = String.ofList ('{' :: '{' :: (literal.extract (start + 2) k ++ ['}', '}'])) ∧
        d.identifier = String.ofList (unescape (literal.extract (start + 2) k))) ∧
      (k + 2 < d.stop → ∃ more lost,
        d.text = String.ofList
          ('{' :: '{' :: (literal.extract (start + 2) k ++ '}' :: (more ++ [lost, '}']))) ∧
        d.identifier = String.ofList
          (unescape (literal.extract (start + 2) k) ++ '}' :: unescape more)) := by
  obtain ⟨name, tail, after, hwhole, hdrop, hfirst, hstop, htext, hid⟩ :=
    section_text hopen hscan hkind
  have hname : literal.extract (start + 2) (start + 2 + name.length) = name := by
    rw [List.extract_eq_take_drop, Nat.add_sub_cancel_left, ← List.drop_drop, hdrop,
      List.append_assoc]
    exact List.take_left
  refine ⟨?_, start + 2 + name.length, isLeast_closes hfirst, by omega, ?_⟩
  · obtain ⟨raw, x, hraw⟩ := (List.eq_nil_or_concat' (name ++ '}' :: tail)).resolve_left (by simp)
    have hlength : name.length + (tail.length + 1) = raw.length + 1 := by
      rw [← List.length_cons, ← List.length_append, hraw, List.length_append, List.length_singleton]
    have hlast : literal[d.stop - 2]? = some x := by
      have hget : literal[start + (raw.length + 2)]? = (literal.drop start)[raw.length + 2]? :=
        List.getElem?_drop.symm
      rw [hstop, show start + name.length + tail.length + 4 - 2 = start + (raw.length + 2) by omega,
        hget, hdrop, hraw]
      simp
    rw [hlast, htext, hid, hraw, List.dropLast_concat]
    constructor
    · rintro ⟨raw', hsame, -⟩
      have hends : raw ++ [x, '}'] = raw' ++ ['}', '}'] := by
        simpa only [String.toList_ofList, List.cons.injEq, true_and, List.append_assoc,
          List.cons_append, List.nil_append] using congrArg String.toList hsame
      simpa using (List.append_inj' hends rfl).2
    · rintro hx
      obtain rfl := Option.some.inj hx
      exact ⟨raw, by simp, rfl⟩
  · rw [hname]
    refine ⟨fun hk => ?_, fun hk => ?_⟩
    · obtain rfl : tail = [] := List.length_eq_zero_iff.mp (by omega)
      rw [htext, hid]
      simp
    · have hne : tail ≠ [] := by
        rintro rfl
        simp at hstop
        omega
      obtain ⟨more, lost, rfl⟩ := (List.eq_nil_or_concat' tail).resolve_left hne
      refine ⟨more, lost, ?_, ?_⟩
      · rw [htext]
        simp
      · rw [hid, ← List.cons_append, ← List.append_assoc, List.dropLast_concat,
          unescape_append hwhole, unescape_plain (by decide)]

/-- A declaration whose second brace is closed before the last character but one. -/
def gappedName : List Char := "\x7b\x7bA\x7db\x7d".toList

/-- There a delimiter ends up in the name, and a character in no name. -/
theorem gappedName_not_between_braces :
    ∃ d, scan gappedName 0 = .ok d ∧ d.kind = .sectionBegin ∧ d.identifier = "A\x7d" ∧
      ¬ ∃ raw, d.text = String.ofList ('{' :: '{' :: (raw ++ ['}', '}'])) ∧
        d.identifier = String.ofList (unescape raw) := by
  refine ⟨⟨.sectionBegin, "A\x7d", 0, 6, "\x7b\x7bA\x7db\x7d"⟩, by decide +kernel, rfl, rfl, ?_⟩
  rintro ⟨raw, htext, -⟩
  have hlast := congrArg (fun s => s.toList.reverse[1]?) htext
  simp at hlast

theorem section_named_between_braces_gappedName :
    ∃ d, (gappedName[0]? = some '{' ∧ scan gappedName 0 = .ok d ∧ d.kind = .sectionBegin) ∧
      IsLeast {j | Closes gappedName 1 j} 3 ∧ ∃ more lost,
        d.text = String.ofList ('{' :: '{' :: ("A".toList ++ '}' :: (more ++ [lost, '}']))) ∧
        d.identifier = String.ofList (unescape "A".toList ++ '}' :: unescape more) := by
  have hopen : gappedName[0]? = some '{' := rfl
  have hscan : scan gappedName 0 =
      .ok ⟨.sectionBegin, "A\x7d", 0, 6, "\x7b\x7bA\x7db\x7d"⟩ := by decide +kernel
  have hleast := isLeast_closes_of_lt (show Closes gappedName 1 3 by decide) (by decide)
  obtain ⟨-, k, hk, -, -, hlost⟩ := section_named_between_braces hopen hscan rfl
  obtain rfl := hk.unique hleast
  exact ⟨_, ⟨hopen, hscan, rfl⟩, hleast, hlost (by decide)⟩

end Sections

end Directive

end Hyperstory
