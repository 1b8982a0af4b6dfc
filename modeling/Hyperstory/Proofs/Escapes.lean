import Hyperstory.Proofs.Recursion

/-! Backslashes in texts, read from left to right: three readers that agree on what they take away. -/
namespace Hyperstory

/-- A text that does not end in the middle of an escape. -/
inductive Whole : List Char → Prop where
  | nil : Whole []
  | plain {c : Char} {cs : List Char} (hc : c ≠ '\\') (rest : Whole cs) : Whole (c :: cs)
  | escape (c : Char) {cs : List Char} (rest : Whole cs) : Whole ('\\' :: c :: cs)

/-- A character stands in a text, and no backslash takes it away. -/
def Bare (x : Char) (cs : List Char) : Prop :=
  ∃ before after, cs = before ++ x :: after ∧ Whole before

namespace Bare

variable {x c : Char} {cs : List Char}

theorem not_nil : ¬ Bare x [] := by
  rintro ⟨before, after, h, -⟩
  simp at h

theorem plain_iff (hc : c ≠ '\\') : Bare x (c :: cs) ↔ x = c ∨ Bare x cs := by
  constructor
  · rintro ⟨before, after, h, hwhole⟩
    cases hwhole with
    | nil => exact Or.inl (List.cons.inj h).1.symm
    | plain _ hrest => exact Or.inr ⟨_, after, (List.cons.inj h).2, hrest⟩
    | escape => exact absurd (List.cons.inj h).1 hc
  · rintro (rfl | ⟨before, after, rfl, hwhole⟩)
    · exact ⟨[], cs, rfl, .nil⟩
    · exact ⟨c :: before, after, rfl, .plain hc hwhole⟩

theorem escape_iff (hx : x ≠ '\\') : Bare x ('\\' :: c :: cs) ↔ Bare x cs := by
  constructor
  · rintro ⟨before, after, h, hwhole⟩
    cases hwhole with
    | nil => exact absurd (List.cons.inj h).1.symm hx
    | plain hc _ => exact absurd (List.cons.inj h).1.symm hc
    | escape _ hrest => exact ⟨_, after, (List.cons.inj (List.cons.inj h).2).2, hrest⟩
  · rintro ⟨before, after, rfl, hwhole⟩
    exact ⟨'\\' :: c :: before, after, rfl, .escape c hwhole⟩

theorem not_backslash (hx : x ≠ '\\') : ¬ Bare x ['\\'] := by
  rintro ⟨before, after, h, hwhole⟩
  cases hwhole with
  | nil => exact hx (List.cons.inj h).1.symm
  | plain hc _ => exact hc (List.cons.inj h).1.symm
  | escape => simp at h

end Bare

@[simp]
theorem unescape_nil : unescape [] = [] := by rw [unescape]

theorem unescape_escape (c : Char) (cs : List Char) :
    unescape ('\\' :: c :: cs) = c :: unescape cs := by
  rw [unescape]

theorem unescape_plain {c : Char} (hc : c ≠ '\\') (cs : List Char) :
    unescape (c :: cs) = c :: unescape cs := by
  rw [unescape]
  · exact fun h => absurd h hc
  · exact fun _ _ h => absurd h hc

/-- A character as it is written where backslashes and braces have a meaning. -/
def escapeChar (c : Char) : List Char :=
  if c = '\\' ∨ c = '{' ∨ c = '}' then ['\\', c] else [c]

/-- A text as it is written where backslashes and braces have a meaning. -/
def escape (cs : List Char) : List Char := cs.flatMap escapeChar

section Escape

@[simp]
theorem escape_append (l r : List Char) : escape (l ++ r) = escape l ++ escape r :=
  List.flatMap_append

theorem escape_eq_nil {cs : List Char} (h : escape cs = []) : cs = [] := by
  cases cs with
  | nil => rfl
  | cons c rest =>
    unfold escape escapeChar at h
    rw [List.flatMap_cons] at h
    split_ifs at h <;> simp at h

/-- Writing a text is adding a backslash or nothing before each character. -/
theorem escape_cons (c : Char) (cs : List Char) :
    (escape (c :: cs) = '\\' :: c :: escape cs) ∨
      (escape (c :: cs) = c :: escape cs ∧ c ≠ '\\' ∧ c ≠ '{' ∧ c ≠ '}') := by
  have hcons : escape (c :: cs) = escapeChar c ++ escape cs := List.flatMap_cons
  rw [hcons, escapeChar]
  split_ifs with hc
  · exact Or.inl rfl
  · rw [not_or, not_or] at hc
    exact Or.inr ⟨rfl, hc⟩

theorem unescape_escape_text (cs : List Char) : unescape (escape cs) = cs := by
  induction cs with
  | nil => rfl
  | cons c rest ih =>
    rcases escape_cons c rest with h | ⟨h, hc, -⟩
    · rw [h, unescape_escape, ih]
    · rw [h, unescape_plain hc, ih]

theorem whole_escape (cs : List Char) : Whole (escape cs) := by
  induction cs with
  | nil => exact .nil
  | cons c rest ih =>
    rcases escape_cons c rest with h | ⟨h, hc, -⟩
    · rw [h]
      exact .escape c ih
    · rw [h]
      exact .plain hc ih

theorem not_bare_escape {x : Char} (hx : x = '{' ∨ x = '}') (cs : List Char) :
    ¬ Bare x (escape cs) := by
  have hback : x ≠ '\\' := by
    rcases hx with rfl | rfl <;> decide
  induction cs with
  | nil => exact Bare.not_nil
  | cons c rest ih =>
    rcases escape_cons c rest with h | ⟨h, hc, hopen, hclose⟩
    · rw [h, Bare.escape_iff hback]
      exact ih
    · rw [h, Bare.plain_iff hc, not_or]
      refine ⟨?_, ih⟩
      rcases hx with rfl | rfl
      · exact hopen.symm
      · exact hclose.symm

end Escape

namespace Opening

/-- No opening is found where no brace is bare. -/
theorem find?_eq_none_iff {o : Opening} {cs : List Char} : find? o cs = none ↔ ¬ Bare '{' cs := by
  fun_induction find? o cs with
  | case1 => simp [Bare.not_nil]
  | case2 => simp [Bare.not_backslash]
  | case3 o cs ih => rw [ih, Bare.escape_iff (by decide)]
  | case4 o c cs _ ih => rw [ih, Bare.escape_iff (by decide)]
  | case5 o cs ih =>
    rw [ih, Bare.plain_iff (by decide)]
    simp
  | case6 o cs => simp [Bare.plain_iff]
  | case7 o c cs hend _ hnext _ hbrace ih =>
    rw [ih, Bare.plain_iff (ne_backslash hend hnext), not_or]
    exact ⟨fun h => ⟨fun hc => hbrace hc.symm, h⟩, fun h => h.2⟩

/-- The first bare brace is found, with the number of characters before it. -/
theorem find?_append {before : List Char} (o : Opening) (hwhole : Whole before)
    (hquiet : ¬ Bare '{' before) (after : List Char) :
    ∃ o', find? o (before ++ '{' :: after) = some o' ∧ o'.index = o.index + before.length := by
  induction hwhole generalizing o with
  | nil => exact ⟨o, by simp [find?], rfl⟩
  | @plain c cs hc _ ih =>
    rw [Bare.plain_iff hc, not_or] at hquiet
    obtain ⟨o', hfind, hindex⟩ := ih (o.past c) hquiet.2
    refine ⟨o', by rwa [List.cons_append, find?_plain hc (Ne.symm hquiet.1)], ?_⟩
    rw [hindex, index_past, List.length_cons]
    omega
  | @escape c cs _ ih =>
    rw [Bare.escape_iff (by decide)] at hquiet
    obtain ⟨o', hfind, hindex⟩ := ih ((o.past '\\').past c) hquiet
    refine ⟨o', by rwa [List.cons_append, List.cons_append, find?_escape], ?_⟩
    rw [hindex, index_past, index_past, List.length_cons, List.length_cons]
    omega

/-- An opening is a bare brace, and no brace before it is bare. -/
theorem find?_eq_some {o o' : Opening} {cs : List Char} (h : find? o cs = some o') :
    ∃ before after, cs = before ++ '{' :: after ∧ Whole before ∧ ¬ Bare '{' before ∧
      o'.index = o.index + before.length := by
  rw [find?_eq_some_iff] at h
  induction h with
  | @here o cs => exact ⟨[], cs, rfl, .nil, Bare.not_nil, rfl⟩
  | escape c _ ih =>
    obtain ⟨before, after, rfl, hwhole, hquiet, hindex⟩ := ih
    refine ⟨'\\' :: c :: before, after, rfl, .escape c hwhole, ?_, ?_⟩
    · rwa [Bare.escape_iff (by decide)]
    · rw [hindex, index_past, index_past, List.length_cons, List.length_cons]
      omega
  | @plain _ _ c _ hc hopen _ ih =>
    obtain ⟨before, after, rfl, hwhole, hquiet, hindex⟩ := ih
    refine ⟨c :: before, after, rfl, .plain hc hwhole, ?_, ?_⟩
    · rw [Bare.plain_iff hc, not_or]
      exact ⟨Ne.symm hopen, hquiet⟩
    · rw [hindex, index_past, List.length_cons]
      omega

end Opening

namespace Directive

/-- What stands after the closing brace does not matter. -/
theorem span_append {depth : Int} {cs : List Char} {n : Nat} (h : span depth cs = some n)
    (rest : List Char) : span depth (cs ++ rest) = some n := by
  rw [span_eq_some_iff] at h ⊢
  induction h with
  | escape c _ ih => exact .escape c ih
  | opening _ ih => exact .opening ih
  | closing => exact .closing
  | inner hdepth _ ih => exact .inner hdepth ih
  | plain hc hopen hclose _ ih => exact .plain hc hopen hclose ih

/-- A directive is as long as the text up to its closing brace, and that brace is its end. -/
theorem span_eq_some {depth : Int} {cs : List Char} {n : Nat} (h : span depth cs = some n) :
    ∃ body after, cs = body ++ '}' :: after ∧ n = body.length + 1 ∧
      span depth (body ++ ['}']) = some n := by
  simp only [span_eq_some_iff] at h ⊢
  induction h with
  | escape c _ ih =>
    obtain ⟨body, after, rfl, rfl, hspan⟩ := ih
    exact ⟨'\\' :: c :: body, after, rfl, rfl, .escape c hspan⟩
  | opening _ ih =>
    obtain ⟨body, after, rfl, rfl, hspan⟩ := ih
    exact ⟨'{' :: body, after, rfl, rfl, .opening hspan⟩
  | @closing cs => exact ⟨[], cs, rfl, rfl, .closing⟩
  | inner hdepth _ ih =>
    obtain ⟨body, after, rfl, rfl, hspan⟩ := ih
    exact ⟨'}' :: body, after, rfl, rfl, .inner hdepth hspan⟩
  | @plain _ c _ _ hc hopen hclose _ ih =>
    obtain ⟨body, after, rfl, rfl, hspan⟩ := ih
    exact ⟨c :: body, after, rfl, rfl, .plain hc hopen hclose hspan⟩

/-- The depth stays the same over a text without bare braces. -/
theorem span_quiet {body : List Char} (depth : Int) (hwhole : Whole body)
    (hopen : ¬ Bare '{' body) (hclose : ¬ Bare '}' body) (rest : List Char) :
    span depth (body ++ rest) = (span depth rest).map (· + body.length) := by
  induction hwhole with
  | nil => simp
  | @plain c cs hc _ ih =>
    rw [Bare.plain_iff hc, not_or] at hopen hclose
    rw [List.cons_append, span_plain hc (Ne.symm hopen.1) (Ne.symm hclose.1), ih hopen.2 hclose.2,
      Option.map_map]
    rfl
  | @escape c cs _ ih =>
    rw [Bare.escape_iff (by decide)] at hopen hclose
    rw [List.cons_append, List.cons_append, span, ih hopen hclose, Option.map_map]
    rfl

end Directive

end Hyperstory
