import Hyperstory.Markdown.Delimiter
import Mathlib.Tactic

/-!
Which marks of emphasis belong together. The search for openers jumps over what it has passed before;
it never lands inside a pair, so the pairs it makes are nested.
-/
namespace Hyperstory.Markdown

/-- The delimiter `o` opens what the delimiter `c` closes. -/
def Joined (ds : Array Delimiter) (o c : Nat) : Prop := (ds.getD o default).closer = some c

/-- Pairs of numbers such that each number belongs to at most one pair, and of two pairs one lies
within the other or they lie apart. -/
structure NestedPairs (R : Nat → Nat → Prop) : Prop where
  lt : ∀ o c, R o c → o < c
  opener_unique : ∀ o o' c, R o c → R o' c → o = o'
  closer_unique : ∀ o c c', R o c → R o c' → c = c'
  closer_not_opener : ∀ o c c', R o c → ¬ R c c'
  within : ∀ o c o' c', R o c → R o' c' → o < o' → o' < c → c' < c

namespace Pairing

/-- A search that goes on before `i` does so outside of a pair. -/
def Outside (o c i : Nat) : Prop := c < i ∨ i ≤ o

/-- What holds when the openers of the first `k` delimiters have been looked for. -/
structure Searched (k : Nat) (p : Pairing) : Prop where
  jumps_size : p.jumps.size = k
  order : ∀ o c, Joined p.delimiters o c → o < c ∧ c < k
  flags : ∀ o c, Joined p.delimiters o c → (p.get o).opens = true ∧ (p.get c).opens = false
  unique : ∀ o o' c, Joined p.delimiters o c → Joined p.delimiters o' c → o = o'
  within : ∀ o c o' c', Joined p.delimiters o c → Joined p.delimiters o' c' → o < o' → o' < c →
    c' < c
  /-- Nobody jumps into a pair. -/
  lands : ∀ o c, Joined p.delimiters o c → ∀ i < k, c ≤ i → Outside o c (i - p.jump i)
  /-- A run that may go on has no pairs yet. -/
  run : p.lastPlace ≠ none →
    p.header < k ∧ ∀ o c, Joined p.delimiters o c → c < p.header

theorem openerUpTo_spec {p : Pairing} {closer : Delimiter} {bottom n i o : Nat}
    (h : p.openerUpTo closer bottom n i = some o) :
    o < i ∧ (p.get o).opens = true ∧ (p.get o).closer = none := by
  fun_induction openerUpTo p closer bottom n i with
  | case1 => cases h
  | case2 => cases h
  | case3 n i hi o' opener hfits =>
    obtain rfl := Option.some.inj h
    simp only [Bool.and_eq_true, Option.isNone_iff_eq_none] at hfits
    exact ⟨by omega, hfits.1.1.2, hfits.1.2⟩
  | case4 n i hi o' opener hfits ih =>
    obtain ⟨hlt, hopens, hcloser⟩ := ih h
    exact ⟨by omega, hopens, hcloser⟩

/-- A search that starts outside of a pair ends outside of it. -/
theorem openerUpTo_outside {p : Pairing} {closer : Delimiter} {bottom n i o a b k : Nat}
    (hlands : ∀ j < k, b ≤ j → Outside a b (j - p.jump j)) (hi : i ≤ k) (hout : Outside a b i)
    (h : p.openerUpTo closer bottom n i = some o) : b ≤ o ∨ o < a := by
  fun_induction openerUpTo p closer bottom n i with
  | case1 => cases h
  | case2 => cases h
  | case3 n i hi' o' opener hfits =>
    obtain rfl := Option.some.inj h
    rcases hout with hout | hout <;> omega
  | case4 n i hi' o' opener hfits ih =>
    refine ih (by omega) ?_ h
    rcases hout with hout | hout
    · exact hlands o' (by omega) (by omega)
    · exact .inr (by omega)

section Join

variable {p : Pairing} {o c : Nat}

/-- How many delimiters a pair that begins at `o` lets a search pass over before it. -/
def passed (p : Pairing) (o : Nat) : Nat :=
  if 0 < o && !(p.get (o - 1)).opens then p.jump (o - 1) + 1 else 0

theorem get_join (ho : o < p.delimiters.size) (hc : c < p.delimiters.size) (hoc : o < c)
    (i : Nat) :
    (p.join o c).get i =
      if i = o then { p.get o with closer := some c, closes := false }
      else if i = c then { p.get c with opens := false } else p.get i := by
  unfold get join
  simp only [Array.getD_eq_getD_getElem?, Array.getElem?_modify]
  have hgo := Array.getElem?_eq_getElem ho
  have hgc := Array.getElem?_eq_getElem hc
  grind

theorem jump_join (ho : o < p.jumps.size) (hc : c < p.jumps.size) (i : Nat) :
    (p.join o c).jump i =
      if i = o then p.passed o else if i = c then c - o + p.passed o else p.jump i := by
  unfold jump join passed
  simp only [Array.getD_eq_getD_getElem?, Array.getElem?_setIfInBounds]
  grind

theorem joined_join (ho : o < p.delimiters.size) (hc : c < p.delimiters.size) (hoc : o < c)
    (hfree : (p.get o).closer = none) (a b : Nat) :
    Joined (p.join o c).delimiters a b ↔ a = o ∧ b = c ∨ Joined p.delimiters a b := by
  change ((p.join o c).get a).closer = some b ↔ _ ∨ (p.get a).closer = some b
  rw [get_join ho hc hoc]
  grind

end Join

/-- The state in which the search for the opener of `c` begins. -/
def reach (p : Pairing) (c : Nat) : Pairing :=
  let sameRun := (p.get p.header).mark == (p.get c).mark && p.lastPlace == some (p.get c).place
  { p with
    jumps := p.jumps.push 0
    header := if sameRun then p.header else c
    lastPlace := some ((p.get c).place + 1) }

/-- The place from which the opener of the delimiter that was reached is looked for. -/
def top (p : Pairing) : Nat := p.header - p.jump p.header

theorem reach_header (p : Pairing) (c : Nat) :
    (p.reach c).header = c ∨ (p.reach c).header = p.header ∧ p.lastPlace ≠ none := by
  unfold reach
  dsimp only
  split_ifs with hrun
  · simp only [Bool.and_eq_true, beq_iff_eq] at hrun
    exact .inr ⟨rfl, by simp [hrun.2]⟩
  · exact .inl rfl

/-- What becomes of a delimiter: nothing, or it is joined with an opener that was found. -/
theorem close_cases (p : Pairing) (c : Nat) :
    (∃ bottoms, p.close c = { p.reach c with bottoms }) ∨
      ∃ o bottom n, (p.reach c).openerUpTo (p.get c) bottom n (p.reach c).top = some o ∧
        p.close c = (p.reach c).join o c := by
  unfold close
  dsimp only
  split
  · exact .inl ⟨_, rfl⟩
  · split
    · next o ho => exact .inr ⟨o, _, _, ho, rfl⟩
    · by_cases htop : (p.reach c).top = 0
      · exact .inl ⟨_, if_pos htop⟩
      · exact .inl ⟨_, if_neg htop⟩

theorem jump_reach (p : Pairing) (c i : Nat) : (p.reach c).jump i = p.jump i := by
  unfold jump reach
  simp only [Array.getD_eq_getD_getElem?, Array.getElem?_push]
  grind

namespace Searched

variable {k : Nat} {p : Pairing}

/-- Before any search there are no pairs. -/
theorem start {ds : Array Delimiter} (h : ∀ d ∈ ds, d.closer = none) :
    Searched 0 { delimiters := ds } := by
  have hnone (o c : Nat) : ¬ Joined ds o c := by
    unfold Joined
    rw [Array.getD_eq_getD_getElem?]
    cases hget : ds[o]? with
    | none => exact (Option.some_ne_none c).symm
    | some d =>
      change ¬ d.closer = some c
      simp [h d (Array.mem_of_getElem? hget)]
  exact ⟨rfl, fun o c h => absurd h (hnone o c), fun o c h => absurd h (hnone o c),
    fun o _ c h => absurd h (hnone o c), fun o c _ _ h => absurd h (hnone o c),
    fun o c h => absurd h (hnone o c), fun h => absurd rfl h⟩

theorem jump_eq_zero (h : Searched k p) {i : Nat} (hi : k ≤ i) : p.jump i = 0 := by
  unfold jump
  rw [Array.getD_eq_getD_getElem?, Array.getElem?_eq_none (h.jumps_size.trans_le hi)]
  rfl

theorem top_outside (h : Searched k p) {o c : Nat} (hpair : Joined p.delimiters o c) :
    Outside o c (p.reach k).top := by
  unfold top
  rw [jump_reach]
  rcases p.reach_header k with hheader | ⟨hheader, hrun⟩
  · rw [hheader]
    rw [h.jump_eq_zero le_rfl]
    exact .inl (h.order o c hpair).2
  · rw [hheader]
    obtain ⟨hlt, hbefore⟩ := h.run hrun
    exact h.lands o c hpair _ hlt (hbefore o c hpair).le

theorem of_reach (h : Searched k p) (bottoms : List ((Char × Bool × Nat) × Nat)) :
    Searched (k + 1) { p.reach k with bottoms } where
  jumps_size := by
    change (p.jumps.push 0).size = k + 1
    rw [Array.size_push, h.jumps_size]
  order o c hpair := ⟨(h.order o c hpair).1, (h.order o c hpair).2.trans k.lt_succ_self⟩
  flags := h.flags
  unique := h.unique
  within := h.within
  lands o c hpair i hi hci := by
    change Outside o c (i - (p.reach k).jump i)
    rw [jump_reach]
    rcases Nat.lt_succ_iff_lt_or_eq.mp hi with hi | rfl
    · exact h.lands o c hpair i hi hci
    · rw [h.jump_eq_zero le_rfl]
      exact .inl (h.order o c hpair).2
  run _ := by
    change (p.reach k).header < k + 1 ∧ ∀ o c, Joined p.delimiters o c → c < (p.reach k).header
    rcases p.reach_header k with hheader | ⟨hheader, hrun⟩
    · rw [hheader]
      exact ⟨k.lt_succ_self, fun o c hpair => (h.order o c hpair).2⟩
    · rw [hheader]
      obtain ⟨hlt, hbefore⟩ := h.run hrun
      exact ⟨hlt.trans k.lt_succ_self, hbefore⟩

/-- What lies before a pair is passed over without landing in a pair that ends there. -/
theorem passed_outside (h : Searched k p) {o a b : Nat} (hpair : Joined p.delimiters a b)
    (hb : b < o) (ho : o ≤ k) : Outside a b (o - p.passed o) := by
  unfold passed
  split_ifs
  · rw [show o - (p.jump (o - 1) + 1) = (o - 1) - p.jump (o - 1) by omega]
    exact h.lands a b hpair (o - 1) (by omega) (by omega)
  · exact .inl (by omega)

/-- Once the last delimiter has been joined with an opener outside of all pairs, nobody jumps into a
pair either. -/
theorem join_lands (h : Searched (k + 1) p) {o a b i : Nat} (ho : o < k)
    (hout : ∀ a b, Joined p.delimiters a b → b < k ∧ (b < o ∨ o < a))
    (hpair : a = o ∧ b = k ∨ Joined p.delimiters a b) (hi : i < k + 1) (hbi : b ≤ i) :
    Outside a b (i - (p.join o k).jump i) := by
  rw [jump_join (by rw [h.jumps_size]; omega) (by rw [h.jumps_size]; omega)]
  rcases hpair with ⟨rfl, rfl⟩ | hab
  · obtain rfl : i = b := by omega
    rw [if_neg ho.ne', if_pos rfl]
    exact .inr (by omega)
  · obtain ⟨hbk, hside⟩ := hout a b hab
    split_ifs with hio hik
    · subst hio
      have hlt := (h.order a b hab).1
      exact h.passed_outside hab (by omega) hi.le
    · subst hik
      rw [show i - (i - o + p.passed o) = o - p.passed o by omega]
      rcases hside with hside | hside
      · exact h.passed_outside hab hside (by omega)
      · exact .inr (by omega)
    · exact h.lands a b hab i hi hbi

/-- The last delimiter is joined with an opener that lies outside of all pairs. -/
theorem join (h : Searched (k + 1) p) (hk : k < p.delimiters.size) {o : Nat} (ho : o < k)
    (hopens : (p.get o).opens = true) (hfree : (p.get o).closer = none)
    (hout : ∀ a b, Joined p.delimiters a b → b < k ∧ (b < o ∨ o < a)) :
    Searched (k + 1) (p.join o k) := by
  have hpairs := joined_join (ho.trans hk) hk ho hfree
  have hget := get_join (ho.trans hk) hk ho
  refine ⟨?_, ?_, ?_, ?_, ?_, fun a b hnew i hi hbi => ?_, fun hlast => absurd rfl hlast⟩
  · change ((p.jumps.setIfInBounds _ _).setIfInBounds _ _).size = k + 1
    rw [Array.size_setIfInBounds, Array.size_setIfInBounds, h.jumps_size]
  · intro a b hnew
    rcases (hpairs a b).mp hnew with ⟨rfl, rfl⟩ | hab
    · omega
    · exact h.order a b hab
  · intro a b hnew
    rw [hget, hget]
    rcases (hpairs a b).mp hnew with ⟨rfl, rfl⟩ | hab
    · simp [hopens, ho.ne']
    · obtain ⟨hbk, hside⟩ := hout a b hab
      obtain ⟨ha, hb⟩ := h.flags a b hab
      have hlt := (h.order a b hab).1
      grind
  · intro a a' b hnew hnew'
    rcases (hpairs a b).mp hnew with ⟨rfl, rfl⟩ | hab <;>
      rcases (hpairs a' b).mp hnew' with ⟨rfl, hb⟩ | hab'
    · rfl
    · exact absurd (hout _ _ hab').1 (lt_irrefl _)
    · exact absurd (hb ▸ (hout _ _ hab).1) (lt_irrefl _)
    · exact h.unique a a' b hab hab'
  · intro a b a' b' hnew hnew' hlt hlt'
    rcases (hpairs a b).mp hnew with ⟨rfl, rfl⟩ | hab <;>
      rcases (hpairs a' b').mp hnew' with ⟨rfl, rfl⟩ | hab'
    · omega
    · exact (hout _ _ hab').1
    · have := (hout _ _ hab).2
      omega
    · exact h.within a b a' b' hab hab' hlt hlt'
  · exact h.join_lands ho hout ((hpairs a b).mp hnew) hi hbi

theorem close (h : Searched k p) (hk : k < p.delimiters.size) : Searched (k + 1) (p.close k) := by
  rcases p.close_cases k with ⟨bottoms, hclose⟩ | ⟨o, bottom, n, hfound, hclose⟩
  · rw [hclose]
    exact h.of_reach bottoms
  · rw [hclose]
    obtain ⟨ho, hopens, hfree⟩ := openerUpTo_spec hfound
    have htop : (p.reach k).top ≤ k := by
      have hheader : (p.reach k).header ≤ k := by
        rcases p.reach_header k with hheader | ⟨hheader, hrun⟩
        · exact hheader.le
        · exact hheader ▸ (h.run hrun).1.le
      exact (Nat.sub_le _ _).trans hheader
    refine (h.of_reach _).join hk (by omega) hopens hfree fun a b hab => ?_
    refine ⟨(h.order a b hab).2, ?_⟩
    have hlands : ∀ j < k, b ≤ j → Outside a b (j - (p.reach k).jump j) := fun j => by
      rw [jump_reach]
      exact h.lands a b hab j
    rcases openerUpTo_outside hlands htop (h.top_outside hab) hfound with hbo | hoa
    · refine .inl (lt_of_le_of_ne hbo ?_)
      rintro rfl
      have hclosed : (p.get b).opens = false := (h.flags a b hab).2
      exact absurd (hopens.symm.trans hclosed) (by decide)
    · exact .inr hoa

theorem nesting (h : Searched k p) : NestedPairs (Joined p.delimiters) where
  lt o c hpair := (h.order o c hpair).1
  opener_unique := h.unique
  closer_unique _ _ _ hpair hpair' := Option.some.inj (hpair.symm.trans hpair')
  closer_not_opener o c c' hpair hpair' := by
    have hclosed := (h.flags o c hpair).2
    have hopens := (h.flags c c' hpair').1
    exact absurd (hopens.symm.trans hclosed) (by decide)
  within := h.within

end Searched

end Pairing

end Hyperstory.Markdown
