import Hyperstory.Proofs.Planning

/-! Filling a template: which text takes the place of which mark. -/
namespace Hyperstory

namespace Text

/-- Words with the texts that take their places. -/
abbrev Table := List (List Char × List Char)

/-- `Substituted table cs out`: all words of the table give way to their texts at once. A text that
was put in is not looked at again. -/
inductive Substituted (table : Table) : List Char → List Char → Prop
  | nil : Substituted table [] []
  | word {word value rest out : List Char} (hword : (word, value) ∈ table)
      (h : Substituted table rest out) : Substituted table (word ++ rest) (value ++ out)
  /-- No word begins here. -/
  | plain {c : Char} {rest out : List Char} (hplain : ∀ e ∈ table, ¬ e.1 <+: c :: rest)
      (h : Substituted table rest out) : Substituted table (c :: rest) (c :: out)

/-- A word begins with `first` and has it at no other place. -/
def Headed (first : Char) (word : List Char) : Prop := ∃ tail, word = first :: tail ∧ first ∉ tail

theorem Headed.not_mem {first : Char} {s t : List Char} (h : Headed first (s ++ t)) (hs : s ≠ []) :
    first ∉ t := by
  obtain ⟨tail, htail, hfirst⟩ := h
  cases s with
  | nil => exact absurd rfl hs
  | cons c s =>
    rw [← (List.cons.inj htail).2] at hfirst
    exact fun hmem => hfirst (List.mem_append_right s hmem)

/-- No word can begin inside of another one or with another one. -/
structure Keyed (first : Char) (table : Table) : Prop where
  headed : ∀ e ∈ table, Headed first e.1
  apart : ∀ e ∈ table, ∀ e' ∈ table, e.1 <+: e'.1 → e = e'

namespace Keyed

variable {first : Char} {table : Table}

theorem singleton {word : List Char} (h : Headed first word) (value : List Char) :
    Keyed first [(word, value)] := by
  constructor
  · intro e he
    obtain rfl := List.mem_singleton.mp he
    exact h
  · intro e he e' he' _
    rw [List.mem_singleton.mp he, List.mem_singleton.mp he']

theorem ne_nil (hk : Keyed first table) {word value : List Char} (h : (word, value) ∈ table) :
    word ≠ [] := by
  obtain ⟨tail, htail, -⟩ := hk.headed _ h
  rintro rfl
  cases htail

/-- No word begins at another character. -/
theorem not_begins (hk : Keyed first table) {c : Char} (hc : c ≠ first) (rest : List Char) :
    ∀ e ∈ table, ¬ e.1 <+: c :: rest := by
  rintro e he ⟨more, hmore⟩
  obtain ⟨tail, htail, -⟩ := hk.headed e he
  rw [htail] at hmore
  exact hc (List.cons.inj hmore).1.symm

/-- Two words with which one text begins are the same. -/
theorem eq_of_begins (hk : Keyed first table) {e e' : List Char × List Char} {cs : List Char}
    (he : e ∈ table) (he' : e' ∈ table) (h : e.1 <+: cs) (h' : e'.1 <+: cs) : e = e' := by
  obtain hle | hle := Nat.le_total e.1.length e'.1.length
  · exact hk.apart e he e' he' (List.prefix_of_prefix_length_le h h' hle)
  · exact (hk.apart e' he' e he (List.prefix_of_prefix_length_le h' h hle)).symm

/-- A word that occurs in a text that begins with another occurs behind it. -/
theorem infix_of_word (hk : Keyed first table) {e e' : List Char × List Char} {rest : List Char}
    (he : e ∈ table) (he' : e' ∈ table) (h : e.1 <:+: e'.1 ++ rest) :
    e = e' ∨ e.1 <:+: rest := by
  obtain ⟨s, t, hst⟩ := h
  rw [List.append_assoc, List.append_eq_append_iff] at hst
  obtain ⟨more, hmore, hrest⟩ | ⟨more, rfl, hrest⟩ := hst
  · cases s with
    | nil => exact .inl (hk.eq_of_begins he he' ⟨t, hrest⟩ ⟨rest, by rw [hmore, List.nil_append]⟩)
    | cons c s =>
      cases more with
      | nil => exact .inr ⟨[], t, hrest⟩
      | cons c' more =>
        -- The word would begin inside of the other.
        obtain ⟨tail, htail, -⟩ := hk.headed e he
        rw [htail] at hrest
        have hfirst := (hmore ▸ hk.headed e' he').not_mem (List.cons_ne_nil c s)
        exact absurd ((List.cons.inj hrest).1 ▸ List.mem_cons_self ..) hfirst
  · exact .inr ⟨more, t, by rw [List.append_assoc, hrest]⟩

end Keyed

namespace Substituted

variable {first : Char} {table : Table} {cs rest x y : List Char}

theorem of_nil (hk : Keyed first table) (h : Substituted table [] y) : y = [] := by
  generalize hcs : [] = cs at h
  cases h with
  | nil => rfl
  | word hword h => exact absurd (List.append_eq_nil_iff.mp hcs.symm).1 (hk.ne_nil hword)
  | plain => cases hcs

theorem of_word (hk : Keyed first table) {word value : List Char} (hword : (word, value) ∈ table)
    (h : Substituted table (word ++ rest) y) :
    ∃ out, Substituted table rest out ∧ y = value ++ out := by
  generalize hcs : word ++ rest = cs at h
  cases h with
  | nil => exact absurd (List.append_eq_nil_iff.mp hcs).1 (hk.ne_nil hword)
  | @word word' value' rest' out hword' h =>
    have heq := hk.eq_of_begins hword hword' ⟨rest, rfl⟩ ⟨rest', hcs.symm⟩
    obtain ⟨rfl, rfl⟩ := Prod.mk.inj heq
    obtain rfl := List.append_cancel_left hcs
    exact ⟨out, h, rfl⟩
  | plain hplain h => exact absurd ⟨rest, hcs⟩ (hplain _ hword)

theorem of_plain {c : Char} (hplain : ∀ e ∈ table, ¬ e.1 <+: c :: rest)
    (h : Substituted table (c :: rest) y) : ∃ out, Substituted table rest out ∧ y = c :: out := by
  generalize hcs : c :: rest = cs at h
  cases h with
  | nil => cases hcs
  | word hword h => exact absurd ⟨_, hcs.symm⟩ (hplain _ hword)
  | plain _ h =>
    obtain ⟨rfl, rfl⟩ := List.cons.inj hcs
    exact ⟨_, h, rfl⟩

theorem unique (hk : Keyed first table) (hx : Substituted table cs x)
    (hy : Substituted table cs y) : x = y := by
  induction hx generalizing y with
  | nil => exact (of_nil hk hy).symm
  | word hword _ ih =>
    obtain ⟨out, hout, rfl⟩ := of_word hk hword hy
    rw [ih hout]
  | plain hplain _ ih =>
    obtain ⟨out, hout, rfl⟩ := of_plain hplain hy
    rw [ih hout]

end Substituted

theorem exists_substituted {first : Char} {table : Table} (hk : Keyed first table)
    (cs : List Char) : ∃ out, Substituted table cs out := by
  induction hn : cs.length using Nat.strong_induction_on generalizing cs with
  | _ n ih =>
    subst hn
    by_cases hword : ∃ e ∈ table, e.1 <+: cs
    · obtain ⟨e, he, rest, rfl⟩ := hword
      have hpos : 0 < e.1.length := List.length_pos_iff.mpr (hk.ne_nil he)
      obtain ⟨out, hout⟩ := ih rest.length (by rw [List.length_append]; omega) rest rfl
      exact ⟨_, .word he hout⟩
    · cases cs with
      | nil => exact ⟨_, .nil⟩
      | cons c rest =>
        obtain ⟨out, hout⟩ := ih rest.length (Nat.lt_succ_self _) rest rfl
        exact ⟨_, .plain (fun e he h => hword ⟨e, he, h⟩) hout⟩

theorem replaceAfter_eq_drop (word value : List Char) (skip : Nat) (cs : List Char) :
    replaceAfter word value skip cs = replaceAfter word value 0 (cs.drop skip) := by
  induction cs generalizing skip with
  | nil => cases skip <;> rfl
  | cons c cs ih =>
    cases skip with
    | zero => rfl
    | succ skip => rw [replaceAfter, ih, List.drop_succ_cons]

/-- Replacing one word is the substitution of a table that has only this word. -/
theorem substituted_replaceAfter {first : Char} {word : List Char} (hword : Headed first word)
    (value cs : List Char) : Substituted [(word, value)] cs (replaceAfter word value 0 cs) := by
  obtain ⟨out, hout⟩ := exists_substituted (Keyed.singleton hword value) cs
  suffices heq : replaceAfter word value 0 cs = out from heq ▸ hout
  obtain ⟨tail, rfl, -⟩ := hword
  induction hout with
  | nil => rfl
  | @word word value' rest out hword _ ih =>
    obtain ⟨rfl, rfl⟩ := Prod.mk.inj (List.mem_singleton.mp hword)
    have hbegins : (first :: tail).isPrefixOf (first :: tail ++ rest) = true :=
      List.isPrefixOf_iff_prefix.mpr ⟨rest, rfl⟩
    rw [List.cons_append] at hbegins ⊢
    rw [replaceAfter, if_pos hbegins, replaceAfter_eq_drop, List.length_cons,
      Nat.add_sub_cancel, List.drop_left, ih]
  | plain hplain _ ih =>
    have hno := hplain _ (List.mem_singleton_self _)
    rw [replaceAfter, if_neg (mt List.isPrefixOf_iff_prefix.mp hno), ih]

theorem substituted_replaceAll {first : Char} {word : String} (hword : Headed first word.toList)
    (value text : String) :
    Substituted [(word.toList, value.toList)] text.toList (replaceAll word value text).toList := by
  rw [replaceAll, String.toList_ofList]
  exact substituted_replaceAfter hword value.toList text.toList

namespace Substituted

variable {first : Char} {table : Table}

/-- Texts behind each other are substituted each for itself if no word lies across their seam. -/
theorem append {a b x y : List Char} (hx : Substituted table a x) (hy : Substituted table b y)
    (hseam : ∀ e ∈ table, ∀ s t, e.1 = s ++ t → s ≠ [] → t ≠ [] → s <:+ a → ¬ t <+: b) :
    Substituted table (a ++ b) (x ++ y) := by
  induction hx with
  | nil => exact hy
  | @word word value rest out hword _ ih =>
    rw [List.append_assoc, List.append_assoc]
    refine .word hword (ih fun e he s t hst hs ht hsuffix => ?_)
    exact hseam e he s t hst hs ht (hsuffix.trans (List.suffix_append ..))
  | @plain c rest out hplain _ ih =>
    refine .plain ?_ (ih fun e he s t hst hs ht hsuffix => ?_)
    · rintro e he ⟨more, hmore⟩
      obtain ⟨t, htext, -⟩ | ⟨t, hword, hmore⟩ := List.append_eq_append_iff.mp
        (show e.1 ++ more = (c :: rest) ++ b from hmore)
      · exact hplain e he ⟨t, htext.symm⟩
      · cases t with
        | nil => exact hplain e he ⟨[], by rw [hword, List.append_nil, List.append_nil]⟩
        | cons c' t =>
          exact hseam e he _ _ hword (List.cons_ne_nil _ _) (List.cons_ne_nil _ _)
            (List.suffix_refl _) ⟨more, hmore.symm⟩
    · exact hseam e he s t hst hs ht (hsuffix.trans (List.suffix_cons ..))

/-- What has no beginning of a word stays. -/
theorem of_append (hk : Keyed first table) {t rest y : List Char} (ht : first ∉ t)
    (h : Substituted table (t ++ rest) y) : ∃ out, Substituted table rest out ∧ y = t ++ out := by
  induction t generalizing y with
  | nil => exact ⟨y, h, rfl⟩
  | cons c t ih =>
    rw [List.mem_cons, not_or] at ht
    obtain ⟨more, hmore, rfl⟩ := of_plain (hk.not_begins (Ne.symm ht.1) (t ++ rest)) h
    obtain ⟨out, hout, rfl⟩ := ih ht.2 hmore
    exact ⟨out, hout, rfl⟩

/-- What does not begin as the texts that were put in stood there before. -/
theorem begins_of_begins {t rest y : List Char} (ht : first ∉ t)
    (hvalues : ∀ e ∈ table, ∃ tail, e.2 = first :: tail) (h : Substituted table rest y)
    (hstarts : t <+: y) : t <+: rest := by
  induction h generalizing t with
  | nil => exact hstarts
  | @word word value rest out hword _ _ =>
    obtain ⟨tail, htail⟩ := hvalues _ hword
    cases t with
    | nil => exact List.nil_prefix
    | cons c t =>
      dsimp only at htail
      rw [htail, List.cons_append, List.cons_prefix_cons] at hstarts
      exact absurd (hstarts.1 ▸ List.mem_cons_self ..) ht
  | @plain c rest out _ _ ih =>
    cases t with
    | nil => exact List.nil_prefix
    | cons c' t =>
      rw [List.cons_prefix_cons] at hstarts ⊢
      exact ⟨hstarts.1, ih (fun hmem => ht (List.mem_cons_of_mem _ hmem)) hstarts.2⟩

/-- Where a word begins does not depend on its text. -/
theorem not_begins_change {word A cs : List Char} (B : List Char)
    (h : ∀ e ∈ (word, A) :: table, ¬ e.1 <+: cs) : ∀ e ∈ (word, B) :: table, ¬ e.1 <+: cs := by
  rw [List.forall_mem_cons] at h ⊢
  exact h

/-- A word that does not occur may have any text. -/
theorem change {word A cs x : List Char} (B : List Char)
    (hx : Substituted ((word, A) :: table) cs x) (hno : ¬ word <:+: cs) :
    Substituted ((word, B) :: table) cs x := by
  induction hx with
  | nil => exact .nil
  | @word word' value rest out hword _ ih =>
    have hrest := ih fun h => hno (h.trans (List.suffix_append ..).isInfix)
    obtain heq | hmem := List.mem_cons.mp hword
    · obtain ⟨rfl, rfl⟩ := Prod.mk.inj heq
      exact absurd (List.prefix_append ..).isInfix hno
    · exact .word (List.mem_cons_of_mem _ hmem) hrest
  | plain hplain _ ih =>
    exact .plain (not_begins_change B hplain) (ih fun h => hno (List.infix_cons h))

section

variable {word A B cs x y : List Char} (hA : Keyed first ((word, A) :: table))
  (hB : Keyed first ((word, B) :: table))

include hA hB

/-- A word that occurs in a text that begins with another one of both tables occurs behind it, or
has the same text in both. -/
theorem infix_of_mem {word' value rest : List Char} (hmem : (word', value) ∈ table)
    (h : word <:+: word' ++ rest) : A = B ∨ word <:+: rest := by
  obtain heq | hinside :=
    hA.infix_of_word (List.mem_cons_self ..) (List.mem_cons_of_mem _ hmem) h
  · rw [← heq] at hmem
    have hsame := hB.apart _ (List.mem_cons_of_mem _ hmem) _ (List.mem_cons_self ..)
      (List.prefix_refl word)
    exact .inl (Prod.mk.inj hsame).2
  · exact .inr hinside

/-- Two tables that differ in the text for one word give texts whose lengths differ by a multiple of
what the lengths of the two texts differ by. -/
theorem exists_length (hx : Substituted ((word, A) :: table) cs x)
    (hy : Substituted ((word, B) :: table) cs y) :
    ∃ k, x.length + k * B.length = y.length + k * A.length ∧ (word <:+: cs → A = B ∨ 0 < k) := by
  induction hx generalizing y with
  | nil =>
    obtain rfl := of_nil hB hy
    refine ⟨0, by rw [Nat.zero_mul, Nat.zero_mul], fun h => ?_⟩
    exact absurd (List.eq_nil_of_infix_nil h) (hA.ne_nil (List.mem_cons_self ..))
  | @word word' value rest out hword _ ih =>
    obtain heq | hmem := List.mem_cons.mp hword
    · obtain ⟨rfl, rfl⟩ := Prod.mk.inj heq
      obtain ⟨out', hout', rfl⟩ := of_word hB (List.mem_cons_self ..) hy
      obtain ⟨k, hk, -⟩ := ih hout'
      refine ⟨k + 1, ?_, fun _ => .inr (Nat.succ_pos k)⟩
      rw [List.length_append, List.length_append, Nat.succ_mul, Nat.succ_mul]
      omega
    · obtain ⟨out', hout', rfl⟩ := of_word hB (List.mem_cons_of_mem _ hmem) hy
      obtain ⟨k, hk, hoccurs⟩ := ih hout'
      refine ⟨k, by rw [List.length_append, List.length_append]; omega, fun h => ?_⟩
      exact (infix_of_mem hA hB hmem h).elim .inl hoccurs
  | @plain c rest out hplain _ ih =>
    obtain ⟨out', hout', rfl⟩ := of_plain (not_begins_change B hplain) hy
    obtain ⟨k, hk, hoccurs⟩ := ih hout'
    refine ⟨k, by rw [List.length_cons, List.length_cons]; omega, fun h => ?_⟩
    exact hoccurs ((List.infix_cons_iff.mp h).resolve_left (hplain _ (List.mem_cons_self ..)))

/-- Two texts of one length for a word that occurs give different texts. -/
theorem eq_of_length_eq (hlength : A.length = B.length)
    (hx : Substituted ((word, A) :: table) cs x) (hy : Substituted ((word, B) :: table) cs y)
    (hxy : x = y) (hoccurs : word <:+: cs) : A = B := by
  induction hx generalizing y with
  | nil => exact absurd (List.eq_nil_of_infix_nil hoccurs) (hA.ne_nil (List.mem_cons_self ..))
  | @word word' value rest out hword _ ih =>
    obtain heq | hmem := List.mem_cons.mp hword
    · obtain ⟨rfl, rfl⟩ := Prod.mk.inj heq
      obtain ⟨out', -, rfl⟩ := of_word hB (List.mem_cons_self ..) hy
      exact List.append_inj_left hxy hlength
    · obtain ⟨out', hout', rfl⟩ := of_word hB (List.mem_cons_of_mem _ hmem) hy
      exact (infix_of_mem hA hB hmem hoccurs).elim id
        (ih hout' (List.append_cancel_left hxy))
  | @plain c rest out hplain _ ih =>
    obtain ⟨out', hout', rfl⟩ := of_plain (not_begins_change B hplain) hy
    exact ih hout' (List.cons.inj hxy).2
      ((List.infix_cons_iff.mp hoccurs).resolve_left (hplain _ (List.mem_cons_self ..)))

/-- Another text for a word makes no difference exactly if the word does not occur or the text is
the same. -/
theorem change_iff (hx : Substituted ((word, A) :: table) cs x) :
    Substituted ((word, B) :: table) cs x ↔ ¬ word <:+: cs ∨ A = B := by
  constructor
  · intro hy
    by_cases hoccurs : word <:+: cs
    · obtain ⟨k, hk, hpos⟩ := exists_length hA hB hx hy
      obtain heq | hpos := hpos hoccurs
      · exact .inr heq
      · have hlength : A.length = B.length :=
          (Nat.eq_of_mul_eq_mul_left hpos (Nat.add_left_cancel hk)).symm
        exact .inr (eq_of_length_eq hA hB hlength hx hy rfl hoccurs)
    · exact .inl hoccurs
  · rintro (hno | rfl)
    · exact hx.change B hno
    · exact hx

end

/-- Substituting one word and then another substitutes both at once, except that the second is also
looked for in the text for the first. -/
theorem of_two {u v value inserted story cs mid out : List Char}
    (hk : Keyed first [(u, inserted), (v, story)]) (huv : u ≠ v)
    (hvalue : ∃ tail, value = first :: tail)
    (hseam : ∀ s t, v = s ++ t → s ≠ [] → t ≠ [] → ¬ s <:+ value)
    (hinserted : Substituted [(v, story)] value inserted)
    (hmid : Substituted [(u, value)] cs mid) (hout : Substituted [(v, story)] mid out) :
    Substituted [(u, inserted), (v, story)] cs out := by
  have hmemu : (u, inserted) ∈ [(u, inserted), (v, story)] := List.mem_cons_self ..
  have hmemv : (v, story) ∈ [(u, inserted), (v, story)] :=
    List.mem_cons_of_mem _ (List.mem_singleton_self _)
  have hku : Keyed first [(u, value)] := .singleton (hk.headed _ hmemu) value
  have hkv : Keyed first [(v, story)] := .singleton (hk.headed _ hmemv) story
  obtain ⟨vtail, rfl, hv⟩ : Headed first v := hk.headed _ hmemv
  obtain ⟨both, hboth⟩ := exists_substituted hk cs
  suffices heq : out = both from heq ▸ hboth
  induction hboth generalizing mid out with
  | nil =>
    obtain rfl := of_nil hku hmid
    exact of_nil hkv hout
  | @word word _ rest both hword _ ih =>
    obtain heq | hmem := List.mem_cons.mp hword
    · obtain ⟨rfl, rfl⟩ := Prod.mk.inj heq
      obtain ⟨mid, hrest, rfl⟩ := of_word hku (List.mem_singleton_self _) hmid
      obtain ⟨more, hmore⟩ := exists_substituted hkv mid
      have hparts := hinserted.append hmore (List.forall_mem_singleton.mpr
        fun s t hst hs ht hsuffix _ => hseam s t hst hs ht hsuffix)
      rw [unique hkv hout hparts, ih hrest hmore]
    · obtain ⟨rfl, rfl⟩ := Prod.mk.inj (List.mem_singleton.mp hmem)
      -- The first word begins neither with the second nor inside of it.
      have hno : ∀ e ∈ [(u, value)], ¬ e.1 <+: first :: (vtail ++ rest) := by
        rw [List.forall_mem_singleton]
        intro hstarts
        exact huv (Prod.mk.inj (hk.eq_of_begins hmemu hmemv hstarts ⟨rest, rfl⟩)).1
      obtain ⟨_, hbehind, rfl⟩ := of_plain hno hmid
      obtain ⟨mid, hrest, rfl⟩ := of_append hku hv hbehind
      obtain ⟨more, hmore, rfl⟩ := of_word hkv (List.mem_singleton_self _) hout
      rw [ih hrest hmore]
  | @plain c rest both hplain _ ih =>
    obtain ⟨hplainu, hplainv⟩ := List.forall_mem_cons.mp hplain
    have hnou : ∀ e ∈ [(u, value)], ¬ e.1 <+: c :: rest :=
      List.forall_mem_singleton.mpr hplainu
    obtain ⟨mid, hrest, rfl⟩ := of_plain hnou hmid
    -- The second word would have to run into a text for the first one, which begins anew.
    have hnov : ∀ e ∈ [(first :: vtail, story)], ¬ e.1 <+: c :: mid := by
      rw [List.forall_mem_singleton] at hplainv ⊢
      intro hstarts
      rw [List.cons_prefix_cons] at hstarts
      refine hplainv (List.cons_prefix_cons.mpr ⟨hstarts.1, ?_⟩)
      exact begins_of_begins hv (List.forall_mem_singleton.mpr hvalue) hrest hstarts.2
    obtain ⟨more, hmore, rfl⟩ := of_plain hnov hout
    rw [ih hrest hmore]

/-- Putting a text for a word changes nothing exactly if the word does not occur or is the text. -/
theorem self_iff {word : List Char} (hword : Headed first word) (value cs : List Char) :
    Substituted [(word, value)] cs cs ↔ ¬ word <:+: cs ∨ value = word := by
  have hself : Substituted [(word, word)] cs cs := by
    obtain ⟨out, hout⟩ := exists_substituted (Keyed.singleton hword word) cs
    suffices heq : out = cs by rwa [heq] at hout
    induction hout with
    | nil => rfl
    | word hword _ ih =>
      obtain ⟨rfl, rfl⟩ := Prod.mk.inj (List.mem_singleton.mp hword)
      rw [ih]
    | plain _ _ ih => rw [ih]
  rw [change_iff (.singleton hword word) (.singleton hword value) hself, eq_comm (a := value)]

end Substituted

end Text

namespace Page

open Text

/-- What takes the places of a template's marks. -/
def marks (script story : String) : Table :=
  [(scriptMark.toList, script.toList), (storyMark.toList, story.toList)]

theorem headed_scriptMark : Headed '<' scriptMark.toList := ⟨_, rfl, by decide⟩

theorem headed_storyMark : Headed '<' storyMark.toList := ⟨_, rfl, by decide⟩

theorem keyed_marks (script story : String) : Keyed '<' (marks script story) := by
  have hscript : ¬ scriptMark.toList <+: storyMark.toList := by decide
  have hstory : ¬ storyMark.toList <+: scriptMark.toList := by decide
  constructor
  · intro e he
    obtain rfl | he := List.mem_cons.mp he
    · exact headed_scriptMark
    · obtain rfl := List.mem_singleton.mp he
      exact headed_storyMark
  · intro e he e' he' hstarts
    obtain rfl | he := List.mem_cons.mp he <;> obtain rfl | he' := List.mem_cons.mp he'
    · rfl
    · obtain rfl := List.mem_singleton.mp he'
      exact absurd hstarts hscript
    · obtain rfl := List.mem_singleton.mp he
      exact absurd hstarts hstory
    · rw [List.mem_singleton.mp he, List.mem_singleton.mp he']

theorem toList_scriptElement (script : String) :
    (scriptElement script).toList =
      "<script>var exports = \x7b\x7d;".toList ++ script.toList ++ "</script>".toList := by
  unfold scriptElement
  rw [String.toList_append (s := "<script>var exports = \x7b\x7d;" ++ script) (t := "</script>"),
    String.toList_append (s := "<script>var exports = \x7b\x7d;") (t := script)]

theorem mem_of_suffix {s a : List Char} {c : Char} (hs : s ≠ []) (h : s <:+ a ++ [c]) : c ∈ s := by
  obtain ⟨more, hmore⟩ := h
  rw [← List.dropLast_append_getLast hs, ← List.append_assoc] at hmore
  rw [← List.append_inj_right' hmore rfl |> List.singleton_inj.mp]
  exact List.getLast_mem hs

/-- The marks of the story in scripts are those in their part of the page: none can lie across its
ends. -/
theorem substituted_scriptElement {script inserted html : String}
    (h : Substituted [(storyMark.toList, html.toList)] script.toList inserted.toList) :
    Substituted [(storyMark.toList, html.toList)] (scriptElement script).toList
      (scriptElement inserted).toList := by
  have hmark : '!' ∈ storyMark.toList := by decide
  have hself : ∀ cs, '!' ∉ cs → Substituted [(storyMark.toList, html.toList)] cs cs :=
    fun cs hno => (Substituted.self_iff headed_storyMark html.toList cs).mpr
      (.inl fun hinside => hno (hinside.subset hmark))
  rw [toList_scriptElement, toList_scriptElement]
  refine ((hself _ (by decide)).append h ?_).append (hself _ (by decide)) ?_ <;>
    rw [List.forall_mem_singleton] <;> intro s t hst hs ht hsuffix hstarts
  · have hmem : ';' ∈ s :=
      mem_of_suffix (a := "<script>var exports = \x7b\x7d".toList) hs hsuffix
    have hno : ';' ∉ s ++ t := (show storyMark.toList = s ++ t from hst) ▸ by decide
    exact hno (List.mem_append_left t hmem)
  · have hmem : '<' ∈ t := by
      cases t with
      | nil => exact absurd rfl ht
      | cons c t =>
        obtain ⟨more, hmore⟩ := hstarts
        exact (List.cons.inj hmore).1 ▸ List.mem_cons_self ..
    have hheaded : Headed '<' (s ++ t) := hst ▸ headed_storyMark
    exact hheaded.not_mem hs hmem

/-- Nothing that the scripts end with is the beginning of a mark. -/
theorem not_suffix_scriptElement (script : String) {s t : List Char}
    (hst : storyMark.toList = s ++ t) (hs : s ≠ []) (ht : t ≠ []) :
    ¬ s <:+ (scriptElement script).toList := by
  intro hsuffix
  have hend : (scriptElement script).toList =
      ("<script>var exports = \x7b\x7d;".toList ++ script.toList ++ "</script".toList) ++ ['>'] := by
    rw [toList_scriptElement, List.append_assoc (_ ++ script.toList)]
    rfl
  have hmem := mem_of_suffix hs (hend ▸ hsuffix)
  have hno : '>' ∉ storyMark.toList.dropLast := by decide
  rw [hst, List.dropLast_append_of_ne_nil ht] at hno
  exact hno (List.mem_append_left _ hmem)

/-- Scripts and story take the places of a template's marks at once, except that a mark of the story
in the scripts is one too. -/
theorem exists_fill (template html script start : String) :
    ∃ inserted body : String,
      Substituted [(storyMark.toList, html.toList)] script.toList inserted.toList ∧
      Substituted (marks (scriptElement inserted) html) template.toList body.toList ∧
      fill template html script start = body ++ startElement start := by
  have hinserted := substituted_replaceAll headed_storyMark html script
  have hmid := substituted_replaceAll headed_scriptMark (scriptElement script) template
  have hbody := substituted_replaceAll headed_storyMark html
    (replaceAll scriptMark (scriptElement script) template)
  refine ⟨_, _, hinserted, ?_, rfl⟩
  have hne : scriptMark.toList ≠ storyMark.toList := by decide
  have hseam : ∀ s t, storyMark.toList = s ++ t → s ≠ [] → t ≠ [] →
      ¬ s <:+ (scriptElement script).toList := fun s t hst hs ht =>
    not_suffix_scriptElement script hst hs ht
  exact Substituted.of_two (keyed_marks _ _) hne ⟨_, toList_scriptElement script⟩ hseam
    (substituted_scriptElement hinserted) hmid hbody

theorem scriptElement_toList_inj {a b : String}
    (h : (scriptElement a).toList = (scriptElement b).toList) : a = b := by
  rw [toList_scriptElement, toList_scriptElement] at h
  exact String.toList_inj.mp (List.append_cancel_left (List.append_cancel_right h))

/-- The scripts stand in a page as they are exactly if there is no place for them, they have no mark
of the story, or the story is this mark. -/
theorem substituted_verbatim_iff {template html script inserted body : String}
    (hinserted : Substituted [(storyMark.toList, html.toList)] script.toList inserted.toList)
    (hbody : Substituted (marks (scriptElement inserted) html) template.toList body.toList) :
    Substituted (marks (scriptElement script) html) template.toList body.toList ↔
      ¬ scriptMark.toList <:+: template.toList ∨ ¬ storyMark.toList <:+: script.toList ∨
        html = storyMark := by
  have hverbatim : (scriptElement inserted).toList = (scriptElement script).toList ↔
      ¬ storyMark.toList <:+: script.toList ∨ html = storyMark := by
    rw [← String.toList_inj, ← Substituted.self_iff headed_storyMark]
    constructor
    · intro h
      exact scriptElement_toList_inj h ▸ hinserted
    · intro h
      rw [toList_scriptElement, toList_scriptElement,
        Substituted.unique (.singleton headed_storyMark _) hinserted h]
  rw [← hverbatim]
  exact Substituted.change_iff (keyed_marks _ _) (keyed_marks _ _) hbody

end Page

namespace Build

open Run Text Page

/-- A page is its template with scripts and story in the places of the two marks, and the part that
opens the first section behind it. A mark of the story in the scripts gives way too, so the scripts
are put in as they are exactly if there is no place for them, they have no such mark, or the story
is this mark. -/
theorem fillTemplate_substitutes {p : Project} {w : Workspace} {l : Location}
    {template : String} (hl : p.resolveTemplate.value w = .ok l)
    (htemplate : text w (.ofLocation l) = .ok template) (html script : String) :
    ∃ inserted body : String,
      (fillTemplate p html script).value w = .ok (body ++ startElement p.settings.start) ∧
      Substituted [(storyMark.toList, html.toList)] script.toList inserted.toList ∧
      Substituted (marks (scriptElement inserted) html) template.toList body.toList ∧
      (Substituted (marks (scriptElement script) html) template.toList body.toList ↔
        ¬ scriptMark.toList <:+: template.toList ∨ ¬ storyMark.toList <:+: script.toList ∨
          html = storyMark) := by
  obtain ⟨inserted, body, hinserted, hbody, hfill⟩ :=
    exists_fill template html script p.settings.start
  have hvalue :=
    value_fillTemplate (value_readTemplate_eq_ok_iff.mpr ⟨l, hl, htemplate⟩) html script
  exact ⟨inserted, body, hfill ▸ hvalue, hinserted, hbody, substituted_verbatim_iff hinserted hbody⟩

/-- A project with a template that has both marks. -/
def markedTemplate : Workspace :=
  { disk := ⟨[(["s"], .directory), (["s", "template.html"],
      .file "<!--\x7bscript\x7d-->|<!--\x7bstory\x7d-->".toUTF8)]⟩ }

def markedProject : Project := ⟨["s"], {}⟩

theorem resolveTemplate_markedProject :
    markedProject.resolveTemplate.value markedTemplate = .ok ["s", "template.html"] := by
  decide +kernel

theorem text_markedTemplate :
    text markedTemplate (.ofLocation ["s", "template.html"]) =
      .ok "<!--\x7bscript\x7d-->|<!--\x7bstory\x7d-->" := by
  decide +kernel

theorem fillTemplate_substitutes_markedTemplate :
    let template := "<!--\x7bscript\x7d-->|<!--\x7bstory\x7d-->"
    let script := "a<!--\x7bstory\x7d-->b"
    markedProject.resolveTemplate.value markedTemplate = .ok ["s", "template.html"] ∧
    text markedTemplate (.ofLocation ["s", "template.html"]) = .ok template ∧
    ∃ inserted body : String,
      (fillTemplate markedProject "<p>" script).value markedTemplate =
        .ok (body ++ startElement "Start") ∧
      Substituted [(storyMark.toList, "<p>".toList)] script.toList inserted.toList ∧
      Substituted (marks (scriptElement inserted) "<p>") template.toList body.toList ∧
      (Substituted (marks (scriptElement script) "<p>") template.toList body.toList ↔
        ¬ scriptMark.toList <:+: template.toList ∨ ¬ storyMark.toList <:+: script.toList ∨
          "<p>" = storyMark) :=
  ⟨resolveTemplate_markedProject, text_markedTemplate,
    fillTemplate_substitutes resolveTemplate_markedProject text_markedTemplate "<p>"
      "a<!--\x7bstory\x7d-->b"⟩

/-- The story stands inside of the scripts, where no mark of the template is. -/
theorem script_not_verbatim :
    ∃ body : String,
      (fillTemplate markedProject "<p>" "a<!--\x7bstory\x7d-->b").value markedTemplate =
        .ok (body ++ startElement "Start") ∧
      ¬ Substituted (marks (scriptElement "a<!--\x7bstory\x7d-->b") "<p>")
        "<!--\x7bscript\x7d-->|<!--\x7bstory\x7d-->".toList body.toList := by
  obtain ⟨inserted, body, hinserted, hbody, hfill⟩ :=
    exists_fill "<!--\x7bscript\x7d-->|<!--\x7bstory\x7d-->" "<p>" "a<!--\x7bstory\x7d-->b" "Start"
  have hvalue := value_fillTemplate (value_readTemplate_eq_ok_iff.mpr
    ⟨_, resolveTemplate_markedProject, text_markedTemplate⟩) "<p>" "a<!--\x7bstory\x7d-->b"
  have hplace : scriptMark.toList <:+: "<!--\x7bscript\x7d-->|<!--\x7bstory\x7d-->".toList := by
    decide
  have hmark : storyMark.toList <:+: "a<!--\x7bstory\x7d-->b".toList := by decide
  refine ⟨body, hfill ▸ hvalue, fun hverbatim => ?_⟩
  obtain hno | hno | heq := (substituted_verbatim_iff hinserted hbody).mp hverbatim
  · exact hno hplace
  · exact hno hmark
  · exact absurd heq (by decide)

end Build

end Hyperstory
