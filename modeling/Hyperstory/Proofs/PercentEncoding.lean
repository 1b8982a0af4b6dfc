import Hyperstory.Url.Percent
import Mathlib.Tactic

/-!
Percent-encoding read back. A text comes back from its encoded form exactly if its own escapes are
such as reading leaves alone.
-/
namespace Hyperstory.Url

variable {a b c d n : Nat} {x : Char} {cs : List Char}

def utf8 (x : Char) : List Nat := (String.utf8EncodeChar x).map UInt8.toNat

def escapes (bytes : List Nat) : List Char := bytes.flatMap escapeByte

theorem encodeChar_eq (x : Char) :
    encodeChar x = if x.isAlphanum || encodeKeeps.contains x then [x] else escapes (utf8 x) := by
  rw [encodeChar, escapes, utf8, List.flatMap_map]

theorem utf8_lt (h : n ∈ utf8 x) : n < 256 := by
  obtain ⟨byte, -, rfl⟩ := List.mem_map.mp h
  exact byte.toNat_lt

theorem hexDigit?_upperHex (h : n < 16) : Text.Entity.hexDigit? (upperHex n) = some n := by
  have hall : ∀ n : Fin 16, Text.Entity.hexDigit? (upperHex n) = some n.val := by decide
  exact hall ⟨n, h⟩

theorem byte?_upperHex (h : n < 256) : byte? (upperHex (n / 16)) (upperHex (n % 16)) = some n := by
  rw [byte?, hexDigit?_upperHex (by omega), hexDigit?_upperHex (by omega)]
  exact congrArg some (by omega)

theorem leadingBytes_escapeByte (h : n < 256) (cs : List Char) :
    leadingBytes (escapeByte n ++ cs) = n :: leadingBytes cs := by
  simp only [escapeByte, List.cons_append, List.nil_append, leadingBytes, byte?_upperHex h]

theorem leadingBytes_escapes {bytes : List Nat} (h : ∀ n ∈ bytes, n < 256) (cs : List Char) :
    leadingBytes (escapes bytes ++ cs) = bytes ++ leadingBytes cs := by
  induction bytes with
  | nil => rfl
  | cons n bytes ih =>
    rw [escapes, List.flatMap_cons, List.append_assoc, leadingBytes_escapeByte (h n (by simp)),
      ← escapes, ih fun m hm => h m (by simp [hm]), List.cons_append]

theorem length_escapes (bytes : List Nat) : (escapes bytes).length = 3 * bytes.length := by
  induction bytes with
  | nil => rfl
  | cons n bytes ih =>
    rw [escapes, List.flatMap_cons, List.length_append, ← escapes, ih, List.length_cons, escapeByte]
    simp only [List.length_cons, List.length_nil]
    omega

theorem leadingBytes_of_ne (h : x ≠ '%') (cs : List Char) : leadingBytes (x :: cs) = [] := by
  unfold leadingBytes
  split
  · rename_i heq
    exact absurd (List.cons.inj heq).1 h
  · rfl

theorem decode_nil : decode [] = [] := by rw [decode, decodeAfter]

theorem decodeAfter_eq (skip : Nat) (cs : List Char) :
    decodeAfter skip cs = decode (cs.drop skip) := by
  induction skip generalizing cs with
  | zero => rfl
  | succ skip ih =>
    cases cs with
    | nil => rw [decodeAfter, List.drop_nil, decode_nil]
    | cons x cs => rw [decodeAfter, ih, List.drop_succ_cons]

theorem decode_cons (h : leadingBytes (x :: cs) = []) : decode (x :: cs) = x :: decode cs := by
  rw [decode, decodeAfter, h]
  rfl

/-- A text is the run of escapes it begins with and what comes after that. -/
theorem decode_run (cs : List Char) :
    decode cs =
      decodeBytes (leadingBytes cs) ++ decode (cs.drop (3 * (leadingBytes cs).length)) := by
  cases cs with
  | nil => simp [leadingBytes, decodeBytes]
  | cons x cs =>
    cases hlead : leadingBytes (x :: cs) with
    | nil => simp [decodeBytes]
    | cons n bytes =>
      rw [decode, decodeAfter, hlead]
      dsimp only
      rw [decodeAfter_eq, List.length_cons,
        show 3 * (bytes.length + 1) = 3 * (bytes.length + 1) - 1 + 1 by omega, List.drop_succ_cons]
      rfl

theorem toNat_lt (x : Char) : x.toNat < 0x110000 := by
  have hvalid : x.toNat < 0xd800 ∨ 0xdfff < x.toNat ∧ x.toNat < 0x110000 := x.valid
  omega

theorem charOr_toNat {count least : Nat} (hleast : least ≤ x.toNat) :
    charOr count x.toNat least = [x] := by
  have hvalid : x.toNat < 0xd800 ∨ 0xdfff < x.toNat ∧ x.toNat < 0x110000 := x.valid
  have hcond : (decide (least ≤ x.toNat) && decide (x.toNat ≤ 0x10ffff) &&
      !(decide (0xd800 ≤ x.toNat) && decide (x.toNat ≤ 0xdfff))) = true := by
    simp only [Bool.and_eq_true, decide_eq_true_eq, Bool.not_eq_true', Bool.and_eq_false_iff,
      decide_eq_false_iff_not]
    omega
  rw [charOr, if_pos hcond, Char.ofNat_toNat]

theorem decodeBytes_one (ha : a < 0x80) (hkeeps : Char.ofNat a ∉ decodeKeeps) (rest : List Nat) :
    decodeBytes (a :: rest) = Char.ofNat a :: decodeBytes rest := by
  rw [decodeBytes.eq_def]
  simp [ha, hkeeps]

theorem decodeBytes_two (ha : a / 32 = 6) (hb : continues b = true) (rest : List Nat) :
    decodeBytes (a :: b :: rest) =
      charOr 2 (a % 32 * 64 + b % 64) 0x80 ++ decodeBytes rest := by
  have hlow : ¬ a < 0x80 := by omega
  rcases rest with _ | ⟨c, _ | ⟨d, rest⟩⟩ <;> rw [decodeBytes.eq_def] <;>
    simp [hlow, ha, hb, decodeBytes]

theorem decodeBytes_three (ha : a / 16 = 14) (hb : continues b = true) (hc : continues c = true)
    (rest : List Nat) :
    decodeBytes (a :: b :: c :: rest) =
      charOr 3 ((a % 16 * 64 + b % 64) * 64 + c % 64) 0x800 ++ decodeBytes rest := by
  have hlow : ¬ a < 0x80 := by omega
  have htwo : a / 32 ≠ 6 := by omega
  rcases rest with _ | ⟨d, rest⟩ <;> rw [decodeBytes.eq_def] <;>
    simp [hlow, htwo, ha, hb, hc, decodeBytes]

theorem decodeBytes_four (ha : a / 8 = 30) (hb : continues b = true) (hc : continues c = true)
    (hd : continues d = true) (rest : List Nat) :
    decodeBytes (a :: b :: c :: d :: rest) =
      charOr 4 (((a % 8 * 64 + b % 64) * 64 + c % 64) * 64 + d % 64) 0x10000 ++
        decodeBytes rest := by
  have hlow : ¬ a < 0x80 := by omega
  have htwo : a / 32 ≠ 6 := by omega
  have hthree : a / 16 ≠ 14 := by omega
  rw [decodeBytes.eq_def]
  simp [hlow, htwo, hthree, ha, hb, hc, hd]

theorem utf8_eq (x : Char) : utf8 x =
    if x.toNat ≤ 0x7f then [x.toNat]
    else if x.toNat ≤ 0x7ff then [x.toNat / 64 + 192, x.toNat % 64 + 128]
    else if x.toNat ≤ 0xffff then
      [x.toNat / 4096 + 224, x.toNat / 64 % 64 + 128, x.toNat % 64 + 128]
    else [x.toNat / 262144 + 240, x.toNat / 4096 % 64 + 128, x.toNat / 64 % 64 + 128,
      x.toNat % 64 + 128] := by
  have hbound := toNat_lt x
  unfold utf8 String.utf8EncodeChar
  dsimp only
  rw [Char.toNat_val]
  split_ifs <;> simp only [List.map_cons, List.map_nil, UInt8.toNat_ofNat', List.cons.injEq,
    and_true] <;> omega

theorem continues_mod (k : Nat) : continues (k % 64 + 128) = true := by
  rw [continues, beq_iff_eq]
  omega

/-- The bytes of a character are read as that character, whatever comes after them. -/
theorem decodeBytes_utf8 (hx : x ∉ decodeKeeps) (rest : List Nat) :
    decodeBytes (utf8 x ++ rest) = x :: decodeBytes rest := by
  have hbound := toNat_lt x
  rw [utf8_eq]
  -- one case for each number of bytes; `hsum` puts the bits together again
  split_ifs with hone htwo hthree
  · rw [List.singleton_append, decodeBytes_one (by omega) (by rwa [Char.ofNat_toNat]),
      Char.ofNat_toNat]
  · have hsum : (x.toNat / 64 + 192) % 32 * 64 + (x.toNat % 64 + 128) % 64 = x.toNat := by omega
    simp only [List.cons_append, List.nil_append]
    rw [decodeBytes_two (by omega) (continues_mod _), hsum, charOr_toNat (by omega),
      List.singleton_append]
  · have hsum : ((x.toNat / 4096 + 224) % 16 * 64 + (x.toNat / 64 % 64 + 128) % 64) * 64 +
        (x.toNat % 64 + 128) % 64 = x.toNat := by omega
    simp only [List.cons_append, List.nil_append]
    rw [decodeBytes_three (by omega) (continues_mod _) (continues_mod _), hsum,
      charOr_toNat (by omega), List.singleton_append]
  · have hsum : (((x.toNat / 262144 + 240) % 8 * 64 + (x.toNat / 4096 % 64 + 128) % 64) * 64 +
        (x.toNat / 64 % 64 + 128) % 64) * 64 + (x.toNat % 64 + 128) % 64 = x.toNat := by omega
    simp only [List.cons_append, List.nil_append]
    rw [decodeBytes_four (by omega) (continues_mod _) (continues_mod _) (continues_mod _), hsum,
      charOr_toNat (by omega), List.singleton_append]

/-- A run of escapes is read together with the run that comes after it. -/
theorem decode_escapes_append {bytes : List Nat} (h : ∀ n ∈ bytes, n < 256) (cs : List Char) :
    decode (escapes bytes ++ cs) = decodeBytes (bytes ++ leadingBytes cs) ++
      decode (cs.drop (3 * (leadingBytes cs).length)) := by
  have hdrop : (escapes bytes ++ cs).drop (3 * (bytes ++ leadingBytes cs).length) =
      cs.drop (3 * (leadingBytes cs).length) := by
    rw [List.length_append, Nat.mul_add, ← length_escapes, List.drop_length_add_append]
  rw [decode_run, leadingBytes_escapes h, hdrop]

/-- A character whose bytes are written out is read back, whatever comes after it. -/
theorem decode_escapes (hx : x ∉ decodeKeeps) (cs : List Char) :
    decode (escapes (utf8 x) ++ cs) = x :: decode cs := by
  rw [decode_escapes_append fun n hn => utf8_lt hn, decodeBytes_utf8 hx, List.cons_append,
    ← decode_run]

theorem toNat_lt_of_mem_decodeKeeps (h : x ∈ decodeKeeps) : x.toNat < 0x80 := by
  have hall : decodeKeeps.all (fun c => decide (c.toNat < 0x80)) = true := by decide
  exact of_decide_eq_true (List.all_eq_true.mp hall x h)

theorem decodeBytes_kept (hx : x ∈ decodeKeeps) (rest : List Nat) :
    decodeBytes (x.toNat :: rest) = escapeByte x.toNat ++ decodeBytes rest := by
  rw [decodeBytes.eq_def]
  simp [toNat_lt_of_mem_decodeKeeps hx, hx]

/-- The escape of a kept character is read as it stands. -/
theorem decode_escapeByte (hx : x ∈ decodeKeeps) (cs : List Char) :
    decode (escapeByte x.toNat ++ cs) = escapeByte x.toNat ++ decode cs := by
  have hlow := toNat_lt_of_mem_decodeKeeps hx
  have hone : escapeByte x.toNat = escapes [x.toNat] := (List.append_nil _).symm
  have hbytes : ∀ n ∈ [x.toNat], n < 256 := fun n hn => by
    rw [List.mem_singleton] at hn
    omega
  rw [hone, decode_escapes_append hbytes, List.singleton_append, decodeBytes_kept hx,
    List.append_assoc, ← decode_run, ← hone]

theorem mem_encodeKeeps (hx : x ≠ '%') (h : x ∈ decodeKeeps) : x ∈ encodeKeeps := by
  have hall : decodeKeeps.all (fun c => c == '%' || encodeKeeps.contains c) = true := by decide
  simpa [hx] using List.all_eq_true.mp hall x h

theorem decode_encodeChar (hx : x ≠ '%') (cs : List Char) :
    decode (encodeChar x ++ cs) = x :: decode cs := by
  rw [encodeChar_eq]
  split_ifs with hkeeps
  · exact decode_cons (leadingBytes_of_ne hx cs)
  · refine decode_escapes (fun h => hkeeps ?_) cs
    simp [mem_encodeKeeps hx h]

theorem encode_cons (hx : x ≠ '%') (cs : List Char) :
    encode (x :: cs) = encodeChar x ++ encode cs := by
  rw [encode]
  exact fun hi lo cs' heq => absurd heq hx

/-- Every percent sign of a text begins an escape, and its digits are of a certain kind. -/
def everyEscape (p : Char → Char → Bool) : List Char → Bool
  | '%' :: hi :: lo :: cs => p hi lo && everyEscape p cs
  | x :: cs => x != '%' && everyEscape p cs
  | [] => true

section

variable {p : Char → Char → Bool}

theorem everyEscape_cons (hx : x ≠ '%') (cs : List Char) :
    everyEscape p (x :: cs) = everyEscape p cs := by
  rw [everyEscape, bne_iff_ne.mpr hx, Bool.true_and]
  exact fun hi lo cs' heq => absurd heq hx

theorem everyEscape_short (h : ∀ hi lo cs', x = '%' → cs = hi :: lo :: cs' → False) :
    everyEscape p (x :: cs) = true ↔ x ≠ '%' ∧ everyEscape p cs = true := by
  rw [everyEscape, Bool.and_eq_true, bne_iff_ne]
  exact h

theorem everyEscape_append {l : List Char} (h : '%' ∉ l) (cs : List Char) :
    everyEscape p (l ++ cs) = everyEscape p cs := by
  induction l with
  | nil => rfl
  | cons x l ih =>
    rw [List.mem_cons, not_or] at h
    rw [List.cons_append, everyEscape_cons (Ne.symm h.1), ih h.2]

theorem everyEscape_concat (hx : x ≠ '%') (hp : ∀ hi, p hi x = false) (cs : List Char) :
    everyEscape p (cs ++ [x]) = everyEscape p cs := by
  fun_induction everyEscape p cs with
  | case1 hi lo cs ih =>
    simp only [List.cons_append, everyEscape]
    rw [ih]
  | case2 y cs hshort ih =>
    by_cases hy : y = '%'
    · subst hy
      rcases cs with _ | ⟨hi, _ | ⟨lo, cs⟩⟩
      · simp [everyEscape]
      · simp [everyEscape, hp]
      · exact (hshort hi lo cs rfl rfl).elim
    · rw [List.cons_append, everyEscape_cons hy, ih, bne_iff_ne.mpr hy, Bool.true_and]
  | case3 => exact everyEscape_cons hx []

theorem everyEscape_of_notMem (h : '%' ∉ cs) : everyEscape p cs = true := by
  have hnil := everyEscape_append (p := p) h []
  rwa [List.append_nil] at hnil

end

/-- The escapes of a text are such as reading leaves alone: capital ones of kept characters. -/
def isSettled : List Char → Bool :=
  everyEscape fun hi lo => decodeKeeps.any fun k => escapeByte k.toNat == ['%', hi, lo]

/-- Every percent sign of a text begins the escape of a byte. -/
def isEscaped : List Char → Bool := everyEscape fun hi lo => (byte? hi lo).isSome

theorem exists_of_isSettled {hi lo : Char} (h : isSettled ('%' :: hi :: lo :: cs) = true) :
    ∃ k ∈ decodeKeeps, escapeByte k.toNat = ['%', hi, lo] ∧ isSettled cs = true := by
  rw [isSettled, everyEscape, Bool.and_eq_true, List.any_eq_true] at h
  obtain ⟨⟨k, hk, hescape⟩, hrest⟩ := h
  exact ⟨k, hk, beq_iff_eq.mp hescape, hrest⟩

/-- What is settled is read back from its encoded form. -/
theorem decode_encode (h : isSettled cs = true) : decode (encode cs) = cs := by
  fun_induction encode cs with
  | case1 hi lo cs hbyte ih =>
    obtain ⟨k, hk, hescape, hrest⟩ := exists_of_isSettled h
    have happend : ∀ rest, '%' :: hi :: lo :: rest = escapeByte k.toNat ++ rest := by
      simp [hescape]
    rw [happend, happend, decode_escapeByte hk, ih hrest]
  | case2 hi lo cs hbyte ih =>
    -- the escape of a kept character is one of a byte
    obtain ⟨k, hk, hescape, -⟩ := exists_of_isSettled h
    have hlow := toNat_lt_of_mem_decodeKeeps hk
    simp only [escapeByte, List.cons.injEq, and_true, true_and] at hescape
    rw [← hescape.1, ← hescape.2, byte?_upperHex (by omega)] at hbyte
    exact absurd rfl hbyte
  | case3 x cs hshort ih =>
    obtain ⟨hx, hrest⟩ := (everyEscape_short hshort).mp h
    rw [decode_encodeChar hx, ih hrest]
  | case4 => exact decode_nil

theorem isEscaped_escapeByte (h : n < 256) (cs : List Char) :
    isEscaped (escapeByte n ++ cs) = isEscaped cs := by
  simp only [isEscaped, escapeByte, List.cons_append, List.nil_append, everyEscape,
    byte?_upperHex h, Option.isSome_some, Bool.true_and]

theorem isEscaped_escapes {bytes : List Nat} (h : ∀ n ∈ bytes, n < 256) (cs : List Char) :
    isEscaped (escapes bytes ++ cs) = isEscaped cs := by
  induction bytes with
  | nil => rfl
  | cons n bytes ih =>
    rw [escapes, List.flatMap_cons, List.append_assoc, isEscaped_escapeByte (h n (by simp)),
      ← escapes, ih fun m hm => h m (by simp [hm])]

theorem isEscaped_encodeChar (x : Char) (cs : List Char) :
    isEscaped (encodeChar x ++ cs) = isEscaped cs := by
  rw [encodeChar_eq]
  split_ifs with hkeeps
  · have hx : x ≠ '%' := by
      rintro rfl
      exact absurd hkeeps (by decide)
    exact everyEscape_cons hx cs
  · exact isEscaped_escapes (fun n hn => utf8_lt hn) cs

theorem isEscaped_encode (cs : List Char) : isEscaped (encode cs) = true := by
  fun_induction encode cs with
  | case1 hi lo cs hbyte ih => exact Bool.and_eq_true_iff.mpr ⟨hbyte, ih⟩
  | case2 hi lo cs hbyte ih => rw [isEscaped_encodeChar, ih]
  | case3 x cs hshort ih => rw [isEscaped_encodeChar, ih]
  | case4 => rfl

theorem isEscaped_drop_run (h : isEscaped cs = true) :
    isEscaped (cs.drop (3 * (leadingBytes cs).length)) = true := by
  fun_induction leadingBytes cs with
  | case1 hi lo cs b hbyte ih =>
    rw [List.length_cons, Nat.mul_add, Nat.mul_one]
    exact ih (Bool.and_eq_true_iff.mp h).2
  | case2 hi lo cs hbyte => exact h
  | case3 cs hshort => exact h

theorem toNat_ofNat (h : n.isValidChar) : (Char.ofNat n).toNat = n := by
  rw [Char.ofNat, dif_pos h]
  rfl

theorem percent_notMem_charOr {count least : Nat} (hleast : 0x80 ≤ least) :
    '%' ∉ charOr count n least := by
  unfold charOr
  split_ifs with hvalid
  · simp only [Bool.and_eq_true, decide_eq_true_eq, Bool.not_eq_true', Bool.and_eq_false_iff,
      decide_eq_false_iff_not] at hvalid
    have hchar : n.isValidChar := by
      unfold Nat.isValidChar
      omega
    intro hmem
    have hn : '%'.toNat = n := by rw [List.mem_singleton.mp hmem, toNat_ofNat hchar]
    have hpercent : '%'.toNat = 37 := rfl
    omega
  · exact fun hmem => absurd (List.eq_of_mem_replicate hmem) (by decide)

theorem isSettled_escapeByte (hx : x ∈ decodeKeeps) (cs : List Char) :
    isSettled (escapeByte x.toNat ++ cs) = isSettled cs := by
  simp only [isSettled, escapeByte, List.cons_append, List.nil_append, everyEscape,
    Bool.and_eq_right_iff_imp]
  exact fun _ => List.any_eq_true.mpr ⟨x, hx, beq_iff_eq.mpr rfl⟩

/-- A byte of ASCII leaves its character or a kept escape. -/
theorem isSettled_ascii (hn : n < 0x80) (cs : List Char) :
    isSettled ((if decodeKeeps.contains (Char.ofNat n) then escapeByte n else [Char.ofNat n]) ++
      cs) = isSettled cs := by
  have hchar : n.isValidChar := .inl (by omega)
  split_ifs with hkeeps
  · have hescape := isSettled_escapeByte (List.contains_iff_mem.mp hkeeps) cs
    rwa [toNat_ofNat hchar] at hescape
  · have hne : Char.ofNat n ≠ '%' := fun heq => hkeeps (by rw [heq]; decide)
    exact everyEscape_cons hne cs

/-- Whatever bytes are read, no other escapes are left of them. -/
theorem isSettled_decodeBytes (bytes : List Nat) (cs : List Char) :
    isSettled (decodeBytes bytes ++ cs) = isSettled cs := by
  have hreplacement : ∀ rest, isSettled (replacement :: rest) = isSettled rest :=
    fun rest => everyEscape_cons (by decide) rest
  have hcharOr : ∀ {count n least : Nat} (rest : List Char), 0x80 ≤ least →
      isSettled (charOr count n least ++ rest) = isSettled rest :=
    fun rest hleast => everyEscape_append (percent_notMem_charOr hleast) rest
  fun_induction decodeBytes bytes
  case case1 => rfl
  case case2 hlow ih => rw [List.append_assoc, isSettled_ascii hlow, ih]
  -- a character of several bytes and what comes after it
  case case3 ih | case4 ih | case5 ih | case7 ih =>
    rw [List.append_assoc, hcharOr _ (by decide), ih]
  case case8 | case10 => exact hcharOr cs (by decide)
  -- a byte that begins no character
  case case6 ih | case9 ih | case11 ih => rw [List.cons_append, hreplacement, ih]
  case case12 => exact hreplacement cs

theorem ne_percent_of_isEscaped (h : isEscaped (x :: cs) = true)
    (hlead : leadingBytes (x :: cs) = []) : x ≠ '%' := by
  rintro rfl
  rcases cs with _ | ⟨hi, _ | ⟨lo, cs⟩⟩
  · exact absurd h (by simp [isEscaped, everyEscape])
  · exact absurd h (by simp [isEscaped, everyEscape])
  · rw [leadingBytes] at hlead
    obtain ⟨b, hb⟩ := Option.isSome_iff_exists.mp (Bool.and_eq_true_iff.mp h).1
    rw [hb] at hlead
    cases hlead

theorem isSettled_decodeAfter {skip : Nat} (h : isEscaped (cs.drop skip) = true) :
    isSettled (decodeAfter skip cs) = true := by
  fun_induction decodeAfter skip cs with
  | case1 skip => rfl
  | case2 skip x cs ih => exact ih h
  | case3 x cs hlead ih =>
    have hx := ne_percent_of_isEscaped h hlead
    rw [isSettled, everyEscape_cons hx]
    exact ih (by rwa [List.drop_zero, isEscaped, everyEscape_cons hx] at h)
  | case4 x cs hlead ih =>
    have hpos : 0 < (leadingBytes (x :: cs)).length := List.length_pos_of_ne_nil hlead
    have hrun : isEscaped ((x :: cs).drop (3 * (leadingBytes (x :: cs)).length)) = true :=
      isEscaped_drop_run h
    rw [show 3 * (leadingBytes (x :: cs)).length = 3 * (leadingBytes (x :: cs)).length - 1 + 1 by
      omega, List.drop_succ_cons] at hrun
    rw [isSettled_decodeBytes, ih hrun]

/-- Text that was encoded is settled when it is read. -/
theorem isSettled_decode_encode (cs : List Char) : isSettled (decode (encode cs)) = true :=
  isSettled_decodeAfter (isEscaped_encode cs)

theorem decode_encode_eq_self_iff : decode (encode cs) = cs ↔ isSettled cs = true :=
  ⟨fun h => h ▸ isSettled_decode_encode cs, decode_encode⟩

/-- A character of encoded text. -/
def isEncoded (x : Char) : Bool := x.isAlphanum || encodeKeeps.contains x || x == '%'

theorem isEncoded_upperHex (h : n < 16) : isEncoded (upperHex n) = true := by
  have hall : ∀ n : Fin 16, isEncoded (upperHex n) = true := by decide
  exact hall ⟨n, h⟩

theorem isEncoded_escapeByte (h : n < 256) : (escapeByte n).all isEncoded = true := by
  simp only [escapeByte, List.all_cons, List.all_nil, Bool.and_true, Bool.and_eq_true]
  exact ⟨by decide, isEncoded_upperHex (by omega), isEncoded_upperHex (by omega)⟩

theorem isEncoded_encodeChar (x : Char) : (encodeChar x).all isEncoded = true := by
  rw [encodeChar_eq]
  split_ifs with hkeeps
  · rw [List.all_cons, isEncoded, hkeeps]
    rfl
  · rw [escapes, List.all_flatMap, List.all_eq_true]
    exact fun n hn => isEncoded_escapeByte (utf8_lt hn)

theorem le_iff_toNat {y : Char} : x ≤ y ↔ x.toNat ≤ y.toNat := UInt32.le_iff_toNat_le

theorem isAlphanum_iff : x.isAlphanum = true ↔
    (65 ≤ x.toNat ∧ x.toNat ≤ 90 ∨ 97 ≤ x.toNat ∧ x.toNat ≤ 122) ∨
      48 ≤ x.toNat ∧ x.toNat ≤ 57 := by
  change (decide ('A'.val ≤ x.val ∧ x.val ≤ 'Z'.val) ||
    decide ('a'.val ≤ x.val) && decide (x.val ≤ 'z'.val) ||
    decide ('0'.val ≤ x.val) && decide (x.val ≤ '9'.val)) = true ↔ _
  simp only [Bool.or_eq_true, Bool.and_eq_true, decide_eq_true_eq, UInt32.le_iff_toNat_le]
  rfl

theorem isEncoded_of_hexDigit? (h : Text.Entity.hexDigit? x = some n) : isEncoded x = true := by
  have halnum : x.isAlphanum = true := by
    rw [isAlphanum_iff]
    unfold Text.Entity.hexDigit? at h
    simp only [le_iff_toNat, Char.reduceToNat] at h
    split_ifs at h <;> omega
  rw [isEncoded, halnum]
  rfl

theorem isEncoded_encode (cs : List Char) : (encode cs).all isEncoded = true := by
  fun_induction encode cs with
  | case1 hi lo cs hbyte ih =>
    obtain ⟨b, hb⟩ := Option.isSome_iff_exists.mp hbyte
    unfold byte? at hb
    split at hb
    · rename_i hhi hlo
      rw [List.all_cons, List.all_cons, List.all_cons, isEncoded_of_hexDigit? hhi,
        isEncoded_of_hexDigit? hlo, ih]
      decide
    · cases hb
  | case2 hi lo cs hbyte ih => rw [List.all_append, isEncoded_encodeChar, ih, Bool.and_self]
  | case3 x cs hshort ih => rw [List.all_append, isEncoded_encodeChar, ih, Bool.and_self]
  | case4 => rfl

end Hyperstory.Url
