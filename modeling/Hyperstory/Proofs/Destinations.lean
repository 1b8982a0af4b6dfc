import Hyperstory.Directive
import Hyperstory.Markdown.Link
import Hyperstory.Proofs.PercentEncoding

/-!
Destinations in braces on their way through a document: what is kept of one is read back as it was
written.
-/
namespace Hyperstory

namespace Text

variable {cs l : List Char}

theorem dropWhile_isBlank (h : ∀ x ∈ cs.head?, isBlank x = false) : cs.dropWhile isBlank = cs := by
  cases cs with
  | nil => rfl
  | cons x cs => rw [List.dropWhile_cons_of_neg (by simp [h x rfl])]

theorem strip_eq_self (hhead : ∀ x ∈ cs.head?, isBlank x = false)
    (hlast : ∀ x ∈ cs.getLast?, isBlank x = false) : strip cs = cs := by
  rw [← List.head?_reverse] at hlast
  rw [strip, stripBy, dropWhile_isBlank hhead, dropWhile_isBlank hlast, List.reverse_reverse]

end Text

namespace Url

variable {x : Char} {cs inner : List Char}

/-- Neither a protocol nor a host stands at the beginning. -/
structure OnlyPath (cs : List Char) : Prop where
  protocol : protocol? cs = none
  slashes : "//".toList.isPrefixOf cs = false

theorem OnlyPath.of_head (hx : isProtocolChar x = false) (hslash : x ≠ '/') :
    OnlyPath (x :: cs) where
  protocol := by
    rw [protocol?, List.takeWhile_cons_of_neg (by simp [hx])]
    rfl
  slashes := by simp [List.isPrefixOf, Ne.symm hslash]

@[simp]
theorem protocol_readPath (u : Url) (cs : List Char) : (readPath u cs).protocol = u.protocol := rfl

@[simp]
theorem slashes_readPath (u : Url) (cs : List Char) : (readPath u cs).slashes = u.slashes := rfl

/-- A host changes nothing of what was read before it. -/
theorem exists_readHost (u : Url) (cs : List Char) : ∃ auth hostname portDigits,
    (readHost u cs).1 = { u with auth, hostname, portDigits } := by
  unfold readHost
  exact ⟨_, _, _, rfl⟩

@[simp]
theorem protocol_readHost (u : Url) (cs : List Char) :
    (readHost u cs).1.protocol = u.protocol := by
  obtain ⟨auth, hostname, portDigits, h⟩ := exists_readHost u cs
  rw [h]

@[simp]
theorem slashes_readHost (u : Url) (cs : List Char) :
    (readHost u cs).1.slashes = u.slashes := by
  obtain ⟨auth, hostname, portDigits, h⟩ := exists_readHost u cs
  rw [h]

theorem OnlyPath.parse_eq (h : OnlyPath (Text.strip cs)) :
    parse cs = readPath {} (Text.strip cs) := by
  unfold parse
  simp only [h.protocol, h.slashes, Option.getD_none, List.length_nil, List.drop_zero,
    Bool.false_and, Option.isSome_none, Bool.or_self, Bool.and_false, Bool.false_eq_true, if_false]

/-- A destination that is only a path is written as a whole. -/
theorem OnlyPath.format_eq (h : OnlyPath (Text.strip cs)) {write : List Char → List Char}
    (hnil : write [] = []) (f : List Char → Option (List Char)) :
    format write (mapHost f (parse cs)) = write (Text.strip cs) := by
  have hhost : mapHost f (readPath {} (Text.strip cs)) = readPath {} (Text.strip cs) := rfl
  have hparts : ∀ text, (readPath {} text).path ++ (readPath {} text).search ++
      (readPath {} text).fragment = text := by
    intro text
    unfold readPath
    dsimp only
    rw [List.prefix_iff_eq_append.mp (List.takeWhile_prefix _),
      List.prefix_iff_eq_append.mp (List.takeWhile_prefix _)]
  rw [h.parse_eq, hhost, format, hparts]
  simp [readPath, hnil]

def braced (inner : List Char) : List Char := '{' :: (inner ++ ['}'])

def bracedEncoded (mid : List Char) : List Char := "%7B".toList ++ mid ++ "%7D".toList

theorem head?_braced (inner : List Char) : (braced inner).head? = some '{' := rfl

theorem getLast?_braced (inner : List Char) : (braced inner).getLast? = some '}' :=
  List.getLast?_eq_some_iff.mpr ⟨'{' :: inner, rfl⟩

theorem eq_braced (hopen : cs.head? = some '{') (hclose : cs.getLast? = some '}') :
    ∃ inner, cs = braced inner := by
  obtain ⟨tail, rfl⟩ := List.head?_eq_some_iff.mp hopen
  have hne : tail ≠ [] := by
    rintro rfl
    exact absurd hclose (by decide)
  rw [List.getLast?_cons_of_ne_nil hne] at hclose
  obtain ⟨inner, rfl⟩ := List.getLast?_eq_some_iff.mp hclose
  exact ⟨inner, rfl⟩

theorem encode_append_brace (cs : List Char) :
    encode (cs ++ ['}']) = encode cs ++ "%7D".toList := by
  fun_induction encode cs with
  | case1 hi lo cs hbyte ih =>
    simp only [List.cons_append]
    rw [encode, if_pos hbyte, ih]
  | case2 hi lo cs hbyte ih =>
    simp only [List.cons_append] at ih ⊢
    rw [encode, if_neg hbyte, ih, List.append_assoc]
  | case3 x cs hshort ih =>
    by_cases hx : x = '%'
    · subst hx
      rcases cs with _ | ⟨hi, _ | ⟨lo, cs⟩⟩
      · decide
      · have hbyte : byte? hi '}' = none := by
          rw [byte?, show Text.Entity.hexDigit? '}' = none by decide]
          cases Text.Entity.hexDigit? hi <;> rfl
        simp only [List.cons_append, List.nil_append] at ih ⊢
        rw [encode, if_neg (by simp [hbyte]), ih, List.append_assoc]
      · exact (hshort hi lo cs rfl rfl).elim
    · rw [List.cons_append, encode_cons hx, ih, List.append_assoc]
  | case4 => decide

theorem isSettled_append_brace (cs : List Char) : isSettled (cs ++ ['}']) = isSettled cs := by
  have hall : decodeKeeps.all (fun k => upperHex (k.toNat % 16) != '}') = true := by decide
  have hdigit : ∀ k ∈ decodeKeeps, upperHex (k.toNat % 16) ≠ '}' :=
    fun k hk => bne_iff_ne.mp (List.all_eq_true.mp hall k hk)
  refine everyEscape_concat (by decide) (fun hi => List.any_eq_false.mpr fun k hk => ?_) cs
  simp [escapeByte, hdigit k hk]

theorem encode_braced (inner : List Char) :
    encode (braced inner) = bracedEncoded (encode inner) := by
  rw [braced, bracedEncoded, encode_cons (by decide), encode_append_brace, ← List.append_assoc,
    show encodeChar '{' = "%7B".toList by decide]

theorem isSettled_braced (inner : List Char) : isSettled (braced inner) = isSettled inner := by
  rw [braced, isSettled, everyEscape_cons (by decide), ← isSettled, isSettled_append_brace]

theorem strip_braced (inner : List Char) : Text.strip (braced inner) = braced inner := by
  apply Text.strip_eq_self
  · rw [head?_braced]
    rintro _ ⟨⟩
    decide
  · rw [getLast?_braced]
    rintro _ ⟨⟩
    decide

theorem strip_bracedEncoded (mid : List Char) :
    Text.strip (bracedEncoded mid) = bracedEncoded mid := by
  have hhead : (bracedEncoded mid).head? = some '%' := rfl
  have hlast : (bracedEncoded mid).getLast? = some 'D' :=
    List.getLast?_eq_some_iff.mpr ⟨"%7B".toList ++ mid ++ "%7".toList, by simp [bracedEncoded]⟩
  apply Text.strip_eq_self
  · rw [hhead]
    rintro _ ⟨⟩
    decide
  · rw [hlast]
    rintro _ ⟨⟩
    decide

/-- A destination in such braces is read by its escapes alone. -/
theorem decodeDestination_bracedEncoded (mid : List Char) :
    decodeDestination (String.ofList (bracedEncoded mid)) =
      String.ofList (decode (bracedEncoded mid)) := by
  have hpath : OnlyPath (Text.strip (bracedEncoded mid)) := by
    rw [strip_bracedEncoded]
    exact .of_head (by decide) (by decide)
  have hne : (String.ofList (bracedEncoded mid)).isEmpty = false := by simp [bracedEncoded]
  rw [decodeDestination, hne, String.toList_ofList, readable, hpath.format_eq rfl,
    strip_bracedEncoded]
  rfl

theorem isAllowed_bracedEncoded (mid : List Char) : isAllowed (bracedEncoded mid) = true := by
  rw [isAllowed, strip_bracedEncoded]
  simp [bracedEncoded, beginsWith, List.isPrefixOf]

/-- A destination in braces is kept with its braces written out. -/
theorem href?_braced (inner : List Char) :
    Markdown.href? (braced inner) = some (encode (braced inner)) := by
  have hpath : OnlyPath (Text.strip (braced inner)) := by
    rw [strip_braced]
    exact .of_head (by decide) (by decide)
  have hkept : normalize (braced inner) = encode (braced inner) := by
    rw [normalize, hpath.format_eq (by rw [encode]), strip_braced]
  rw [Markdown.href?, hkept, encode_braced, if_pos (isAllowed_bracedEncoded _)]

/-- It is read as it was written exactly if its escapes are such as reading leaves alone. -/
theorem decodeDestination_encode_iff :
    decodeDestination (String.ofList (encode (braced inner))) = String.ofList (braced inner) ↔
      isSettled inner = true := by
  rw [encode_braced, decodeDestination_bracedEncoded, ← encode_braced, String.ofList_inj,
    decode_encode_eq_self_iff, isSettled_braced]

theorem ofUrl?_braced (inner : List Char) :
    Destination.ofUrl? (String.ofList (braced inner)) = some (Destination.cut inner) := by
  rw [Destination.ofUrl?, String.toList_ofList, getLast?_braced]
  simp [braced]

/-- A destination in braces and without percent signs is kept in letters, digits and marks of ASCII,
and read as it was written, in any script: what stands between the braces is cut at its first
colon. -/
theorem decodeDestination_kept {s : String} (hopen : s.toList.head? = some '{')
    (hclose : s.toList.getLast? = some '}') (hpercent : '%' ∉ s.toList) :
    ∃ href inner, Markdown.href? s.toList = some href ∧ href.all isEncoded = true ∧
      decodeDestination (String.ofList href) = s ∧ s.toList = braced inner ∧
      Destination.ofUrl? (decodeDestination (String.ofList href)) =
        some (Destination.cut inner) := by
  obtain ⟨inner, hs⟩ := eq_braced hopen hclose
  have hinner : '%' ∉ inner := fun h => hpercent (by simp [hs, braced, h])
  have hread : decodeDestination (String.ofList (encode s.toList)) = s := by
    rw [hs, decodeDestination_encode_iff.mpr (everyEscape_of_notMem hinner), ← hs,
      String.ofList_toList]
  refine ⟨encode s.toList, inner, ?_, isEncoded_encode _, hread, hs, ?_⟩
  · rw [hs, href?_braced]
  · rw [hread, ← ofUrl?_braced, ← hs, String.ofList_toList]

/-- Characters of one to four bytes, and marks that end a path and a search. -/
theorem decodeDestination_kept_scripts :
    ∃ href, Markdown.href? "\x7b@Café ДА?#漢字𝄞:inline\x7d".toList = some href ∧
      href.all isEncoded = true ∧
      decodeDestination (String.ofList href) = "\x7b@Café ДА?#漢字𝄞:inline\x7d" ∧
      Destination.ofUrl? (decodeDestination (String.ofList href)) =
        some ⟨"@Café ДА?#漢字𝄞", some "inline"⟩ := by
  obtain ⟨href, inner, hkept, hencoded, hread, -, -⟩ :=
    decodeDestination_kept (s := "\x7b@Café ДА?#漢字𝄞:inline\x7d") (by decide) (by decide) (by decide)
  exact ⟨href, hkept, hencoded, hread, by rw [hread]; decide⟩

end Url

end Hyperstory
