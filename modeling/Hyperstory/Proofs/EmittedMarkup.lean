import Hyperstory.Proofs.Compiling
import Hyperstory.Proofs.Rescanning

/-!
Reading the markup of a page back. A reader goes over a page from left to right: a value in quotes
runs to the next quote, and references stand for characters. Whatever names, texts and destinations
the author writes, the reader finds the elements that the compiler meant, with those very strings in
their attributes, and goes on right behind them.
-/
namespace Hyperstory

open Hyperstory.Tree Expansion

namespace Html

/-- What a reader meets in a page. -/
inductive Event where
  | opens (name : String) (attrs : List (String × String))
  | closes (name : String)
  | text (c : Char)
  deriving DecidableEq, Repr

/-- The next character, which a reference may stand for, and what follows it. -/
def next? : List Char → Option (Char × List Char)
  | [] => none
  | '&' :: 'a' :: 'm' :: 'p' :: ';' :: cs => some ('&', cs)
  | '&' :: 'l' :: 't' :: ';' :: cs => some ('<', cs)
  | '&' :: 'g' :: 't' :: ';' :: cs => some ('>', cs)
  | '&' :: 'q' :: 'u' :: 'o' :: 't' :: ';' :: cs => some ('"', cs)
  | c :: cs => some (c, cs)

theorem length_of_next? {c : Char} {cs rest : List Char} (h : next? cs = some (c, rest)) :
    rest.length < cs.length := by
  unfold next? at h
  split at h <;> cases h <;> simp only [List.length_cons] <;> omega

def decode (cs : List Char) : List Char :=
  match _hnext : next? cs with
  | none => []
  | some (c, rest) => c :: decode rest
termination_by cs.length
decreasing_by exact length_of_next? _hnext

/-- What stands before the first such character, and what stands after it. -/
def upTo (c : Char) : List Char → Option (List Char × List Char)
  | [] => none
  | x :: cs => if x = c then some ([], cs) else (upTo c cs).map fun (held, rest) => (x :: held, rest)

def attribute? (cs : List Char) : Option ((String × String) × List Char) :=
  match upTo '=' cs with
  | some (name, '"' :: after) =>
    (upTo '"' after).map fun (value, rest) =>
      ((String.ofList name, String.ofList (decode value)), rest)
  | _ => none

theorem length_of_upTo {c : Char} {cs held rest : List Char} (h : upTo c cs = some (held, rest)) :
    rest.length < cs.length := by
  induction cs generalizing held with
  | nil => cases h
  | cons x cs ih =>
    rw [upTo] at h
    split_ifs at h
    · cases h
      simp
    · obtain ⟨⟨held', rest'⟩, hrec, heq⟩ := Option.map_eq_some_iff.mp h
      cases heq
      have := ih hrec
      simp only [List.length_cons]
      omega

theorem length_of_attribute? {a : String × String} {cs rest : List Char}
    (h : attribute? cs = some (a, rest)) : rest.length < cs.length := by
  unfold attribute? at h
  split at h
  · rename_i name after hname
    obtain ⟨⟨value, rest'⟩, hvalue, heq⟩ := Option.map_eq_some_iff.mp h
    cases heq
    have hlt := length_of_upTo hname
    have hlt' := length_of_upTo hvalue
    simp only [List.length_cons] at hlt
    omega
  · cases h

def attributes? (cs : List Char) : Option (List (String × String) × List Char) :=
  match cs with
  | '>' :: rest => some ([], rest)
  | ' ' :: after =>
    match _hattr : attribute? after with
    | none => none
    | some (a, rest) => (attributes? rest).map fun (attrs, rest) => (a :: attrs, rest)
  | _ => none
termination_by cs.length
decreasing_by
  have := length_of_attribute? _hattr
  simp only [List.length_cons]
  omega

/-- A character that is part of the name of an element. -/
def inName (c : Char) : Bool := c != ' ' && c != '>'

/-- A name that can be read back. -/
def isName (name : String) : Bool :=
  !name.toList.isEmpty && name.toList.all fun c => c != '/' && inName c

def tag? (cs : List Char) : Option (Event × List Char) :=
  match cs with
  | '/' :: after => (upTo '>' after).map fun (name, rest) => (.closes (String.ofList name), rest)
  | cs =>
    if (cs.takeWhile inName).isEmpty then none
    else (attributes? (cs.dropWhile inName)).map fun (attrs, rest) =>
      (.opens (String.ofList (cs.takeWhile inName)) attrs, rest)

theorem length_of_attributes? {attrs : List (String × String)} {cs rest : List Char}
    (h : attributes? cs = some (attrs, rest)) : rest.length < cs.length := by
  fun_induction attributes? cs generalizing attrs with
  | case1 rest' => cases h; simp
  | case2 => cases h
  | case3 after a rest' hattr ih =>
    obtain ⟨⟨attrs', rest''⟩, hrec, heq⟩ := Option.map_eq_some_iff.mp h
    cases heq
    have hlt := length_of_attribute? hattr
    have hlt' := ih hrec
    simp only [List.length_cons]
    omega
  | case4 => cases h

theorem length_of_tag? {e : Event} {cs rest : List Char} (h : tag? cs = some (e, rest)) :
    rest.length < cs.length := by
  unfold tag? at h
  split at h
  · obtain ⟨⟨name, rest'⟩, hname, heq⟩ := Option.map_eq_some_iff.mp h
    cases heq
    have := length_of_upTo hname
    simp only [List.length_cons]
    omega
  · split_ifs at h
    obtain ⟨⟨attrs, rest'⟩, hattrs, heq⟩ := Option.map_eq_some_iff.mp h
    cases heq
    have hlt := length_of_attributes? hattrs
    have hle := (List.dropWhile_sublist (l := cs) inName).length_le
    omega

/-- A page from left to right. A bracket that begins no tag is read as it stands. -/
def events (cs : List Char) : List Event :=
  match cs with
  | [] => []
  | '<' :: after =>
    match _htag : tag? after with
    | some (e, rest) => e :: events rest
    | none => .text '<' :: events after
  | c :: cs =>
    match _hnext : next? (c :: cs) with
    | some (c, rest) => .text c :: events rest
    | none => []
termination_by cs.length
decreasing_by
  · have := length_of_tag? _htag
    simp only [List.length_cons]
    omega
  · simp
  · exact length_of_next? _hnext

/-! ### What is escaped is read back -/

section Escaped

variable {c : Char} {cs rest held : List Char}

theorem next?_plain (cs : List Char) (hc : c ≠ '&') : next? (c :: cs) = some (c, cs) := by
  unfold next?
  split <;> simp_all

theorem next?_escapeChar (c : Char) (rest : List Char) :
    next? (escapeChar c ++ rest) = some (c, rest) := by
  unfold escapeChar
  split
  · rfl
  · rfl
  · rfl
  · rfl
  · rename_i hamp _ _ _
    exact next?_plain rest hamp

theorem decode_nil : decode [] = [] := by
  rw [decode]
  rfl

theorem decode_of_next? (h : next? cs = some (c, rest)) : decode cs = c :: decode rest := by
  rw [decode]
  split
  · rename_i hnone
    rw [hnone] at h
    cases h
  · rename_i c' rest' hsome
    rw [hsome] at h
    cases h
    rfl

theorem decode_escape (s : String) : decode (escape s).toList = s.toList := by
  rw [escape, String.toList_ofList]
  induction s.toList with
  | nil => exact decode_nil
  | cons c cs ih => rw [List.flatMap_cons, decode_of_next? (next?_escapeChar c _), ih]

theorem quote_notMem_escape (s : String) : '"' ∉ (escape s).toList := by
  rw [escape, String.toList_ofList]
  intro h
  obtain ⟨c, -, hc⟩ := List.mem_flatMap.mp h
  unfold escapeChar at hc
  split at hc
  · revert hc
    decide
  · revert hc
    decide
  · revert hc
    decide
  · revert hc
    decide
  · rename_i hquote
    exact hquote (List.mem_singleton.mp hc).symm

/-- A character that is written as it stands. -/
def isPlain (c : Char) : Bool := escapeChar c == [c]

theorem escape_eq_self {s : String} (h : s.toList.all isPlain = true) : escape s = s := by
  have hself : s.toList.flatMap escapeChar = s.toList.flatMap fun c => [c] :=
    List.flatMap_congr fun c hc => beq_iff_eq.mp (List.all_eq_true.mp h c hc)
  rw [escape, hself, List.flatMap_singleton', String.ofList_toList]

theorem upTo_append (h : c ∉ held) : upTo c (held ++ c :: rest) = some (held, rest) := by
  induction held with
  | nil => simp [upTo]
  | cons x held ih =>
    have hx : x ≠ c := fun hx => h (hx ▸ List.mem_cons_self)
    rw [List.cons_append, upTo, if_neg hx, ih fun hc => h (List.mem_cons_of_mem x hc)]
    rfl

end Escaped

end Html

namespace Markup

open Html

def tag (name : String) (attrs : List (String × String)) : String :=
  "<" ++ name ++ String.join (attrs.map fun a => attr a.1 a.2) ++ ">"

variable {rest : List Char}

theorem toList_attr (name value : String) : (attr name value).toList =
    ' ' :: (name.toList ++ '=' :: '"' :: ((Html.escape value).toList ++ ['"'])) := by
  simp [attr]

theorem attribute?_attr {name : String} (value : String) (rest : List Char)
    (hname : '=' ∉ name.toList) :
    ∃ after, (attr name value).toList ++ rest = ' ' :: after ∧
      attribute? after = some ((name, value), rest) := by
  refine ⟨name.toList ++ '=' :: '"' :: ((Html.escape value).toList ++ '"' :: rest), ?_, ?_⟩
  · simp [toList_attr]
  · unfold attribute?
    rw [upTo_append hname]
    show (upTo '"' ((Html.escape value).toList ++ '"' :: rest)).map _ = _
    rw [upTo_append (quote_notMem_escape value), Option.map_some]
    dsimp only
    rw [decode_escape, String.ofList_toList, String.ofList_toList]

theorem attributes?_join (rest : List Char) {attrs : List (String × String)}
    (hattrs : ∀ a ∈ attrs, '=' ∉ a.1.toList) :
    attributes? ((String.join (attrs.map fun a => attr a.1 a.2)).toList ++ '>' :: rest) =
      some (attrs, rest) := by
  induction attrs with
  | nil => rw [List.map_nil, String.join_nil, String.toList_empty, List.nil_append, attributes?]
  | cons a attrs ih =>
    have hrest := ih fun b hb => hattrs b (List.mem_cons_of_mem a hb)
    obtain ⟨after, heq, hattr⟩ := attribute?_attr a.2
      ((String.join (attrs.map fun a => attr a.1 a.2)).toList ++ '>' :: rest)
      (hattrs a List.mem_cons_self)
    rw [List.map_cons, String.join_cons, String.toList_append, List.append_assoc, heq, attributes?]
    split
    · rename_i hnone
      rw [hnone] at hattr
      cases hattr
    · rename_i a' rest' hsome
      rw [hsome] at hattr
      cases hattr
      rw [hrest]
      rfl

theorem events_of_tag? {e : Event} {cs : List Char} (h : tag? cs = some (e, rest)) :
    events ('<' :: cs) = e :: events rest := by
  rw [events]
  split
  · rename_i e' rest' hsome
    rw [hsome] at h
    cases h
    rfl
  · rename_i hnone
    rw [hnone] at h
    cases h

/-- The name of an element ends where its attributes begin. -/
theorem exists_end_of_name (rest : List Char) (attrs : List (String × String)) :
    ∃ c more, inName c = false ∧
    (String.join (attrs.map fun a => attr a.1 a.2)).toList ++ '>' :: rest = c :: more := by
  cases attrs with
  | nil => exact ⟨'>', rest, rfl, by simp⟩
  | cons a attrs =>
    rw [List.map_cons, String.join_cons, String.toList_append, toList_attr]
    exact ⟨' ', _, rfl, rfl⟩

/-- An element opens with the attributes that were written, whatever they hold. -/
theorem events_tag {name : String} {attrs : List (String × String)} (hname : isName name = true)
    (hattrs : ∀ a ∈ attrs, '=' ∉ a.1.toList) :
    events ((tag name attrs).toList ++ rest) = .opens name attrs :: events rest := by
  obtain ⟨hne, hall⟩ := Bool.and_eq_true_iff.mp hname
  have hne : name.toList ≠ [] := by simpa using hne
  have hname : ∀ c ∈ name.toList, c ≠ '/' ∧ inName c = true := by simpa using hall
  have hread := attributes?_join rest hattrs
  obtain ⟨c, more, hend, hmore⟩ := exists_end_of_name rest attrs
  have hcs : (tag name attrs).toList ++ rest = '<' :: (name.toList ++ c :: more) := by
    rw [← hmore]
    simp [tag]
  have hin : ∀ x ∈ name.toList, inName x = true := fun x hx => (hname x hx).2
  have htake : (name.toList ++ c :: more).takeWhile inName = name.toList := by
    rw [List.takeWhile_append_of_pos hin, List.takeWhile_cons_of_neg (by simp [hend]),
      List.append_nil]
  have hdrop : (name.toList ++ c :: more).dropWhile inName = c :: more := by
    rw [List.dropWhile_append_of_pos hin, List.dropWhile_cons_of_neg (by simp [hend])]
  have htag : tag? (name.toList ++ c :: more) = some (.opens name attrs, rest) := by
    rw [tag?]
    · rw [htake, hdrop, if_neg (by simpa using hne), ← hmore, hread, Option.map_some]
      dsimp only
      rw [String.ofList_toList]
    · intro after hslash
      obtain ⟨x, xs, hxs⟩ := List.exists_cons_of_ne_nil hne
      rw [hxs, List.cons_append] at hslash
      exact (hname x (hxs ▸ List.mem_cons_self)).1 (List.cons.inj hslash).1
  rw [hcs, events_of_tag? htag]

theorem events_end (name : String) (hname : '>' ∉ name.toList) :
    events (("</" ++ name ++ ">").toList ++ rest) = .closes name :: events rest := by
  have htag : tag? ('/' :: (name.toList ++ '>' :: rest)) = some (.closes name, rest) := by
    rw [tag?, upTo_append hname, Option.map_some]
    dsimp only
    rw [String.ofList_toList]
  have hcs : ("</" ++ name ++ ">").toList ++ rest = '<' :: '/' :: (name.toList ++ '>' :: rest) := by
    simp
  rw [hcs, events_of_tag? htag]

theorem events_plain {c : Char} (hopen : c ≠ '<') (hamp : c ≠ '&') :
    events (c :: rest) = .text c :: events rest := by
  have hnext := next?_plain rest hamp
  rw [events]
  · split
    · rename_i c' rest' hsome
      rw [hsome] at hnext
      cases hnext
      rfl
    · rename_i hnone
      rw [hnone] at hnext
      cases hnext
  · exact hopen

theorem events_newline : events ("\n".toList ++ rest) = .text '\n' :: events rest :=
  events_plain (by decide) (by decide)

theorem attr_eq (name : String) {value : String} (h : value.toList.all isPlain = true) :
    attr name value = " " ++ name ++ "=\"" ++ value ++ "\"" := by rw [attr, escape_eq_self h]

theorem attr_injective (name : String) : Function.Injective (attr name) := by
  intro value value' h
  have hvalue : Html.escape value = Html.escape value' :=
    (String.append_right_inj _).mp ((String.append_left_inj _).mp h)
  have hdecode := congrArg (fun s => decode s.toList) hvalue
  rw [decode_escape, decode_escape] at hdecode
  exact String.toList_inj.mp hdecode

theorem isPlain_of_isDigit {c : Char} (h : c.isDigit = true) : isPlain c = true := by
  unfold isPlain Html.escapeChar
  split
  · exact absurd h (by decide)
  · exact absurd h (by decide)
  · exact absurd h (by decide)
  · exact absurd h (by decide)
  · exact beq_self_eq_true _

theorem inlineId_plain (n : Nat) : (inlineId n).toList.all isPlain = true := by
  have hdigits : (toString n).toList = Nat.toDigits 10 n := by simp [Nat.repr, ToString.toString]
  rw [inlineId, String.toList_append, List.all_append, hdigits, Bool.and_eq_true]
  refine ⟨by decide, List.all_eq_true.mpr fun c hc => isPlain_of_isDigit ?_⟩
  exact Nat.isDigit_of_mem_toDigits (by decide) (by decide) hc

/-- The forms of markup that the compiler writes itself. The text of a link is markup already. -/
inductive Form where
  | opening (first : Bool) (name : String)
  | expansion (kind : String) (sigil : Char) (identifier : String)
  | goto (target text : String)
  | call (target text : String)
  | replace (number : Nat) (target text : String)
  | image (source alt : String)
  | engineImage (name alt : String)

namespace Form

def markup : Form → String
  | opening first name => sectionBegin first name
  | expansion kind sigil identifier =>
    expansionIn kind (String.ofList (sigil :: identifier.toList))
  | goto target text => anchor none "goto-section" target text
  | call target text => anchor none "call-function" target text
  | replace number target text => anchor (some (inlineId number)) "replace-with" target text
  | image source alt => Markup.image source alt
  | engineImage name alt => Markup.engineImage name alt

/-- What a reader is to find where a form stands before the rest of a page. -/
def reading (rest : List Char) : Form → List Event
  | opening first name =>
    (if first then [] else [.closes "div"]) ++
      .opens "div" [("id", name), ("class", "section"), ("hidden", "true")] ::
        .text '\n' :: events rest
  | expansion kind sigil identifier =>
    let span := Event.opens "span"
      [("data-expand-macro", String.ofList (sigil :: identifier.toList))]
    if kind == "code" then
      .opens "code" [] :: span :: .closes "span" :: .closes "code" :: events rest
    else if kind == "code_block" then
      .opens "pre" [] :: .opens "code" [] :: span :: .closes "span" :: .closes "code" ::
        .closes "pre" :: .text '\n' :: events rest
    else span :: .closes "span" :: events rest
  | goto target text =>
    .opens "a" [("href", "#"), ("data-goto-section", target)] ::
      events (text.toList ++ ("</a>".toList ++ rest))
  | call target text =>
    .opens "a" [("href", "#"), ("data-call-function", target)] ::
      events (text.toList ++ ("</a>".toList ++ rest))
  | replace number target text =>
    .opens "a" [("href", "#"), ("id", inlineId number), ("data-replace-with", target)] ::
      events (text.toList ++ ("</a>".toList ++ rest))
  | image source alt => .opens "img" [("src", source), ("alt", alt), ("title", alt)] :: events rest
  | engineImage name alt =>
    .opens "img" [("data-image-source-macro", name), ("src", "#"), ("alt", alt), ("title", alt)] ::
      events rest

end Form

theorem events_sectionBegin (first : Bool) (name : String) :
    events ((sectionBegin first name).toList ++ rest) = (Form.opening first name).reading rest := by
  have hclass : attr "class" "section" = " class=\"section\"" := attr_eq _ (by decide)
  have hhidden : attr "hidden" "true" = " hidden=\"true\"" := attr_eq _ (by decide)
  have heq : sectionBegin first name = (if first then "" else "</" ++ "div" ++ ">") ++
      (tag "div" [("id", name), ("class", "section"), ("hidden", "true")] ++ "\n") := by
    apply String.toList_inj.mp
    cases first <;> simp [sectionBegin, sectionEnd, tag, hclass, hhidden]
  rw [heq, String.toList_append, String.toList_append, List.append_assoc, List.append_assoc]
  cases first with
  | true =>
    rw [if_pos rfl, String.toList_empty, List.nil_append,
      events_tag (by decide) (by simp), events_newline]
    rfl
  | false =>
    rw [if_neg (by decide), events_end _ (by decide),
      events_tag (by decide) (by simp), events_newline]
    rfl

theorem events_expansion (reference : String) :
    events ((expansion reference).toList ++ rest) =
      .opens "span" [("data-expand-macro", reference)] :: .closes "span" :: events rest := by
  have heq : expansion reference =
      tag "span" [("data-expand-macro", reference)] ++ ("</" ++ "span" ++ ">") := by
    simp [expansion, tag, String.append_assoc]
  rw [heq, String.toList_append, List.append_assoc, events_tag (by decide) (by simp),
    events_end _ (by decide)]

theorem events_image (source alt : String) :
    events ((Markup.image source alt).toList ++ rest) = (Form.image source alt).reading rest := by
  have heq : Markup.image source alt = tag "img" [("src", source), ("alt", alt), ("title", alt)] := by
    simp [Markup.image, tag, String.append_assoc]
  rw [heq, events_tag (by decide) (by simp)]
  rfl

theorem events_expansionIn (kind : String) (sigil : Char) (identifier : String) :
    events ((Form.expansion kind sigil identifier).markup.toList ++ rest) =
      (Form.expansion kind sigil identifier).reading rest := by
  have hcode : "<code>" = tag "code" [] := by decide
  have hblock : "<pre><code>" = tag "pre" [] ++ tag "code" [] := by decide
  have hcode' : "</code>" = "</" ++ "code" ++ ">" := by decide
  have hblock' : "</code></pre>\n" = "</" ++ "code" ++ ">" ++ ("</" ++ "pre" ++ ">" ++ "\n") := by
    decide
  unfold Form.markup Form.reading expansionIn
  dsimp only
  split_ifs
  · rw [hcode, hcode', String.toList_append, List.append_assoc, String.toList_append,
      List.append_assoc, events_tag (by decide) (by simp), events_expansion,
      events_end _ (by decide)]
  · rw [hblock, hblock', String.toList_append, List.append_assoc, String.toList_append,
      List.append_assoc, String.toList_append, List.append_assoc,
      events_tag (by decide) (by simp), events_tag (by decide) (by simp),
      events_expansion, String.toList_append, List.append_assoc, events_end _ (by decide),
      String.toList_append, List.append_assoc, events_end _ (by decide), events_newline]
  · exact events_expansion _

theorem events_engineImage (name alt : String) :
    events ((Markup.engineImage name alt).toList ++ rest) =
      (Form.engineImage name alt).reading rest := by
  have hsource : attr "src" "#" = " src=\"#\"" := attr_eq _ (by decide)
  have heq : Markup.engineImage name alt = tag "img"
      [("data-image-source-macro", name), ("src", "#"), ("alt", alt), ("title", alt)] := by
    simp [Markup.engineImage, tag, hsource, String.append_assoc]
  rw [heq, events_tag (by decide) (by simp)]
  rfl

/-- A link opens with its target, and its text follows. -/
theorem events_anchor (id : Option String) {action : String} (target text : String)
    (hid : ∀ i ∈ id, i.toList.all isPlain = true)
    (haction : '=' ∉ action.toList) :
    events ((anchor id action target text).toList ++ rest) =
      .opens "a" (("href", "#") :: (id.map fun i => ("id", i)).toList ++
        [("data-" ++ action, target)]) :: events (text.toList ++ ("</a>".toList ++ rest)) := by
  have hopen : "<a href=\"#\"" = "<" ++ "a" ++ attr "href" "#" := by decide
  have heq : anchor id action target text = tag "a" (("href", "#") ::
      (id.map fun i => ("id", i)).toList ++ [("data-" ++ action, target)]) ++ (text ++ "</a>") := by
    unfold anchor tag
    rw [hopen]
    cases id with
    | none => simp [String.append_assoc]
    | some i => simp [attr_eq "id" (hid i rfl), String.append_assoc]
  have hattrs : ∀ a ∈ ("href", "#") :: (id.map fun i => ("id", i)).toList ++
      [("data-" ++ action, target)], '=' ∉ a.1.toList := by
    cases id <;> simp [haction]
  rw [heq, String.toList_append, List.append_assoc, String.toList_append, List.append_assoc,
    events_tag (by decide) hattrs]

theorem events_form (f : Form) (rest : List Char) :
    events (f.markup.toList ++ rest) = f.reading rest := by
  cases f with
  | opening first name => exact events_sectionBegin first name
  | expansion kind sigil identifier => exact events_expansionIn kind sigil identifier
  | goto target text => exact events_anchor none target text (by simp) (by decide)
  | call target text => exact events_anchor none target text (by simp) (by decide)
  | replace number target text =>
    refine events_anchor (some (inlineId number)) target text (fun i hi => ?_) (by decide)
    cases hi
    exact inlineId_plain number
  | image source alt => exact events_image source alt
  | engineImage name alt => exact events_engineImage name alt

end Markup

namespace Tree

/-- A tree of a row, or one below it. -/
inductive Within {α : Type} (x : Tree α) : List (Tree α) → Prop where
  | here {rest : List (Tree α)} : Within x (x :: rest)
  | after {y : Tree α} {rest : List (Tree α)} (h : Within x rest) : Within x (y :: rest)
  | inside {a : α} {cs rest : List (Tree α)} (h : Within x cs) : Within x (.node a cs :: rest)

end Tree

namespace Expansion

open Markup

/-- The destination of a link or an image is a directive. -/
def Directs (n : Node) (d : Destination) : Prop :=
  ∃ destination, AttrValue.destination n.destination = .ok destination ∧
    Destination.ofUrl? (Url.decodeDestination destination) = some d

/-- The form that stands for a node over a row, with the strings that the author wrote there. -/
inductive Writes (n : Node) (row : List (Tree Node)) : Form → Prop where
  | opening {parentKind : String} {text : Node} {d : Directive} (first : Bool)
      (hdecl : declaration? parentKind (.node n row) = some (text, d)) :
      Writes n row (.opening first d.identifier)
  | expansion {cs : List Char} {d : Directive} (hpiece : .directive cs ∈ Piece.read n.characters)
      (hd : Directive.ofText 0 cs = .ok d) (hkind : d.kind ≠ .sectionBegin) :
      Writes n row (.expansion n.kind d.kind.sigil d.identifier)
  | goto {d : Destination} (text : String) (hd : Directs n d) (hmodifier : d.modifier = none)
      (hkind : d.kind? = some .sectionRef) : Writes n row (.goto d.name text)
  | call {d : Destination} (text : String) (hd : Directs n d) (hmodifier : d.modifier = none)
      (hkind : d.kind? = some .functionRef) : Writes n row (.call d.name text)
  | replace {d : Destination} (number : Nat) (text : String) (hd : Directs n d)
      (hmodifier : d.modifier = some "inline") : Writes n row (.replace number d.name text)
  | image {source alt : String} (halt : altOf row = some alt)
      (hsource : AttrValue.destination n.destination = .ok source)
      (hplain : (Url.decodeDestination source).toList.head? ≠ some '{') :
      Writes n row (.image source alt)
  | engineImage {alt : String} {d : Destination} (halt : altOf row = some alt) (hd : Directs n d)
      (hkind : d.kind? = some .functionRef ∨ d.kind? = some .variableRef) :
      Writes n row (.engineImage d.name alt)

/-- A node that was there, a leaf that was cut at its directives, or markup in one of the forms. -/
def Accounted (row : List (Tree Node)) (m : Node) : Prop :=
  m ∈ valuesAll row ∨ isScanned m.kind = true ∨
    ∃ n cs f, Within (.node n cs) row ∧ Writes n cs f ∧ m.kind = "html_inline" ∧
      m.literal = some f.markup

variable {path : String} {place : Place} {tally tally' : Tally} {n : Node}
  {row out : List (Tree Node)}

theorem reference_eq {d : Directive} (h : d.kind ≠ .sectionBegin) :
    d.reference = String.ofList (d.kind.sigil :: d.identifier.toList) := by
  unfold Directive.reference
  cases hkind : d.kind with
  | sectionBegin => exact absurd hkind h
  | sectionRef => rfl
  | functionRef => rfl
  | variableRef => rfl

/-- A leaf that is cut, or an expansion of a directive in it. -/
def Cuts (n m : Node) : Prop :=
  isScanned m.kind = true ∨ ∃ cs d, .directive cs ∈ Piece.read n.characters ∧
    Directive.ofText 0 cs = .ok d ∧ d.kind ≠ .sectionBegin ∧ m.kind = "html_inline" ∧
    m.literal = some (Form.expansion n.kind d.kind.sigil d.identifier).markup

theorem cuts_kept (hs : isScanned n.kind = true) {d : Directive} {m : Node}
    (hm : m ∈ valuesAll (kept n d)) : Cuts n m := by
  unfold kept at hm
  split_ifs at hm
  · simp at hm
  · have hm : m = shortened n d := by simpa using hm
    exact .inl (hm ▸ hs)

theorem cuts_expanded {o : Opening} {d : Directive} {m : Node}
    (hfind : Opening.find? ⟨0, 0, 0⟩ n.characters = some o)
    (hscan : Directive.scan n.characters o.index = .ok d) (hkind : d.kind ≠ .sectionBegin)
    (hm : m ∈ (expanded n d).values) : Cuts n m := by
  obtain ⟨hread, -, hmeaning⟩ := Piece.read_of_scan hfind hscan
  obtain ⟨d', hd, heq⟩ := exists_of_map_ok hmeaning
  cases heq
  have hm : m = markupNode n (Markup.expansionIn n.kind d.reference) := by
    simpa [expanded] using hm
  subst hm
  refine .inr ⟨d.text.toList, _, by rw [hread]; simp, hd, hkind, rfl, ?_⟩
  rw [reference_eq hkind]
  rfl

theorem cuts_remainder {o : Opening} {d : Directive} {m : Node}
    (hfind : Opening.find? ⟨0, 0, 0⟩ n.characters = some o)
    (hscan : Directive.scan n.characters o.index = .ok d) (h : Cuts (remainder n d o) m) :
    Cuts n m := by
  obtain ⟨hread, -, -⟩ := Piece.read_of_scan hfind hscan
  rcases h with h | ⟨cs, d', hcs, hd, hkind, hm, hliteral⟩
  · exact .inl h
  · rw [characters_remainder] at hcs
    exact .inr ⟨cs, d', by rw [hread]; simp [hcs], hd, hkind, hm, hliteral⟩

theorem segments_cuts (h : segments path place n = .ok out) (hs : isScanned n.kind = true)
    {m : Node} (hm : m ∈ valuesAll out) : Cuts n m := by
  fun_induction segments path place n generalizing out with
  | case1 place n hfind =>
    cases h
    have hm : m = n := by simpa using hm
    exact .inl (hm ▸ hs)
  | case2 => cases h
  | case3 => cases h
  | case4 place n o hfind d hscan hbegin hrest =>
    cases h
    rw [valuesAll_append, List.mem_append, valuesAll_cons, valuesAll_nil, List.append_nil] at hm
    rcases hm with hm | hm
    · exact cuts_kept hs hm
    · exact cuts_expanded hfind hscan hbegin hm
  | case5 place n o hfind d hscan hbegin hrest row hrow ih =>
    cases h
    rw [valuesAll_append, List.mem_append, valuesAll_cons, List.mem_append] at hm
    rcases hm with hm | hm | hm
    · exact cuts_kept hs hm
    · exact cuts_expanded hfind hscan hbegin hm
    · exact cuts_remainder hfind hscan (ih hrow hs hm)
  | case6 => cases h

theorem writes_anchor (row : List (Tree Node)) {a : Anchor}
    (h : anchorOf? path n = .ok (some a)) (tally : Tally) (text : String) :
    ∃ f, Writes n row f ∧ f.markup =
      Markup.anchor (a.id? .standard tally) a.action a.target text := by
  unfold anchorOf? at h
  split at h
  · cases h
  · rename_i destination hdest
    dsimp only at h
    split_ifs at h
    · cases h
    · split at h
      · cases h
      · rename_i d hurl
        have hd : Directs n d := ⟨destination, hdest, hurl⟩
        split at h
        · rename_i m kind hmodifier
          split_ifs at h with hm
          · split at h
            · cases h
            · cases h
            · cases h
              rw [beq_iff_eq.mp hm] at hmodifier
              exact ⟨_, .replace tally.nextInline text hd hmodifier, rfl⟩
        · rename_i hmodifier hkind
          cases h
          exact ⟨_, .goto text hd hmodifier hkind, rfl⟩
        · rename_i hmodifier hkind
          cases h
          exact ⟨_, .call text hd hmodifier hkind, rfl⟩
        · cases h
        · cases h

theorem writes_image (h : expandImage path n row = .ok out) :
    ∃ f, Writes n row f ∧ out = [.node (markupNode n f.markup) []] := by
  unfold expandImage at h
  split at h
  · cases h
  · rename_i alt halt
    split at h
    · cases h
    · rename_i source hsource
      split at h
      · cases h
      · rename_i markup hmarkup
        cases h
        unfold imageMarkup at hmarkup
        dsimp only at hmarkup
        split_ifs at hmarkup with hplain
        · cases hmarkup
          exact ⟨_, .image halt hsource (by simpa using hplain), rfl⟩
        · split at hmarkup
          · cases hmarkup
          · rename_i d hurl
            have hd : Directs n d := ⟨source, hsource, hurl⟩
            split at hmarkup
            · cases hmarkup
            · rename_i hkind
              cases hmarkup
              exact ⟨_, .engineImage halt hd (.inl hkind), rfl⟩
            · rename_i hkind
              cases hmarkup
              exact ⟨_, .engineImage halt hd (.inr hkind), rfl⟩
            · cases hmarkup

/-- One tree: what stands for it is accounted for, if that holds of what stands for the row below. -/
theorem expand_accounted {rest : List (Tree Node)}
    (ih : ∀ (place : Place) (tally tally' : Tally) (out : List (Tree Node)),
      expandAll .standard path place tally row = (tally', .ok out) →
        ∀ m ∈ valuesAll out, Accounted row m)
    (h : expand .standard path place tally (.node n row) = (tally', .ok out)) :
    ∀ m ∈ valuesAll out, Accounted (.node n row :: rest) m := by
  have hwritten : ∀ {m : Node} {f : Form}, Writes n row f → m.kind = "html_inline" →
      m.literal = some f.markup → Accounted (.node n row :: rest) m :=
    fun hf hm hliteral => .inr (.inr ⟨n, row, _, .here, hf, hm, hliteral⟩)
  have hself : Accounted (.node n row :: rest) n := .inl (by simp)
  have hbelow : ∀ {m : Node}, Accounted row m → Accounted (.node n row :: rest) m := by
    rintro m (hm | hm | ⟨n', cs, f, hin, hf, hm, hliteral⟩)
    · exact .inl (by simp [hm])
    · exact .inr (.inl hm)
    · exact .inr (.inr ⟨n', cs, f, .inside hin, hf, hm, hliteral⟩)
  intro m hm
  cases expand_eq_ok h with
  | image hkind himage =>
    obtain ⟨f, hf, rfl⟩ := writes_image himage
    obtain rfl : m = markupNode n f.markup := by simpa using hm
    exact hwritten hf rfl rfl
  | scanned hc hs hsegments =>
    rcases segments_cuts hsegments hs hm with hs | ⟨cs, d, hcs, hd, hkind, hm, hliteral⟩
    · exact .inr (.inl hs)
    · exact hwritten (.expansion hcs hd hkind) hm hliteral
  | plain hkind hc hs =>
    rw [valuesAll_cons, valuesAll_nil, List.append_nil] at hm
    exact .inl (by rw [valuesAll_cons, List.mem_append]; exact .inl hm)
  | @opening text d hdecl hproblem =>
    obtain rfl : m = sectionNode .standard tally n d := by simpa using hm
    exact hwritten (.opening _ hdecl) rfl rfl
  | @stays _ inner hkind hc hdecl hlink hrow =>
    rw [valuesAll_cons, values_node, valuesAll_nil, List.append_nil] at hm
    rcases List.mem_cons.mp hm with rfl | hm
    · exact hself
    · exact hbelow (ih _ _ _ _ hrow m hm)
  | @anchor tally₁ inner a text hkind hc hdecl ha hrow htext =>
    obtain ⟨f, hf, hmarkup⟩ := writes_anchor row ha tally₁ text
    obtain rfl : m = anchorNode .standard tally₁ n a text := by simpa using hm
    exact hwritten hf rfl (congrArg some hmarkup.symm)

theorem expandAll_accounted
    (h : expandAll .standard path place tally row = (tally', .ok out)) :
    ∀ m ∈ valuesAll out, Accounted row m := by
  induction row using row_induction generalizing place tally tally' out with
  | nil =>
    rw [expandAll] at h
    cases h
    simp
  | cons n cs rest ihcs ihrest =>
    rw [expandAll_cons] at h
    obtain ⟨tally₁, out₁, hfirst, h⟩ := andThen_eq_ok h
    obtain ⟨tally₂, out₂, hrest, h⟩ := andThen_eq_ok h
    cases h
    intro m hm
    rw [valuesAll_append, List.mem_append] at hm
    rcases hm with hm | hm
    · exact expand_accounted (fun _ _ _ _ => ihcs) hfirst m hm
    · rcases ihrest hrest m hm with hm | hm | ⟨n', cs', f, hin, hf, hm, hliteral⟩
      · exact .inl (by rw [valuesAll_cons, List.mem_append]; exact .inr hm)
      · exact .inr (.inl hm)
      · exact .inr (.inr ⟨n', cs', f, .after hin, hf, hm, hliteral⟩)

/-- All that stands in the tree of a file after the walk was there before, or was cut from a leaf that
was there, or is markup in one of the forms. -/
theorem all_accounted {tokens : List Token} {t t' : Forest} (hjoins : Compiler.Joins tokens t)
    (hall : all path tally t 0 = (tally', .ok t')) :
    ∀ m ∈ valuesAll (t'.tree 0).row, Accounted (t.tree 0).row m := by
  obtain ⟨kids, hd⟩ := hjoins.document
  obtain ⟨final, hruns, hfinal, -⟩ := document_runs path tally hd
  have heq := (walk_of_runs hruns).symm.trans hall
  obtain ⟨-, rfl⟩ := Prod.mk.inj heq
  obtain ⟨out, hexpand, hout⟩ := expandDocument_eq_ok hfinal.symm
  dsimp only at hout
  rw [hout]
  exact expandAll_accounted hexpand

end Expansion

open Markup Html in
/-- Nothing that an author writes breaks out of the markup around it. A reader finds in each form the
elements and attributes of that form, with the name, the sigil and identifier, the target, the source
or the alternative text as they were written, and reads on behind it. All markup that the walk over a
file adds has one of these forms, and sections with different names have different attributes. -/
theorem markup_reads_back :
    (∀ (f : Form) (rest : List Char), events (f.markup.toList ++ rest) = f.reading rest) ∧
      (∀ rest, events ("</a>".toList ++ rest) = .closes "a" :: events rest) ∧
      (∀ name name' : String, name ≠ name' → attr "id" name ≠ attr "id" name') ∧
      ∀ (path : String) (tokens : List Token) (tally tally' : Tally) (t t' : Forest),
        Compiler.Joins tokens t → Expansion.all path tally t 0 = (tally', .ok t') →
          ∀ m ∈ valuesAll (t'.tree 0).row, Accounted (t.tree 0).row m :=
  ⟨events_form, fun _ => events_end "a" (by decide), fun _ _ => (attr_injective "id").ne,
    fun _ _ _ _ _ _ hjoins hall => all_accounted hjoins hall⟩

open Markup Html in
theorem markup_reads_back_linkedStory :
    (∃ t tally' t', Compiler.Joins Expansion.linkedStory t ∧
      Expansion.all "s.md" { nextInline := 4, taken := ["Z"] } t 0 = (tally', .ok t') ∧
      ∀ m ∈ valuesAll (t'.tree 0).row, Accounted (t.tree 0).row m) ∧
    attr "id" "a" ≠ attr "id" "a\" id=\"b" ∧
    ∀ rest, events ((Form.goto "\"><b>&" "go").markup.toList ++ rest) =
      .opens "a" [("href", "#"), ("data-goto-section", "\"><b>&")] ::
        events ("go".toList ++ ("</a>".toList ++ rest)) := by
  have heval : (Compiler.joined? linkedStory).any (fun t =>
      (all "s.md" { nextInline := 4, taken := ["Z"] } t 0).2.isOk) = true := by decide +kernel
  cases hjoined : Compiler.joined? linkedStory with
  | none =>
    rw [hjoined] at heval
    cases heval
  | some t =>
    rw [hjoined] at heval
    have hjoins := Compiler.joins_iff.mpr hjoined
    obtain ⟨tally', final, hall⟩ : ∃ tally' final,
        all "s.md" { nextInline := 4, taken := ["Z"] } t 0 = (tally', final) := ⟨_, _, rfl⟩
    have hok : final.isOk = true := by
      rw [Option.any_some, hall] at heval
      exact heval
    cases final with
    | error e => cases hok
    | ok t' =>
      obtain ⟨hread, -, hne, haccounted⟩ := markup_reads_back
      exact ⟨⟨t, tally', t', hjoins, hall, haccounted "s.md" _ _ _ t t' hjoins hall⟩,
        hne _ _ (by decide), hread _⟩

end Hyperstory
