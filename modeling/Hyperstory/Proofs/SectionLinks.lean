import Hyperstory.Proofs.Braces
import Hyperstory.Proofs.Destinations
import Hyperstory.Proofs.EmittedMarkup
import Hyperstory.Proofs.Settled
import Mathlib.Data.List.TakeWhile

/-!
Links to sections. A declaration can give a section any name but the empty one; a link can lead to
every name without a colon, and one that an author writes to those of them that are settled.
-/
namespace Hyperstory

open Hyperstory.Tree Forest Markup

namespace Forest

@[simp]
theorem size_stripNode (t : Forest) (i : NodeId) : (t.stripNode i).size = t.size := by
  unfold stripNode
  split_ifs <;> simp

theorem size_stripFrom (fuel : Nat) (c : Cursor) (t : Forest) :
    (stripFrom fuel c t).size = t.size := by
  fun_induction stripFrom fuel c t with
  | case1 => rfl
  | case2 => rfl
  | case3 c t fuel v c' hnext ih => rw [ih, size_stripNode]

@[simp]
theorem size_stripEscapes (t : Forest) (root : NodeId) : (t.stripEscapes root).size = t.size :=
  size_stripFrom ..

end Forest

namespace Destination

variable {inner : List Char} {url : String} {d : Destination}

theorem cut_of_notMem (h : ':' ∉ inner) : cut inner = ⟨String.ofList inner, none⟩ := by
  have hrest : inner.dropWhile (· != ':') = [] :=
    List.dropWhile_eq_nil_iff.mpr fun c hc => bne_iff_ne.mpr fun heq => h (heq ▸ hc)
  rw [cut, hrest]

end Destination

namespace Expansion

variable {path name : String} {tally tally' : Tally} {t t' : Forest} {i : NodeId} {n : Node}

/-- For one who reads its markup, the node is an anchor that leads to the section. -/
def Goes (n : Node) (name : String) : Prop :=
  ∃ markup attrs rest, n.literal = some markup ∧
    Html.events markup.toList = .opens "a" attrs :: rest ∧ ("data-goto-section", name) ∈ attrs

def linkText (t : Forest) (i : NodeId) : Except Fault String :=
  ((t.stripEscapes i).inlineTokens i).bind Slot.renderInline

/-- The destination is read as a directive that refers to the section. -/
def Refers (destination name : String) : Prop :=
  Url.decodeDestination destination = String.ofList (Url.braced ('@' :: name.toList)) ∧
    ':' ∉ name.toList

theorem replaceLink_eq (t : Forest) (i : NodeId) (id : Option String) (action target : String) :
    replaceLink t i id action target =
      match linkText t i with
      | .error f => .error (.fault f)
      | .ok text => .ok (replace (t.stripEscapes i) i (Markup.anchor id action target text)).1 := by
  unfold replaceLink linkText
  dsimp only
  cases (t.stripEscapes i).inlineTokens i with
  | error f => rfl
  | ok slots =>
    cases hrender : Slot.renderInline slots with
    | error f => simp only [Except.bind, hrender]
    | ok text => simp only [Except.bind, hrender]

theorem literal_replace (t : Forest) (i : NodeId) (markup : String) :
    ((replace t i markup).1.label t.size).literal = some markup := by
  unfold replace
  dsimp only
  rw [label_unlink, label_insertBefore, label_add, if_pos rfl]
  rfl

/-- A destination that refers to a section makes an anchor to it. -/
theorem Refers.anchorOf? {destination : String} (h : Refers destination name)
    (hn : AttrValue.destination n.destination = .ok destination) (path : String) :
    Expansion.anchorOf? path n = .ok (some ⟨false, "goto-section", name⟩) := by
  obtain ⟨hread, hcolon⟩ := h
  have hcut : Destination.cut ('@' :: name.toList) =
      ⟨String.ofList ('@' :: name.toList), none⟩ :=
    Destination.cut_of_notMem (by simp [hcolon])
  unfold Expansion.anchorOf?
  rw [hn]
  dsimp only
  rw [hread, Url.ofUrl?_braced, hcut]
  simp [Url.braced, Destination.kind?, Destination.name, DirectiveKind.ofText?,
    DirectiveKind.ofSigil?]

/-- Of the markup that the compiler writes, only an anchor to the section leads there. -/
theorem goes_iff {f : Form} (hn : n.literal = some f.markup) :
    Goes n name ↔ ∃ text, f = .goto name text := by
  have hevents := Markup.events_form f []
  rw [List.append_nil] at hevents
  constructor
  · rintro ⟨markup, attrs, rest, hmarkup, hread, hmem⟩
    obtain rfl : f.markup = markup := Option.some.inj (hn.symm.trans hmarkup)
    rw [hevents] at hread
    cases f with
    | goto target text =>
      obtain ⟨hattrs, -⟩ := List.cons.inj hread
      obtain ⟨-, rfl⟩ := Html.Event.opens.inj hattrs
      obtain rfl : name = target := by simpa using hmem
      exact ⟨text, rfl⟩
    | opening first name => cases first <;> exact absurd (List.cons.inj hread).1 (by simp)
    | expansion kind sigil identifier =>
      unfold Form.reading at hread
      dsimp only at hread
      split_ifs at hread <;> exact absurd (List.cons.inj hread).1 (by simp)
    | call target text =>
      obtain ⟨-, rfl⟩ := Html.Event.opens.inj (List.cons.inj hread).1
      simp at hmem
    | replace number target text =>
      obtain ⟨-, rfl⟩ := Html.Event.opens.inj (List.cons.inj hread).1
      simp at hmem
    | image source alt => exact absurd (List.cons.inj hread).1 (by simp)
    | engineImage name alt => exact absurd (List.cons.inj hread).1 (by simp)
  · rintro ⟨text, rfl⟩
    exact ⟨_, _, _, hn, hevents, by simp⟩

/-- The anchor that stands for the link is read as one that leads to the section. -/
theorem Refers.link {destination text : String} (h : Refers destination name)
    (hn : AttrValue.destination (t.label i).destination = .ok destination)
    (htext : linkText t i = .ok text) (path : String) (tally : Tally) :
    ∃ t', Expansion.link path tally t i = (tally, .ok t') ∧ Goes (t'.label t.size) name := by
  have hliteral := literal_replace (t.stripEscapes i) i (Form.goto name text).markup
  rw [size_stripEscapes] at hliteral
  refine ⟨_, ?_, (goes_iff hliteral).mpr ⟨text, rfl⟩⟩
  rw [link_eq, h.anchorOf? hn path]
  dsimp only
  rw [replaceLink_eq, htext]
  rfl

/-- A declaration of a section, with backslashes where its name needs them. -/
def declaration (name : List Char) : List Char := '{' :: '{' :: ((escape name ++ ['}']) ++ ['}'])

end Expansion

end Hyperstory
