/-! Finding a word in a text, and replacing every occurrence of it. -/
namespace Hyperstory.Text

/-- Goes on after `skip` characters, which an occurrence found before has used up. -/
def replaceAfter (word value : List Char) : Nat → List Char → List Char
  | _, [] => []
  | skip + 1, _ :: cs => replaceAfter word value skip cs
  | 0, c :: cs =>
    if word.isPrefixOf (c :: cs) then value ++ replaceAfter word value (word.length - 1) cs
    else c :: replaceAfter word value 0 cs

/-- Occurrences of a word that is not empty, found from left to right without overlap, give way
to `value`. -/
def replaceAll (word value : String) (text : String) : String :=
  String.ofList (replaceAfter word.toList value.toList 0 text.toList)

/-- A word stands somewhere in a text. -/
def occursIn (word : List Char) : List Char → Bool
  | [] => word.isEmpty
  | c :: cs => word.isPrefixOf (c :: cs) || occursIn word cs

end Hyperstory.Text
