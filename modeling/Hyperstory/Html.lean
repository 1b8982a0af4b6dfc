/-! Text made safe inside markup. -/
namespace Hyperstory.Html

/-- The four characters with a meaning in markup become references. -/
def escapeChar : Char → List Char
  | '&' => "&amp;".toList
  | '<' => "&lt;".toList
  | '>' => "&gt;".toList
  | '"' => "&quot;".toList
  | c => [c]

def escape (s : String) : String := String.ofList (s.toList.flatMap escapeChar)

end Hyperstory.Html
