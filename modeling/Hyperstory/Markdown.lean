import Hyperstory.Markdown.Blocks
import Hyperstory.Markdown.Inline
import Hyperstory.Text.Newline

/-! Markdown sources as token streams. -/
namespace Hyperstory.Markdown

/-- The source with one kind of line end, and without null characters. -/
def normalize (source : String) : List Char :=
  (Text.unifyNewlines source.toList).map fun c => if c.toNat = 0 then '�' else c

/-- The tokens of a document, none of whose blocks may be cut off. Links refer to definitions
anywhere in it. -/
def parse (source : String) : Except Fault (List Token) :=
  let body := readBlocks (normalize source)
  if Block.areWhole body.blocks then
    .ok (Block.tokensOf (Inline.read body.definitions) false body.blocks)
  else .error .cut

end Hyperstory.Markdown
