import CodeAtlas.Text.Space

/-!
Questions about words.
-/

namespace CodeAtlas.Text

def hasPrefix (start text : String) : Bool := start.toList.isPrefixOf text.toList

def hasPart (part text : String) : Bool := contains part.toList text.toList

/-- Letters that are capitals in ASCII. -/
def isCapital (c : Char) : Bool := 'A' ≤ c && c ≤ 'Z'

/-- Capitals, digits and underscores, more than two of them and at least one capital. -/
def isAllCaps (name : String) : Bool :=
  2 < name.utf8ByteSize && name.toList.any isCapital &&
    name.toList.all fun c => isCapital c || c.isDigit || c = '_'

end CodeAtlas.Text
