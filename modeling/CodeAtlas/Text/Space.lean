/-!
White space and lines. The spaces are those of the Unicode property `White_Space`, which is wider
than core's `Char.isWhitespace`.
-/

namespace CodeAtlas.Text

def isSpace (c : Char) : Bool :=
  let n := c.toNat
  (9 ≤ n && n ≤ 13) || n = 0x20 || n = 0x85 || n = 0xA0 || n = 0x1680 ||
    (0x2000 ≤ n && n ≤ 0x200A) || n = 0x2028 || n = 0x2029 || n = 0x202F || n = 0x205F || n = 0x3000

def trimEnd (cs : List Char) : List Char := (cs.reverse.dropWhile isSpace).reverse

/-- Puts a character in front of the lines of what follows it. -/
def consLine (c : Char) : List (List Char) → List (List Char)
  | [] => if c = '\n' then [[]] else [[c]]
  | line :: more => if c = '\n' then [] :: line :: more else (c :: line) :: more

/-- The lines of a text. A line feed ends a line, and no line follows the last one. -/
def lines (cs : List Char) : List (List Char) := cs.foldr consLine []

/-- Whether `part` occurs somewhere in the text. -/
def contains (part : List Char) : List Char → Bool
  | [] => part.isEmpty
  | c :: cs => part.isPrefixOf (c :: cs) || contains part cs

end CodeAtlas.Text
