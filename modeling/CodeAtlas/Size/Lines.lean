import CodeAtlas.Text.Space

/-!
What the lines of a file hold. A line is read from its first character on; what a line leaves to
the next one is only whether it ends inside of a block comment. Code behind the end of a block
comment makes a line a line of code.
-/

namespace CodeAtlas.Size

inductive LineKind where
  | blank
  | comment
  /-- An import, or an export from another module. -/
  | importing
  | code
  deriving DecidableEq, Repr

/-- How lines are counted, and how many of them are too many. -/
structure Settings where
  threshold : Nat
  excludeComments : Bool
  excludeEmptyLines : Bool
  excludeImports : Bool
  deriving DecidableEq, Repr

def Settings.default : Settings := ⟨400, true, true, false⟩

namespace Line

/-- Comments to the end of the line, and the inner lines of block comments that start with a star.
A `#` that starts a private name is code. -/
def isComment : List Char → Bool
  | '/' :: '/' :: _ | '*' :: _ => true
  | '#' :: rest =>
    match rest with
    | [] => true
    | c :: _ => c = '!' || Text.isSpace c
  | _ => false

def isImport (line : List Char) : Bool :=
  (["import ", "import\x7b", "import'", "import\""].any (·.toList.isPrefixOf line)) ||
    ("export ".toList.isPrefixOf line &&
      ([" from '", " from \""].any fun from_ => Text.contains from_.toList line) &&
      (line.contains '\x7b' || line.contains '*'))

/-- Where a reader of code stands. -/
inductive Inside where
  | code
  | quoted (quote : Char)
  | block
  deriving DecidableEq, Repr

def isQuote (c : Char) : Bool := c = '\"' || c = '\'' || c = '\x60'

/-- Whether code that goes on from the given place leaves a block comment open. -/
def leavesBlockOpen : Inside → List Char → Bool
  | inside, [] => inside == .block
  | .block, '*' :: '/' :: cs => leavesBlockOpen .code cs
  | .block, _ :: cs => leavesBlockOpen .block cs
  | .quoted _, ['\\'] => false
  | .quoted q, '\\' :: _ :: cs => leavesBlockOpen (.quoted q) cs
  | .quoted q, c :: cs => leavesBlockOpen (if c = q then .code else .quoted q) cs
  | .code, '/' :: '/' :: _ => false
  | .code, '/' :: '*' :: cs => leavesBlockOpen .block cs
  | .code, c :: cs => leavesBlockOpen (if isQuote c then .quoted c else .code) cs

/-- Classifies what is left of a line, inside of a block comment or outside of one, and says whether
the line ends inside of one. -/
def classifyRest : Bool → Bool → List Char → LineKind × Bool
  | true, _, [] => (.comment, true)
  | true, _, '*' :: '/' :: rest => classifyRest false true rest
  | true, sawComment, _ :: cs => classifyRest true sawComment cs
  | false, sawComment, [] => (if sawComment then .comment else .blank, false)
  | false, _, '/' :: '*' :: body => classifyRest true true body
  | false, sawComment, c :: cs =>
    if Text.isSpace c then classifyRest false sawComment cs
    else if isComment (c :: cs) then (.comment, false)
    else (if isImport (c :: cs) then .importing else .code, leavesBlockOpen .code (c :: cs))

/-- Classifies a line that starts inside of a block comment or outside of one. -/
def classify (inBlock : Bool) (line : List Char) : LineKind × Bool :=
  classifyRest inBlock false (Text.trimEnd line)

end Line

/-- How many lines of each kind a text has, and how many of them count. -/
structure Breakdown where
  total : Nat
  blank : Nat
  comment : Nat
  importing : Nat
  code : Nat
  effective : Nat
  deriving DecidableEq, Repr

namespace Breakdown

def empty : Breakdown := ⟨0, 0, 0, 0, 0, 0⟩

/-- Lines of code always count. -/
def counts (s : Settings) : LineKind → Bool
  | .blank => !s.excludeEmptyLines
  | .comment => !s.excludeComments
  | .importing => !s.excludeImports
  | .code => true

def add (s : Settings) (b : Breakdown) (kind : LineKind) : Breakdown where
  total := b.total + 1
  blank := b.blank + if kind = .blank then 1 else 0
  comment := b.comment + if kind = .comment then 1 else 0
  importing := b.importing + if kind = .importing then 1 else 0
  code := b.code + if kind = .code then 1 else 0
  effective := b.effective + if counts s kind then 1 else 0

/-- Counts lines one after the other, from a state on. -/
def ofLines (s : Settings) : Breakdown × Bool → List (List Char) → Breakdown × Bool :=
  List.foldl fun (b, inBlock) line =>
    let (kind, open_) := Line.classify inBlock line
    (b.add s kind, open_)

def ofText (s : Settings) (text : String) : Breakdown :=
  (ofLines s (empty, false) (Text.lines text.toList)).1

end Breakdown

end CodeAtlas.Size
