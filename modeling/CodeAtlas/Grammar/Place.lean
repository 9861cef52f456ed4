import CodeAtlas.Node

/-!
Places in a source text. A `Cursor` stands between two tokens: it knows where the last one ended,
where the next one starts, and the comments in between. Most tokens are read at `next`; the inside
of a template or of markup is read at `last`, where blanks and slashes are text.
-/

namespace CodeAtlas.Grammar

structure Place where
  rest : List Char
  offset : Nat
  row : Nat
  column : Nat

namespace Place

/-- Only a line feed starts a new row. -/
def step (p : Place) (c : Char) (rest : List Char) : Place :=
  if c = '\n' then ⟨rest, p.offset + 1, p.row + 1, 0⟩
  else ⟨rest, p.offset + 1, p.row, p.column + c.utf8Size⟩

/-- The place after the given characters, where `rest` follows. -/
def after (p : Place) (read rest : List Char) : Place :=
  { read.foldl (fun q c => q.step c []) p with rest }

/-- The source text from one place up to a later one. -/
def textUpTo (p q : Place) : String := String.ofList (p.rest.take (q.offset - p.offset))

def leaf (p : Place) (kind : Kind) (read : List Char) : Node :=
  ⟨kind, none, String.ofList read, p.row, p.column, []⟩

end Place

/-- The blanks that may stand between any two tokens. -/
def isBlank (c : Char) : Bool :=
  let n := c.toNat
  (9 ≤ n && n ≤ 13) || n = 0x20 || n = 0xA0 || n = 0x1680 || (0x2000 ≤ n && n ≤ 0x200B) ||
    n = 0x2028 || n = 0x2029 || n = 0x202F || n = 0x205F || n = 0x2060 || n = 0x3000 || n = 0xFEFF

def isLineBreak (c : Char) : Bool := c = '\n' || c = '\u2028' || c = '\u2029'

/-- What the reader of blanks and comments is inside of. -/
inductive Gap where
  | blank
  | line (start : Place) (read : List Char)
  | block (start : Place) (read : List Char)

structure Cursor where
  last : Place
  next : Place
  comments : List Node
  lineBreak : Bool

/-- Skips blanks and comments. A block comment without an end is no comment: the next token then
starts at its opening mark, where nothing can be read. -/
def skipGap (last : Place) (gap : Gap) (comments : List Node) (lineBreak : Bool) (p : Place) :
    List Char → Cursor
  | [] =>
    match gap with
    | .blank => ⟨last, { p with rest := [] }, comments.reverse, lineBreak⟩
    | .line start read =>
      let comments := start.leaf .comment read.reverse :: comments
      ⟨last, { p with rest := [] }, comments.reverse, lineBreak⟩
    | .block start _ => ⟨last, start, comments.reverse, lineBreak⟩
  | c :: cs =>
    let q := p.step c cs
    match gap with
    | .line start read =>
      if isLineBreak c then
        skipGap last .blank (start.leaf .comment read.reverse :: comments) true q cs
      else skipGap last (.line start (c :: read)) comments lineBreak q cs
    | .block start read =>
      if c = '/' && read.head? == some '*' && 3 ≤ read.length then
        skipGap last .blank (start.leaf .comment (c :: read).reverse :: comments) lineBreak q cs
      else skipGap last (.block start (c :: read)) comments (lineBreak || isLineBreak c) q cs
    | .blank =>
      if isBlank c then skipGap last .blank comments (lineBreak || isLineBreak c) q cs
      else
        let here := { p with rest := c :: cs }
        match c, cs with
        | '/', '/' :: _ => skipGap last (.line here ['/']) comments lineBreak q cs
        | '/', '*' :: _ => skipGap last (.block here ['/']) comments lineBreak q cs
        | _, _ => ⟨last, here, comments.reverse, lineBreak⟩

namespace Cursor

/-- The cursor after a token that ended at the given place. -/
def ofPlace (p : Place) : Cursor := skipGap p .blank [] false p p.rest

def start (source : List Char) : Cursor := ofPlace ⟨source, 0, 0, 0⟩

def atEnd (c : Cursor) : Bool := c.next.rest.isEmpty

/-- Reads a token after the gap; the comments of the gap come first. -/
def token (c : Cursor) (kind : Kind) : Option (List Char × List Char) → Option (List Node × Cursor)
  | none => none
  | some (read, rest) =>
    some (c.comments ++ [c.next.leaf kind read], ofPlace (c.next.after read rest))

/-- Reads a token directly after the last one. -/
def rawToken (c : Cursor) (kind : Kind) :
    Option (List Char × List Char) → Option (List Node × Cursor)
  | none => none
  | some (read, rest) => some ([c.last.leaf kind read], ofPlace (c.last.after read rest))

end Cursor

end CodeAtlas.Grammar
