import CodeAtlas.Dialect
import CodeAtlas.Grammar.Lexeme

/-!
Parsing expressions. A form says what may stand at a cursor and which nodes come of it; a grammar
gives a form for every rule. Choices are ordered: the first form that can be read is taken.
-/

namespace CodeAtlas.Grammar

mutual

inductive Form (R : Type) where
  /-- A token of the given kind. -/
  | token (lexeme : Lexeme) (kind : Kind)
  /-- A token directly behind the last one, blanks included. -/
  | raw (lexeme : Lexeme) (kind : Kind)
  /-- A whole word. -/
  | word (text : List Char) (kind : Kind)
  /-- A sign, unless one of the characters in `longer` follows and makes it another sign. -/
  | sign (text : List Char) (longer : List Char)
  | sameLine
  | newLine
  /-- The end of the text, with the comments in front of it. -/
  | atEnd
  | rule (r : R)
  | seq (fs : List (Form R))
  | oneOf (fs : List (Form R))
  | many (f : Form R)
  | ahead (f : Form R)
  | notAhead (f : Form R)
  /-- Only in dialects that the test accepts. -/
  | only (test : Dialect → Bool) (f : Form R)
  | node (kind : Kind) (f : Form R)
  | role (r : Role) (f : Form R)
  /-- Reads `first`, then as often as possible one of the steps, each of which makes the node read
  so far the first child of a new one. -/
  | grow (first : Form R) (steps : List (Step R))

inductive Step (R : Type) where
  | mk (kind : Kind) (left : Option Role) (f : Form R)

end

abbrev Rules (R : Type) := R → Form R

/-- The nodes read, siblings in source order, and the cursor behind them. -/
abbrev Reading := Option (List Node × Cursor)

/-- Whether a name goes on behind a word. -/
def endsWord : List Char → Bool
  | [] => true
  | c :: _ => !Lexeme.continuesName c

def readWord (text : List Char) (kind : Kind) (c : Cursor) : Reading :=
  match Lexeme.stripPrefix? text c.next.rest with
  | some rest => if endsWord rest then c.token kind (some (text, rest)) else none
  | none => none

def readSign (text longer : List Char) (c : Cursor) : Reading :=
  match Lexeme.stripPrefix? text c.next.rest with
  | some rest =>
    if rest.head?.any longer.contains then none else c.token .token (some (text, rest))
  | none => none

/-- Wraps what was read from `start` on into one node. Comments in front of it stay outside, so a
node starts and ends with a token of its own. -/
def wrap (kind : Kind) (start stop : Cursor) (read : List Node) : List Node :=
  let place := start.next
  read.takeWhile Node.isComment ++
    [⟨kind, none, place.textUpTo stop.last, place.row, place.column,
      read.dropWhile Node.isComment⟩]

def giveRole (r : Role) (read : List Node) : List Node :=
  read.map fun n => if n.isComment then n else n.withRole r

mutual

/-- Reads a form at a cursor. The fuel bounds the depth of the reading. -/
def Form.read {R : Type} (g : Rules R) (d : Dialect) : Nat → Form R → Cursor → Reading
  | 0, _, _ => none
  | fuel + 1, form, c =>
    match form with
    | .token lexeme kind => c.token kind (lexeme.read c.next.rest)
    | .raw lexeme kind => c.rawToken kind (lexeme.read c.last.rest)
    | .word text kind => readWord text kind c
    | .sign text longer => readSign text longer c
    | .sameLine => if c.lineBreak then none else some ([], c)
    | .newLine => if c.lineBreak then some ([], c) else none
    | .atEnd => if c.atEnd then some (c.comments, c) else none
    | .rule r => Form.read g d fuel (g r) c
    | .seq [] => some ([], c)
    | .seq (f :: fs) =>
      match Form.read g d fuel f c with
      | none => none
      | some (xs, c) =>
        match Form.read g d fuel (.seq fs) c with
        | none => none
        | some (ys, c) => some (xs ++ ys, c)
    | .oneOf [] => none
    | .oneOf (f :: fs) =>
      match Form.read g d fuel f c with
      | none => Form.read g d fuel (.oneOf fs) c
      | r => r
    | .many f =>
      match Form.read g d fuel f c with
      | none => some ([], c)
      | some (xs, c') =>
        if c'.last.offset ≤ c.last.offset then some ([], c)
        else
          match Form.read g d fuel (.many f) c' with
          | none => some (xs, c')
          | some (ys, c'') => some (xs ++ ys, c'')
    | .ahead f =>
      match Form.read g d fuel f c with
      | none => none
      | some _ => some ([], c)
    | .notAhead f =>
      match Form.read g d fuel f c with
      | none => some ([], c)
      | some _ => none
    | .only test f => if test d then Form.read g d fuel f c else none
    | .node kind f =>
      match Form.read g d fuel f c with
      | none => none
      | some (xs, c') => some (wrap kind c c' xs, c')
    | .role r f =>
      match Form.read g d fuel f c with
      | none => none
      | some (xs, c') => some (giveRole r xs, c')
    | .grow first steps =>
      match Form.read g d fuel first c with
      | none => none
      | some (xs, c') => some (growFrom g d fuel steps steps c xs c')

/-- Tries the steps in order on what was read so far, and starts over after each success. -/
def growFrom {R : Type} (g : Rules R) (d : Dialect) :
    Nat → List (Step R) → List (Step R) → Cursor → List Node → Cursor → List Node × Cursor
  | 0, _, _, _, xs, c => (xs, c)
  | _ + 1, _, [], _, xs, c => (xs, c)
  | fuel + 1, steps, .mk kind left f :: others, start, xs, c =>
    match Form.read g d fuel f c with
    | none => growFrom g d fuel steps others start xs c
    | some (ys, c') =>
      if c'.last.offset ≤ c.last.offset then (xs, c)
      else
        let lefts := match left with
          | some r => giveRole r xs
          | none => xs
        growFrom g d fuel steps steps start (wrap kind start c' (lefts ++ ys)) c'

end

end CodeAtlas.Grammar
