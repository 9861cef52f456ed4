/-!
File patterns. A star and a question mark stay within a name, two stars stand for any directories,
brackets for one of several bytes, braces for one of several patterns. Paths are matched byte by
byte; `Piece.rests` says what may be left of a path behind a piece, and a pattern matches if
something its pieces leave is empty.
-/

namespace CodeAtlas.Source

inductive GlobError where
  | unclosedClass
  | invalidRange (first last : Char)
  | unopenedAlternates
  | unclosedAlternates
  | danglingEscape
  deriving DecidableEq, Repr

namespace GlobError

def label : GlobError → String
  | unclosedClass => "UnclosedClass"
  | invalidRange _ _ => "InvalidRange"
  | unopenedAlternates => "UnopenedAlternates"
  | unclosedAlternates => "UnclosedAlternates"
  | danglingEscape => "DanglingEscape"

def reason : GlobError → String
  | unclosedClass => "unclosed character class; missing ']'"
  | invalidRange first last =>
    "invalid range; '" ++ first.toString ++ "' > '" ++ last.toString ++ "'"
  | unopenedAlternates =>
    "unopened alternate group; missing '\x7b' (maybe escape '\x7d' with '[\x7d]'?)"
  | unclosedAlternates =>
    "unclosed alternate group; missing '\x7d' (maybe escape '\x7b' with '[\x7b]'?)"
  | danglingEscape => "dangling '\\'"

def message (pattern : String) (e : GlobError) : String :=
  "error parsing glob '" ++ pattern ++ "': " ++ e.reason

end GlobError

abbrev Bytes := List UInt8

def bytesOf (c : Char) : Bytes := (String.singleton c).toUTF8.toList

def slash : UInt8 := 47

/-- A part of a pattern without braces. -/
inductive Piece where
  | literal (c : Char)
  /-- One byte of a name. -/
  | anyByte
  /-- Any bytes of a name. -/
  | run
  /-- One byte that is in one of the ranges, or in none of them. -/
  | oneOf (negated : Bool) (ranges : List (Char × Char))
  /-- Any directories at the front. -/
  | leading
  /-- Anything behind a slash. -/
  | trailing
  /-- Any directories between two names. -/
  | between
  deriving DecidableEq, Repr

/-- What is left when a byte that passes the test is taken off the front. -/
def takeByte (test : UInt8 → Bool) : Bytes → List Bytes
  | [] => []
  | b :: rest => if test b then [rest] else []

def takeBytes : Bytes → Bytes → List Bytes
  | [], bytes => [bytes]
  | b :: bs, bytes => (takeByte (· == b) bytes).flatMap (takeBytes bs)

/-- What is left when any number of bytes that pass the test are taken off. -/
def takeRun (test : UInt8 → Bool) : Bytes → List Bytes
  | [] => [[]]
  | b :: rest => (b :: rest) :: if test b then takeRun test rest else []

/-- What is left behind each slash. -/
def afterSlashes : Bytes → List Bytes
  | [] => []
  | b :: rest => if b == slash then rest :: afterSlashes rest else afterSlashes rest

/-- A range is a range of bytes: of a character of several bytes the others stand on their own. -/
def rangeContains (b : UInt8) (range : Char × Char) : Bool :=
  let first := bytesOf range.1
  let last := bytesOf range.2
  if range.1 = range.2 then first.contains b
  else
    match first.reverse, last with
    | low :: before, high :: behind =>
      before.contains b || (low ≤ b && b ≤ high) || behind.contains b
    | _, _ => false

namespace Piece

/-- What may be left of a path behind a piece. -/
def rests : Piece → Bytes → List Bytes
  | literal c, bytes => takeBytes (bytesOf c) bytes
  | anyByte, bytes => takeByte (· != slash) bytes
  | run, bytes => takeRun (· != slash) bytes
  | oneOf negated ranges, bytes => takeByte (fun b => ranges.any (rangeContains b) != negated) bytes
  | leading, bytes => bytes :: afterSlashes bytes
  | trailing, bytes => (takeByte (· == slash) bytes).flatMap (takeRun fun _ => true)
  | between, bytes => (takeByte (· == slash) bytes).flatMap fun rest => rest :: afterSlashes rest

end Piece

def matchPieces : List Piece → Bytes → Bool
  | [], bytes => bytes.isEmpty
  | p :: ps, bytes => (p.rests bytes).any (matchPieces ps)

/-- A part of a pattern; braces hold several patterns. -/
inductive Part where
  | piece (p : Piece)
  | group (alternatives : List (List Part))

mutual

/-- The patterns without braces that a pattern stands for. An empty one among the alternatives of a
group does not count, unless all are empty. -/
def expand : List Part → List (List Piece)
  | [] => [[]]
  | .piece p :: parts => (expand parts).map (p :: ·)
  | .group alternatives :: parts =>
    let rest := expand parts
    match expandAll alternatives with
    | [] => rest
    | chosen => chosen.flatMap fun front => rest.map (front ++ ·)

def expandAll : List (List Part) → List (List Piece)
  | [] => []
  | parts :: more => (if yieldsNothing parts then [] else expand parts) ++ expandAll more

/-- Whether a pattern has no pieces at all, even inside of its groups. -/
def yieldsNothing : List Part → Bool
  | [] => true
  | .piece _ :: _ => false
  | .group alternatives :: parts => allYieldNothing alternatives && yieldsNothing parts

def allYieldNothing : List (List Part) → Bool
  | [] => true
  | parts :: more => yieldsNothing parts && allYieldNothing more

end

/-- A group being read: the alternatives read so far and the one under way, both in reverse. -/
structure OpenGroup where
  finished : List (List Part)
  current : List Part

namespace OpenGroup

def empty : OpenGroup := ⟨[], []⟩

def push (g : OpenGroup) (p : Part) : OpenGroup := { g with current := p :: g.current }

/-- Ends the alternative under way and starts another one. -/
def next (g : OpenGroup) : OpenGroup := ⟨g.current.reverse :: g.finished, []⟩

def close (g : OpenGroup) : Part := .group g.next.finished.reverse

end OpenGroup

/-- A pattern being read: the innermost group, those around it, and the character before. -/
structure GlobState where
  inner : OpenGroup
  outer : List OpenGroup
  previous : Option Char

namespace GlobState

def start : GlobState := ⟨.empty, [], none⟩

def push (s : GlobState) (p : Piece) (c : Char) : GlobState :=
  { s with inner := s.inner.push (.piece p), previous := some c }

def inGroup (s : GlobState) : Bool := !s.outer.isEmpty

/-- Two stars that stand for directories take the slash before them along; directories on either
side of a slash are the same directories. -/
def pushDirectories (s : GlobState) (p : Piece) (c : Char) : GlobState :=
  let replace (p : Piece) (before : List Part) : GlobState :=
    ⟨{ s.inner with current := .piece p :: before }, s.outer, c⟩
  match s.inner.current with
  | .piece .leading :: before => replace .leading before
  | .piece .trailing :: before => replace .trailing before
  | _ :: before => replace p before
  | [] => s.push p c

/-- Whether two stars here can stand for directories. -/
def atBoundary (s : GlobState) : Bool :=
  s.previous == some '/' || (s.inGroup && (s.previous == some ',' || s.previous == some '\x7b'))

end GlobState

/-- The ranges of a class, the one read last first; `pending` after a dash that may end one. -/
structure ClassState where
  ranges : List (Char × Char)
  pending : Bool
  first : Bool

def ClassState.finish (s : ClassState) : List (Char × Char) :=
  (if s.pending then ('-', '-') :: s.ranges else s.ranges).reverse

def ClassState.add (s : ClassState) (c : Char) : Except GlobError ClassState :=
  match s.pending, s.ranges with
  | true, (low, _) :: more =>
    if c < low then .error (.invalidRange low c) else .ok ⟨(low, c) :: more, false, false⟩
  | _, ranges => .ok ⟨(c, c) :: ranges, false, false⟩

/-- What reads the next character of a pattern. -/
inductive GlobMode where
  | plain
  | escaped
  | classStart
  | inClass (negated : Bool) (s : ClassState)

def twoRuns (s : GlobState) : GlobState := (s.push .run '*').push .run '*'

/-- Reads the rest of a pattern. -/
def readGlob (mode : GlobMode) (s : GlobState) : List Char → Except GlobError (List Part)
  | [] =>
    match mode with
    | .escaped => .error .danglingEscape
    | .classStart | .inClass _ _ => .error .unclosedClass
    | .plain =>
      if s.inGroup then .error .unclosedAlternates else .ok s.inner.current.reverse
  | c :: cs =>
    match mode with
    | .escaped => readGlob .plain (s.push (.literal c) c) cs
    | .classStart =>
      if c = '!' || c = '^' then readGlob (.inClass true ⟨[], false, true⟩) s cs
      else
        match (ClassState.mk [] false true).add c with
        | .ok state => readGlob (.inClass false state) s cs
        | .error e => .error e
    | .inClass negated state =>
      if c = ']' && !state.first then
        readGlob .plain (s.push (.oneOf negated state.finish) c) cs
      else if c = '-' && !state.first && !state.pending then
        readGlob (.inClass negated { state with pending := true }) s cs
      else
        match state.add c with
        | .ok state => readGlob (.inClass negated state) s cs
        | .error e => .error e
    | .plain =>
      match c, cs with
      | '?', cs => readGlob .plain (s.push .anyByte c) cs
      | '[', cs => readGlob .classStart s cs
      | '\\', cs => readGlob .escaped s cs
      | '\x7b', cs => readGlob .plain ⟨.empty, s.inner :: s.outer, some c⟩ cs
      | '\x7d', cs =>
        match s.outer with
        | [] => .error .unopenedAlternates
        | g :: outer => readGlob .plain ⟨g.push s.inner.close, outer, some c⟩ cs
      | ',', cs =>
        if s.inGroup then readGlob .plain { s with inner := s.inner.next, previous := some c } cs
        else readGlob .plain (s.push (.literal c) c) cs
      | '*', '*' :: cs =>
        if s.inner.current.isEmpty then
          match cs with
          | [] => readGlob .plain (s.push .leading '*') []
          | '/' :: cs => readGlob .plain (s.push .leading '/') cs
          | c :: cs => readGlob .plain (twoRuns s) (c :: cs)
        else if !s.atBoundary then readGlob .plain (twoRuns s) cs
        else
          match cs with
          | [] => readGlob .plain (s.pushDirectories .trailing '*') []
          | '/' :: cs => readGlob .plain (s.pushDirectories .between '/') cs
          | c :: cs =>
            if s.inGroup && (c = ',' || c = '\x7d') then
              readGlob .plain (s.pushDirectories .trailing '*') (c :: cs)
            else readGlob .plain (twoRuns s) (c :: cs)
      | '*', cs => readGlob .plain (s.push .run c) cs
      | c, cs => readGlob .plain (s.push (.literal c) c) cs

/-- A pattern that has been read. -/
structure Glob where
  parts : List Part

namespace Glob

/-- Two stars on their own match every path. -/
def ofParts : List Part → Glob
  | [.piece .leading] => ⟨[.piece .leading, .piece .run]⟩
  | parts => ⟨parts⟩

def parse (pattern : String) : Except GlobError Glob :=
  (readGlob .plain .start pattern.toList).map ofParts

/-- The patterns without braces that a pattern stands for. -/
def alternatives (g : Glob) : List (List Piece) := expand g.parts

def pathBytes (path : String) : Bytes := path.toUTF8.toList

/-- Whether a path, with slashes between its names, matches. -/
def accepts (g : Glob) (path : String) : Bool :=
  g.alternatives.any fun pieces => matchPieces pieces (pathBytes path)

end Glob

end CodeAtlas.Source
