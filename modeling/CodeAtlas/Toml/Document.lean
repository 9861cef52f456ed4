import CodeAtlas.Toml.Lexeme
import CodeAtlas.Toml.Table

/-!
Settings texts as a whole: lists and tables of values, and the lines that name them. Lists and
inline tables may be nested up to a limit, and so may keys.
-/

namespace CodeAtlas.Toml

open Config (Value)

def nestingLimit : Nat := 79

def isBareKey (c : Char) : Bool := c.isAlphanum || c = '-' || c = '_'

/-- One part of a dotted key. -/
def keyPart? : Reader String
  | '\"' :: cs => quoted? (cs.length + 1) [] cs
  | '\'' :: cs => literal? [] cs
  | cs =>
    let name := cs.takeWhile isBareKey
    if name.isEmpty then none else some (String.ofList name, cs.dropWhile isBareKey)

/-- The parts of a key, with blanks around each of them. -/
def keyParts? (fuel : Nat) (cs : List Char) : Option (List String × List Char) :=
  match fuel with
  | 0 => none
  | fuel + 1 => do
    let (part, cs) ← keyPart? (skipBlanks cs)
    match skipBlanks cs with
    | '.' :: cs =>
      let (parts, cs) ← keyParts? fuel cs
      return (part :: parts, cs)
    | cs => return ([part], cs)

def key? : Reader (List String) := keyParts? nestingLimit

/-- A key, an equals sign and a value. -/
def assignment? (value? : Reader Value) (cs : List Char) :
    Option ((List String × Value) × List Char) := do
  let (path, cs) ← key? cs
  let (_, cs) ← sign? '=' cs
  let (v, cs) ← value? (skipBlanks cs)
  return ((path, v), cs)

def Fields.assign (path : List String) (v : Value) (fields : Fields) : Option Fields := do
  fields.setDotted (← path.getLast?) v path.dropLast

/-- The rest of a list, from its next element or its end on. -/
def elements? (value? : Reader Value) (fuel : Nat) (read : List Value) (cs : List Char) :
    Option (List Value × List Char) :=
  match fuel, cs with
  | 0, _ => none
  | _, ']' :: cs => some (read.reverse, cs)
  | fuel + 1, cs => do
    let (v, cs) ← value? cs
    match skipGap false cs with
    | ',' :: cs => elements? value? fuel (v :: read) (skipGap false cs)
    | ']' :: cs => some ((v :: read).reverse, cs)
    | _ => none

/-- The rest of an inline table, from its next key on. -/
def members? (value? : Reader Value) (fuel : Nat) (fields : Fields) (cs : List Char) :
    Option (Fields × List Char) :=
  match fuel with
  | 0 => none
  | fuel + 1 => do
    let ((path, v), cs) ← assignment? value? cs
    let fields ← fields.assign path v
    match skipBlanks cs with
    | ',' :: cs => members? value? fuel fields cs
    | '\x7d' :: cs => some (fields, cs)
    | _ => none

/-- A value with at most `depth` lists and inline tables around any part of it. -/
def value? : Nat → Reader Value
  | 0, cs => scalar? cs
  | depth + 1, '[' :: cs =>
    (elements? (value? depth) (cs.length + 1) [] (skipGap false cs)).map fun (xs, cs) =>
      (.list xs, cs)
  | depth + 1, '\x7b' :: cs =>
    match skipBlanks cs with
    | '\x7d' :: cs => some (.table [], cs)
    | cs =>
      (members? (value? depth) (cs.length + 1) [] cs).map fun (fields, cs) =>
        (.table (valuesOf fields), cs)
  | _ + 1, cs => scalar? cs

/-- A text read up to some line: its tables, and the one that is open. -/
structure State where
  fields : Fields
  path : List String

/-- A header between brackets. -/
def header? (closing : List Char) (openIt : String → Fields → Option Fields) (s : State)
    (cs : List Char) : Option (State × List Char) := do
  let (path, cs) ← key? cs
  let cs ← if closing.isPrefixOf cs then lineEnd? (cs.drop closing.length) else none
  let fields ← s.fields.under (openIt (← path.getLast?)) path.dropLast
  return (⟨fields, path⟩, cs)

/-- One line: an assignment, a header, or nothing. -/
def line? (s : State) (cs : List Char) : Option (State × List Char) :=
  match lineEnd? cs, cs with
  | some cs, _ => some (s, cs)
  | none, '[' :: '[' :: cs => header? [']', ']'] Fields.openNext s cs
  | none, '[' :: cs => header? [']'] Fields.openTable s cs
  | none, cs => do
    let ((path, v), cs) ← assignment? (value? nestingLimit) cs
    let cs ← lineEnd? cs
    return ({ s with fields := ← s.fields.under (Fields.assign path v) s.path }, cs)

def lines? (fuel : Nat) (s : State) (cs : List Char) : Option State :=
  match fuel, cs with
  | _, [] => some s
  | 0, _ => none
  | fuel + 1, cs => do
    let (s, cs) ← line? s (skipBlanks cs)
    lines? fuel s cs

/-- A byte order mark may stand in front of a text. -/
def skipMark : List Char → List Char
  | c :: cs => if c.toNat = 0xFEFF then cs else c :: cs
  | [] => []

/-- The table that a settings text stands for. -/
def parse (text : String) : Option Value :=
  let cs := skipMark text.toList
  (lines? (cs.length + 1) ⟨[], []⟩ cs).map fun s => .table (valuesOf s.fields)

end CodeAtlas.Toml
