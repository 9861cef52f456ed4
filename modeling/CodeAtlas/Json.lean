import CodeAtlas.Decimal.Layout

/-!
Data as it is written to files: a tree of named and listed values, printed on one line or with one
value a line.
-/

namespace CodeAtlas

inductive Json where
  | null
  | bool (b : Bool)
  | nat (n : Nat)
  | number (x : Float)
  | string (s : String)
  | list (xs : List Json)
  | object (fields : List (String × Json))

namespace Json

def hexDigit (n : Nat) : Char := (Nat.digitChar n)

/-- Quotes, backslashes and controls are escaped, and nothing else. -/
def escapeChar (c : Char) : List Char :=
  if c = '\"' then ['\\', '\"']
  else if c = '\\' then ['\\', '\\']
  else if c = '\n' then ['\\', 'n']
  else if c = '\r' then ['\\', 'r']
  else if c = '\t' then ['\\', 't']
  else if c.toNat = 8 then ['\\', 'b']
  else if c.toNat = 12 then ['\\', 'f']
  else if c.toNat < 32 then
    ['\\', 'u', '0', '0', hexDigit (c.toNat / 16), hexDigit (c.toNat % 16)]
  else [c]

def quote (s : String) : String :=
  "\"" ++ String.ofList (s.toList.flatMap escapeChar) ++ "\""

/-- A number that is none has no form of its own in data. -/
def writeNumber (x : Float) : String :=
  if x.isNaN || x.isInf then "null" else Decimal.Layout.data.render x

def openObject : String := "\x7b"

def closeObject : String := "\x7d"

mutual

/-- Everything on one line. -/
def compact : Json → String
  | null => "null"
  | bool b => if b then "true" else "false"
  | nat n => toString n
  | number x => writeNumber x
  | string s => quote s
  | list xs => "[" ++ ",".intercalate (compactAll xs) ++ "]"
  | object fields => openObject ++ ",".intercalate (compactFields fields) ++ closeObject

def compactAll : List Json → List String
  | [] => []
  | x :: xs => x.compact :: compactAll xs

def compactFields : List (String × Json) → List String
  | [] => []
  | (name, x) :: fields => (quote name ++ ":" ++ x.compact) :: compactFields fields

end

def indentation (depth : Nat) : String := String.ofList (List.replicate (2 * depth) ' ')

/-- The parts of a list or object, one a line, between its brackets. -/
def block (opening closing : String) (depth : Nat) (parts : List String) : String :=
  if parts.isEmpty then opening ++ closing
  else
    opening ++ "\n" ++
      ",\n".intercalate (parts.map (indentation (depth + 1) ++ ·)) ++
      "\n" ++ indentation depth ++ closing

mutual

/-- One value a line, two blanks for every level. -/
def prettyAt (depth : Nat) : Json → String
  | list xs => block "[" "]" depth (prettyAll (depth + 1) xs)
  | object fields => block openObject closeObject depth (prettyFields (depth + 1) fields)
  | null => "null"
  | bool b => if b then "true" else "false"
  | nat n => toString n
  | number x => writeNumber x
  | string s => quote s

def prettyAll (depth : Nat) : List Json → List String
  | [] => []
  | x :: xs => x.prettyAt depth :: prettyAll depth xs

def prettyFields (depth : Nat) : List (String × Json) → List String
  | [] => []
  | (name, x) :: fields => (quote name ++ ": " ++ x.prettyAt depth) :: prettyFields depth fields

end

def pretty (x : Json) : String := x.prettyAt 0

def strings (xs : List String) : Json := list (xs.map string)

/-- A field that is left out when there is nothing to say. -/
def optional (name : String) (value : Option Json) : List (String × Json) :=
  value.toList.map (name, ·)

def orNull (value : Option Json) : Json := value.getD null

end Json

end CodeAtlas
