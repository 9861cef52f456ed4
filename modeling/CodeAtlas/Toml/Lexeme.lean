import CodeAtlas.Config.Value
import CodeAtlas.Decimal.Nearest

/-!
The parts of a settings text that hold no other parts: blanks, comments, strings, numbers and
moments. A reader takes its part off the front of a text, or fails.
-/

namespace CodeAtlas.Toml

open Config (Value)

abbrev Reader (α : Type) := List Char → Option (α × List Char)

def isBlank (c : Char) : Bool := c = ' ' || c = '\t'

def skipBlanks (cs : List Char) : List Char := cs.dropWhile isBlank

/-- What may stand on a line. -/
def isPrintable (c : Char) : Bool := c = '\t' || (' ' ≤ c && c.toNat ≠ 127)

def lineBreak? : List Char → Option (List Char)
  | '\n' :: cs | '\r' :: '\n' :: cs => some cs
  | _ => none

def skipComment : List Char → List Char
  | '#' :: cs => cs.dropWhile isPrintable
  | cs => cs

/-- Takes off the rest of a line that says nothing more. -/
def lineEnd? (cs : List Char) : Option (List Char) :=
  match skipComment (skipBlanks cs) with
  | [] => some []
  | cs => lineBreak? cs

/-- Takes off blanks, line breaks and comments. -/
def skipGap (inComment : Bool) : List Char → List Char
  | [] => []
  | '\n' :: cs | '\r' :: '\n' :: cs => skipGap false cs
  | c :: cs =>
    if inComment then if isPrintable c then skipGap true cs else c :: cs
    else if isBlank c then skipGap false cs
    else if c = '#' then skipGap true cs
    else c :: cs

def digitValue (c : Char) : Nat :=
  if c.isDigit then c.toNat - '0'.toNat else c.toLower.toNat - 'a'.toNat + 10

def isHexDigit (c : Char) : Bool := c.isDigit || ('a' ≤ c.toLower && c.toLower ≤ 'f')

def ofDigits (base : Nat) (digits : List Char) : Nat :=
  digits.foldl (fun n c => n * base + digitValue c) 0

/-! Strings. -/

def shortEscape? : Char → Option Char
  | 'b' => some (Char.ofNat 8)
  | 't' => some '\t'
  | 'n' => some '\n'
  | 'f' => some (Char.ofNat 12)
  | 'r' => some '\r'
  | '\"' => some '\"'
  | '\\' => some '\\'
  | _ => none

/-- The character with the given number, if it is written in digits and there is one. -/
def numbered? (digits : List Char) : Option Char :=
  let n := ofDigits 16 digits
  if digits.all isHexDigit && n.isValidChar then some (Char.ofNat n) else none

/-- What an escape stands for, from behind its backslash on. -/
def escape? : Reader Char
  | 'u' :: a :: b :: c :: d :: cs => (numbered? [a, b, c, d]).map (·, cs)
  | 'U' :: a :: b :: c :: d :: e :: f :: g :: h :: cs =>
    (numbered? [a, b, c, d, e, f, g, h]).map (·, cs)
  | c :: cs => (shortEscape? c).map (·, cs)
  | [] => none

/-- How far the reader of a string on several lines is with an escaped line break. -/
inductive Fold where
  | text
  /-- Behind a backslash and blanks: a line break has to follow. -/
  | before
  /-- Behind the line break: blanks and further breaks are left out. -/
  | behind
  deriving DecidableEq

/-- The rest of a string between double quotes. -/
def quoted? (fuel : Nat) (read : List Char) (cs : List Char) : Option (String × List Char) :=
  match fuel, cs with
  | 0, _ | _, [] => none
  | _, '\"' :: cs => some (String.ofList read.reverse, cs)
  | fuel + 1, '\\' :: cs => (escape? cs).bind fun (c, cs) => quoted? fuel (c :: read) cs
  | fuel + 1, c :: cs => if isPrintable c then quoted? fuel (c :: read) cs else none

/-- The rest of a string between single quotes: nothing is escaped. -/
def literal? (read : List Char) : Reader String
  | [] => none
  | '\'' :: cs => some (String.ofList read.reverse, cs)
  | c :: cs => if isPrintable c then literal? (c :: read) cs else none

/-- The end of a string on several lines: up to two quotes may stand before the closing three. -/
def closing? (quote : Char) (cs : List Char) : Option (Nat × List Char) :=
  let count := (cs.takeWhile (· = quote)).length
  if count < 3 then none else some (min (count - 3) 2, cs.drop (min count 5))

/-- The rest of a string on several lines between double quotes. -/
def quotedLines? (fuel : Nat) (fold : Fold) (read : List Char) (cs : List Char) :
    Option (String × List Char) :=
  match fuel with
  | 0 => none
  | fuel + 1 =>
    match lineBreak? cs, cs with
    | some cs, _ =>
      if fold = .text then quotedLines? fuel .text ('\n' :: read) cs
      else quotedLines? fuel .behind read cs
    | none, [] => none
    | none, c :: cs =>
      if fold ≠ .text && isBlank c then quotedLines? fuel fold read cs
      else if fold = .before then none
      else
        match closing? '\"' (c :: cs) with
        | some (quotes, cs) =>
          some (String.ofList (List.replicate quotes '\"' ++ read).reverse, cs)
        | none =>
          if c = '\\' then
            match escape? cs with
            | some (c, cs) => quotedLines? fuel .text (c :: read) cs
            | none => quotedLines? fuel .before read cs
          else if isPrintable c then quotedLines? fuel .text (c :: read) cs
          else none

/-- The rest of a string on several lines between single quotes. -/
def literalLines? (fuel : Nat) (read : List Char) (cs : List Char) : Option (String × List Char) :=
  match fuel with
  | 0 => none
  | fuel + 1 =>
    match lineBreak? cs, closing? '\'' cs, cs with
    | some cs, _, _ => literalLines? fuel ('\n' :: read) cs
    | none, some (quotes, cs), _ =>
      some (String.ofList (List.replicate quotes '\'' ++ read).reverse, cs)
    | none, none, c :: cs => if isPrintable c then literalLines? fuel (c :: read) cs else none
    | none, none, [] => none

/-- A line break right behind the opening quotes is none of the text. -/
def dropBreak (cs : List Char) : List Char := (lineBreak? cs).getD cs

def string? : Reader String
  | '\"' :: '\"' :: '\"' :: cs => quotedLines? (cs.length + 1) .text [] (dropBreak cs)
  | '\"' :: cs => quoted? (cs.length + 1) [] cs
  | '\'' :: '\'' :: '\'' :: cs => literalLines? (cs.length + 1) [] (dropBreak cs)
  | '\'' :: cs => literal? [] cs
  | _ => none

/-! Moments. -/

/-- So many digits that make up a number in a range. -/
def digitsWithin? (count low high : Nat) : Reader Nat := fun cs =>
  let digits := cs.take count
  let n := ofDigits 10 digits
  if digits.length = count && digits.all Char.isDigit && low ≤ n && n ≤ high then
    some (n, cs.drop count)
  else none

def sign? (c : Char) : Reader Unit
  | d :: cs => if c = d then some ((), cs) else none
  | [] => none

def daysIn (year month : Nat) : Nat :=
  let isLeap := year % 4 = 0 && (year % 100 ≠ 0 || year % 400 = 0)
  match month with
  | 2 => if isLeap then 29 else 28
  | 4 | 6 | 9 | 11 => 30
  | _ => 31

def date? (cs : List Char) : Option (List Char) := do
  let (year, cs) ← digitsWithin? 4 0 9999 cs
  let (_, cs) ← sign? '-' cs
  let (month, cs) ← digitsWithin? 2 1 12 cs
  let (_, cs) ← sign? '-' cs
  let (_, cs) ← digitsWithin? 2 1 (daysIn year month) cs
  return cs

/-- Digits behind a point, if there are any. -/
def skipFraction : List Char → List Char
  | '.' :: c :: cs => if c.isDigit then cs.dropWhile Char.isDigit else '.' :: c :: cs
  | cs => cs

def time? (cs : List Char) : Option (List Char) := do
  let (_, cs) ← digitsWithin? 2 0 23 cs
  let (_, cs) ← sign? ':' cs
  let (_, cs) ← digitsWithin? 2 0 59 cs
  let (_, cs) ← sign? ':' cs
  let (_, cs) ← digitsWithin? 2 0 60 cs
  return skipFraction cs

def offset? : List Char → Option (List Char)
  | c :: cs =>
    if c = 'Z' || c = 'z' then some cs
    else if c = '+' || c = '-' then do
      let (_, cs) ← digitsWithin? 2 0 23 cs
      let (_, cs) ← sign? ':' cs
      let (_, cs) ← digitsWithin? 2 0 59 cs
      return cs
    else none
  | [] => none

/-- The time of a day, behind its date. -/
def timeOfDay? : List Char → Option (List Char)
  | c :: cs =>
    if c = 'T' || c = 't' || c = ' ' then (time? cs).map fun cs => (offset? cs).getD cs else none
  | [] => none

def moment? (cs : List Char) : Option (List Char) :=
  match date? cs with
  | some cs => some ((timeOfDay? cs).getD cs)
  | none => time? cs

/-! Numbers. -/

/-- Digits behind a first one. An underscore has to stand between two digits. -/
def moreDigits? (isDigit : Char → Bool) (read : List Char) : Reader (List Char)
  | '_' :: c :: cs => if isDigit c then moreDigits? isDigit (c :: read) cs else none
  | c :: cs =>
    if isDigit c then moreDigits? isDigit (c :: read) cs
    else if c = '_' then none
    else some (read.reverse, c :: cs)
  | [] => some (read.reverse, [])

def digits? (isDigit : Char → Bool) : Reader (List Char)
  | c :: cs => if isDigit c then moreDigits? isDigit [c] cs else none
  | [] => none

/-- Digits of a whole number: a zero stands alone. -/
def wholeDigits? : Reader (List Char)
  | '0' :: cs => some (['0'], cs)
  | cs => digits? Char.isDigit cs

def signed : List Char → Bool × List Char
  | '-' :: cs => (true, cs)
  | '+' :: cs => (false, cs)
  | cs => (false, cs)

def maxInteger : Nat := 0x7FFFFFFFFFFFFFFF

def basedInteger? (base : Nat) (isDigit : Char → Bool) (cs : List Char) :
    Option (Value × List Char) := do
  let (digits, cs) ← digits? isDigit cs
  let n := ofDigits base digits
  if n ≤ maxInteger then some (.integer n, cs) else none

def fraction? : Reader (List Char)
  | '.' :: cs => digits? Char.isDigit cs
  | cs => some ([], cs)

def exponent? : Reader Int
  | c :: cs =>
    if c = 'e' || c = 'E' then do
      let (isNegative, cs) := signed cs
      let (digits, cs) ← digits? Char.isDigit cs
      let n : Int := ofDigits 10 digits
      return (if isNegative then -n else n, cs)
    else some (0, c :: cs)
  | [] => some (0, [])

/-- A decimal number, with a point or an exponent or as a whole number. A number that is too large
is none; it may be too small. -/
def decimal? (cs : List Char) : Option (Value × List Char) := do
  let (isNegative, start) := signed cs
  let (whole, rest) ← wholeDigits? start
  let (fraction, behind) ← fraction? rest
  let (exponent, cs) ← exponent? behind
  let n := ofDigits 10 (whole ++ fraction)
  if cs.length = rest.length then
    let i : Int := if isNegative then -n else n
    if -(maxInteger + 1 : Int) ≤ i && i ≤ maxInteger then some (.integer i, cs) else none
  else
    let x := Decimal.nearest isNegative n (exponent - fraction.length)
    if x.isInf && !isNegative then none else some (.number x, cs)

/-- What is no decimal number and yet one, with its sign. -/
def special? (cs : List Char) : Option (Value × List Char) :=
  let (isNegative, cs) := signed cs
  match cs with
  | 'i' :: 'n' :: 'f' :: cs => some (.number (if isNegative then -1.0 / 0.0 else 1.0 / 0.0), cs)
  | 'n' :: 'a' :: 'n' :: cs => some (.number (0.0 / 0.0), cs)
  | _ => none

def number? : Reader Value
  | '0' :: 'x' :: cs => basedInteger? 16 isHexDigit cs
  | '0' :: 'o' :: cs => basedInteger? 8 (fun c => '0' ≤ c && c ≤ '7') cs
  | '0' :: 'b' :: cs => basedInteger? 2 (fun c => c = '0' || c = '1') cs
  | cs => (special? cs).orElse fun _ => decimal? cs

def truth? : Reader Value
  | 't' :: 'r' :: 'u' :: 'e' :: cs => some (.truth true, cs)
  | 'f' :: 'a' :: 'l' :: 's' :: 'e' :: cs => some (.truth false, cs)
  | _ => none

/-- A value that holds no other values. -/
def scalar? (cs : List Char) : Option (Value × List Char) :=
  match string? cs with
  | some (s, cs) => some (.text s, cs)
  | none =>
    match moment? cs with
    | some cs => some (.moment, cs)
    | none => (truth? cs).orElse fun _ => number? cs

end CodeAtlas.Toml
