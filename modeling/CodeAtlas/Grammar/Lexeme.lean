import CodeAtlas.Grammar.Place

/-!
Tokens as readers of characters. A reader answers with what it read and what follows, or with
nothing. Two of them only look ahead: `bracketed` runs to the bracket that closes the one it starts
at, over strings, templates and comments, and tells an arrow function or an assignment pattern from
an expression that starts alike.
-/

namespace CodeAtlas.Grammar

inductive Lexeme where
  | exactly (text : List Char)
  | identifier
  | propertyName
  | privateName
  | number
  | string
  | regex
  | templateText
  | markupName
  | markupText
  | markupString
  | entity
  | bracketed
  | pageComment
  | restOfLine
  deriving DecidableEq, Repr

namespace Lexeme

abbrev Read := Option (List Char × List Char)

/-- Letters, `$`, `_` and everything beyond ASCII that is no blank may start a name. -/
def startsName (c : Char) : Bool :=
  c.isAlpha || c = '$' || c = '_' || (127 ≤ c.toNat && !isBlank c)

def continuesName (c : Char) : Bool := startsName c || c.isDigit

def isHexDigit (c : Char) : Bool :=
  c.isDigit || ('a' ≤ c && c ≤ 'f') || ('A' ≤ c && c ≤ 'F')

/-- The length of an escaped character in a name, `\u0061` or `\u{61}`, with its backslash. -/
def nameEscape : List Char → Nat
  | '\\' :: 'u' :: '{' :: rest =>
    let digits := rest.takeWhile isHexDigit
    if !digits.isEmpty && (rest.drop digits.length).head? == some '}' then digits.length + 4 else 0
  | '\\' :: 'u' :: rest => if (rest.take 4).length = 4 && (rest.take 4).all isHexDigit then 6 else 0
  | _ => 0

/-- How many characters at the front belong to a name that has already begun. `pending` characters
of an escape are still to be passed over. -/
def nameLength (pending : Nat) : List Char → Nat
  | [] => 0
  | c :: cs =>
    match pending with
    | p + 1 => nameLength p cs + 1
    | 0 =>
      if continuesName c then nameLength 0 cs + 1
      else
        match nameEscape (c :: cs) with
        | 0 => 0
        | n + 1 => nameLength n cs + 1

def readName (cs : List Char) : Read :=
  match cs with
  | [] => none
  | c :: _ =>
    if startsName c || nameEscape cs ≠ 0 then
      let n := nameLength 0 cs
      some (cs.take n, cs.drop n)
    else none

def reservedWords : List (List Char) :=
  ["break", "case", "catch", "class", "const", "continue", "debugger", "default", "delete", "do",
    "else", "enum", "export", "extends", "finally", "for", "function", "if", "import", "in",
    "instanceof", "new", "return", "super", "switch", "this", "throw", "try", "typeof", "var",
    "void", "while", "with", "yield", "await", "null", "true", "false"].map String.toList

def readIdentifier (cs : List Char) : Read :=
  match readName cs with
  | some (read, rest) => if reservedWords.contains read then none else some (read, rest)
  | none => none

def readPrivateName : List Char → Read
  | '#' :: cs => (readName cs).map fun (read, rest) => ('#' :: read, rest)
  | _ => none

def spanWhile (p : Char → Bool) (cs : List Char) : List Char × List Char :=
  (cs.takeWhile p, cs.dropWhile p)

/-- The digits of an exponent with its mark and sign, or nothing. -/
def exponent (cs : List Char) : List Char × List Char :=
  match cs with
  | e :: rest =>
    if e = 'e' || e = 'E' then
      let (sign, digits) :=
        match rest with
        | '+' :: r => (['+'], r)
        | '-' :: r => (['-'], r)
        | r => ([], r)
      let (read, rest) := spanWhile (fun c => c.isDigit || c = '_') digits
      if read.isEmpty then ([], cs) else (e :: sign ++ read, rest)
    else ([], cs)
  | [] => ([], [])

def bigSuffix : List Char → List Char × List Char
  | 'n' :: rest => (['n'], rest)
  | rest => ([], rest)

def readNumber (cs : List Char) : Read :=
  let digit := fun c : Char => c.isDigit || c = '_'
  match cs with
  | '0' :: x :: rest =>
    if "xXbBoO".toList.contains x then
      let (read, rest) := spanWhile (fun c => isHexDigit c || c = '_') rest
      let (suffix, rest) := bigSuffix rest
      if read.isEmpty then none else some ('0' :: x :: read ++ suffix, rest)
    else decimal digit cs
  | c :: _ => if c.isDigit || c = '.' then decimal digit cs else none
  | [] => none
where
  decimal (digit : Char → Bool) (cs : List Char) : Read :=
    let (whole, rest) := spanWhile digit cs
    match rest with
    | '.' :: rest' =>
      let (fraction, rest') := spanWhile digit rest'
      if whole.isEmpty && fraction.isEmpty then none
      else
        let (power, rest') := exponent rest'
        some (whole ++ '.' :: fraction ++ power, rest')
    | 'n' :: rest' => if whole.isEmpty then none else some (whole ++ ['n'], rest')
    | _ =>
      if whole.isEmpty then none
      else
        let (power, rest') := exponent rest
        some (whole ++ power, rest')

/-- The rest of a string after its opening quote; a line may end only after a backslash, unless
`overLines` is set. The characters read come back in reverse. -/
def readString (quote : Char) (overLines escapes : Bool) (read : List Char) : List Char → Read
  | [] => none
  | '\\' :: c :: cs =>
    if escapes then readString quote overLines escapes (c :: '\\' :: read) cs
    else if c = quote then some ((c :: '\\' :: read).reverse, cs)
    else readString quote overLines escapes (c :: '\\' :: read) cs
  | c :: cs =>
    if c = quote then some ((c :: read).reverse, cs)
    else if (c = '\n' || c = '\r') && !overLines then none
    else readString quote overLines escapes (c :: read) cs

def readQuoted (overLines escapes : Bool) : List Char → Read
  | c :: cs => if c = '"' || c = '\'' then readString c overLines escapes [c] cs else none
  | [] => none

/-- The body of a regular expression after its opening slash. Inside of a class a slash is
ordinary. -/
def regexBody (inClass : Bool) (read : List Char) : List Char → Read
  | [] => none
  | '\\' :: c :: cs => if c = '\n' then none else regexBody inClass (c :: '\\' :: read) cs
  | c :: cs =>
    if c = '\n' then none
    else if inClass then regexBody (c != ']') (c :: read) cs
    else if c = '[' then regexBody true (c :: read) cs
    else if c = '/' then some ((c :: read).reverse, cs)
    else regexBody false (c :: read) cs

def readRegex : List Char → Read
  | '/' :: cs =>
    match cs with
    | '*' :: _ | '/' :: _ => none
    | _ =>
      (regexBody false ['/'] cs).map fun (read, rest) =>
        (read ++ rest.takeWhile Char.isLower, rest.dropWhile Char.isLower)
  | _ => none

/-- The text of a template up to its end or the next substitution. -/
def templateRun (read : List Char) : List Char → List Char × List Char
  | [] => (read.reverse, [])
  | '\\' :: c :: cs => templateRun (c :: '\\' :: read) cs
  | '$' :: '{' :: cs => (read.reverse, '$' :: '{' :: cs)
  | c :: cs => if c = '\x60' then (read.reverse, c :: cs) else templateRun (c :: read) cs

def nonEmpty : List Char × List Char → Read
  | ([], _) => none
  | r => some r

def isMarkupText (c : Char) : Bool :=
  !(c = '<' || c = '>' || c = '{' || c = '}' || c = '&')

/-- Text between tags. Blanks with a line break among them are layout. -/
def readMarkupText (cs : List Char) : Read :=
  let (read, rest) := spanWhile isMarkupText cs
  if read.isEmpty || (read.all isBlank && read.contains '\n') then none else some (read, rest)

/-- A name of an element or attribute may hold dashes after its first character. -/
def readMarkupName (cs : List Char) : Read :=
  match readName cs with
  | some (read, '-' :: rest) =>
    let (more, rest) := spanWhile (fun c => c.isAlphanum || c = '_' || c = '$' || c = '-') rest
    some (read ++ '-' :: more, rest)
  | r => r

def readEntity : List Char → Read
  | '&' :: cs =>
    let (read, rest) := spanWhile (fun c => c.isAlphanum || c = '#') cs
    match read, rest with
    | _ :: _, ';' :: rest => some ('&' :: read ++ [';'], rest)
    | _, _ => none
  | _ => none

/-- What the search for a closing bracket is inside of. -/
inductive Inside where
  | code
  | quoted (quote : Char)
  | lineComment
  | blockComment
  deriving DecidableEq, Repr

/-- Runs to the bracket that closes the outermost open one. A quote without a partner on its line
is ordinary text. -/
def skipBrackets (depth : Nat) (inside : Inside) (read : List Char) : List Char → Read
  | [] => none
  | '\\' :: c :: cs => skipBrackets depth inside (c :: '\\' :: read) cs
  | c :: cs =>
    match inside with
    | .lineComment => skipBrackets depth (if c = '\n' then .code else .lineComment) (c :: read) cs
    | .blockComment =>
      let closed := c = '/' && read.head? == some '*'
      skipBrackets depth (if closed then .code else .blockComment) (c :: read) cs
    | .quoted quote =>
      let closed := c = quote || (c = '\n' && quote != '\x60')
      skipBrackets depth (if closed then .code else .quoted quote) (c :: read) cs
    | .code =>
      if c = '(' || c = '[' || c = '{' then skipBrackets (depth + 1) .code (c :: read) cs
      else if c = ')' || c = ']' || c = '}' then
        match depth with
        | 0 | 1 => some ((c :: read).reverse, cs)
        | d + 2 => skipBrackets (d + 1) .code (c :: read) cs
      else if c = '"' || c = '\'' || c = '\x60' then skipBrackets depth (.quoted c) (c :: read) cs
      else
        let inside := if c = '/' then
            match cs with
            | '/' :: _ => .lineComment
            | '*' :: _ => .blockComment
            | _ => .code
          else .code
        skipBrackets depth inside (c :: read) cs

def readBracketed (cs : List Char) : Read :=
  match cs with
  | c :: _ => if c = '(' || c = '[' || c = '{' then skipBrackets 0 .code [] cs else none
  | [] => none

def readPageComment (cs : List Char) : Read :=
  if "<!--".toList.isPrefixOf cs || "-->".toList.isPrefixOf cs then
    nonEmpty (spanWhile (!isLineBreak ·) cs)
  else none

def stripPrefix? (text cs : List Char) : Option (List Char) :=
  if text.isPrefixOf cs then some (cs.drop text.length) else none

/-- What the lexeme reads at the front of the given characters. -/
def read (cs : List Char) : Lexeme → Read
  | .exactly text => (stripPrefix? text cs).map (text, ·)
  | .identifier => readIdentifier cs
  | .propertyName => readName cs
  | .privateName => readPrivateName cs
  | .number => readNumber cs
  | .string => readQuoted false true cs
  | .regex => readRegex cs
  | .templateText => nonEmpty (templateRun [] cs)
  | .markupName => readMarkupName cs
  | .markupText => readMarkupText cs
  | .markupString => readQuoted true false cs
  | .entity => readEntity cs
  | .bracketed => readBracketed cs
  | .pageComment => readPageComment cs
  | .restOfLine => nonEmpty (spanWhile (· != '\n') cs)

end Lexeme

end CodeAtlas.Grammar
