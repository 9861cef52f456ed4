import CodeAtlas.Output.Format

/-!
The arguments of the program. Options stand in any order; a value follows its option, behind an
equals sign or as the next argument, and an argument that starts with a dash is no value. No option
may be given twice.
-/

namespace CodeAtlas.CommandLine

/-- Settings given as arguments. -/
structure Overrides where
  config : Option String
  threshold : Option Nat
  maxResponsibilities : Option Nat
  includeExternal : Bool
  deriving DecidableEq, Repr

inductive Command where
  | analyze (path : String) (format : Format) (output : Option String) (o : Overrides)
  | file (path : String) (o : Overrides)
  | graph (path : String) (format : Format) (o : Overrides)
  | version
  | greeting
  deriving DecidableEq, Repr

inductive UsageError where
  | unknown (argument : String)
  | missingValue (option : String)
  | unexpectedValue (option : String)
  | repeated (option : String)
  | badValue (option value : String)
  | missingPath
  deriving DecidableEq, Repr

def UsageError.message : UsageError → String
  | unknown argument => "unexpected argument '" ++ argument ++ "' found"
  | missingValue option => "a value is required for '--" ++ option ++ "' but none was supplied"
  | unexpectedValue option => "unexpected value for '--" ++ option ++ "' found"
  | repeated option => "the argument '--" ++ option ++ "' cannot be used multiple times"
  | badValue option value => "invalid value '" ++ value ++ "' for '--" ++ option ++ "'"
  | missingPath => "the following required arguments were not provided: <PATH>"

/-- Why arguments are not read to their end. -/
inductive Halt where
  | help
  | programVersion
  | misuse (e : UsageError)
  deriving DecidableEq, Repr

structure OptionSpec where
  name : String
  letter : Option Char
  takesValue : Bool
  deriving DecidableEq, Repr

def verbose : OptionSpec := ⟨"verbose", some 'v', false⟩

def help : OptionSpec := ⟨"help", some 'h', false⟩

/-- The version of the program, asked for by a letter or by its name. -/
def programVersion : OptionSpec := ⟨"version", some 'V', false⟩

def everywhere : List OptionSpec := [verbose, help]

def overrides : List OptionSpec :=
  [⟨"config", some 'c', true⟩, ⟨"threshold", none, true⟩, ⟨"max-responsibilities", none, true⟩,
    ⟨"include-external", none, false⟩]

def path : OptionSpec := ⟨"path", some 'p', true⟩

def format : OptionSpec := ⟨"format", some 'f', true⟩

def output : OptionSpec := ⟨"output", some 'o', true⟩

/-- The options given so far with their values, and the arguments that are none. -/
structure Given where
  options : List (String × Option String)
  plain : List String
  deriving DecidableEq, Repr

namespace Given

def empty : Given := ⟨[], []⟩

def has (g : Given) (name : String) : Bool := g.options.any (·.1 == name)

/-- Adds an option. To ask for help or for the version ends the reading. -/
def add (g : Given) (o : OptionSpec) (value : Option String) : Except Halt Given :=
  if o = help then .error .help
  else if o = programVersion then .error .programVersion
  else if g.has o.name then .error (.misuse (.repeated o.name))
  else .ok { g with options := g.options ++ [(o.name, value)] }

def value? (g : Given) (name : String) : Option String := (g.options.lookup name).join

end Given

/-- An argument that is taken for an option. -/
def isDashed (argument : String) : Bool :=
  match argument.toList with
  | '-' :: _ :: _ => true
  | _ => false

/-- Takes the value of an option from the arguments behind it. -/
def addNext (g : Given) (o : OptionSpec) : List String → Except Halt (Given × List String)
  | [] => .error (.misuse (.missingValue o.name))
  | value :: rest =>
    if isDashed value then .error (.misuse (.missingValue o.name))
    else do return (← g.add o (some value), rest)

/-- An option by its name, with what is behind an equals sign. -/
def addLong (specs : List OptionSpec) (g : Given) (text : List Char) (rest : List String) :
    Except Halt (Given × List String) :=
  let name := String.ofList (text.takeWhile (· ≠ '='))
  match specs.find? (·.name == name), text.dropWhile (· ≠ '=') with
  | none, _ => .error (.misuse (.unknown ("--" ++ String.ofList text)))
  | some o, [] => if o.takesValue then addNext g o rest else do return (← g.add o none, rest)
  | some o, _ :: value =>
    if o.takesValue then do return (← g.add o (some (String.ofList value)), rest)
    else .error (.misuse (.unexpectedValue o.name))

/-- Options by their letters. What is behind the letter of an option with a value is its value. -/
def addShort (specs : List OptionSpec) (rest : List String) :
    Given → List Char → Except Halt (Given × List String)
  | g, [] => .ok (g, rest)
  | g, c :: cs =>
    match specs.find? (·.letter == some c) with
    | none => .error (.misuse (.unknown ("-" ++ c.toString)))
    | some o =>
      if o.takesValue then
        match cs with
        | [] => addNext g o rest
        | '=' :: value => do return (← g.add o (some (String.ofList value)), rest)
        | value => do return (← g.add o (some (String.ofList value)), rest)
      else do addShort specs rest (← g.add o none) cs

/-- Sorts out arguments up to the first one that is not dashed, if `stops` says so, or to the end.
-/
def sortOut (specs : List OptionSpec) (stops : Bool) (fuel : Nat) (g : Given)
    (arguments : List String) : Except Halt (Given × List String) :=
  match fuel, arguments with
  | 0, _ | _, [] => .ok (g, [])
  | fuel + 1, argument :: rest =>
    match argument.toList with
    | ['-', '-'] => .ok ({ g with plain := g.plain ++ rest }, [])
    | '-' :: '-' :: text => do
      let (g, rest) ← addLong specs g text rest
      sortOut specs stops fuel g rest
    | '-' :: c :: cs => do
      let (g, rest) ← addShort specs rest g (c :: cs)
      sortOut specs stops fuel g rest
    | _ =>
      if stops then .ok (g, argument :: rest)
      else sortOut specs stops fuel { g with plain := g.plain ++ [argument] } rest

def given (specs : List OptionSpec) (stops : Bool) (arguments : List String) :
    Except Halt (Given × List String) :=
  sortOut specs stops arguments.length .empty arguments

/-- A whole number, with or without a plus sign, of at most 64 binary digits. -/
def natural? (text : String) : Option Nat :=
  let digits := match text.toList with
    | '+' :: cs => cs
    | cs => cs
  let n := digits.foldl (fun n c => n * 10 + (c.toNat - '0'.toNat)) 0
  if !digits.isEmpty && digits.all Char.isDigit && n < UInt64.size then some n else none

/-- The value of an option as what it stands for. -/
def readValue {α : Type} (name : String) (read : String → Option α) (g : Given) :
    Except Halt (Option α) :=
  match g.value? name with
  | none => .ok none
  | some text =>
    match read text with
    | some a => .ok (some a)
    | none => .error (.misuse (.badValue name text))

/-- A path, which may not be empty. -/
def path? (text : String) : Option String := if text.isEmpty then none else some text

def readOverrides (g : Given) : Except Halt Overrides := do
  return {
    config := ← readValue "config" path? g
    threshold := ← readValue "threshold" natural? g
    maxResponsibilities := ← readValue "max-responsibilities" natural? g
    includeExternal := g.has "include-external" }

/-- Arguments that are no options are not asked for. -/
def noPlain (g : Given) : Except Halt Unit :=
  match g.plain with
  | [] => .ok ()
  | argument :: _ => .error (.misuse (.unknown argument))

def here : String := "."

/-- A command with its options. -/
def withOptions (specs : List OptionSpec) (arguments : List String)
    (command : Given → Except Halt Command) : Except Halt Command := do
  command (← given (specs ++ everywhere) false arguments).1

def readAnalyze (g : Given) : Except Halt Command := do
  noPlain g
  let directory ← readValue "path" path? g
  let chosen ← readValue "format" Format.ofName? g
  let target ← readValue "output" path? g
  return .analyze (directory.getD here) (chosen.getD .markdown) target (← readOverrides g)

def readFile (g : Given) : Except Halt Command := do
  match g.plain with
  | [] => .error (.misuse .missingPath)
  | [file] =>
    if file.isEmpty then .error (.misuse .missingPath) else return .file file (← readOverrides g)
  | _ :: extra :: _ => .error (.misuse (.unknown extra))

def readGraph (g : Given) : Except Halt Command := do
  noPlain g
  let directory ← readValue "path" path? g
  let chosen ← readValue "format" Format.ofName? g
  return .graph (directory.getD here) (chosen.getD .dot) (← readOverrides g)

def readVersion (g : Given) : Except Halt Command := do
  noPlain g
  return .version

/-- What the arguments ask for. -/
def parse (arguments : List String) : Except Halt Command := do
  let (g, rest) ← given (programVersion :: everywhere) true arguments
  match rest with
  | [] => do noPlain g; return .greeting
  | "analyze" :: rest => withOptions (path :: format :: output :: overrides) rest readAnalyze
  | "file" :: rest => withOptions overrides rest readFile
  | "graph" :: rest => withOptions (path :: format :: overrides) rest readGraph
  | "version" :: rest => withOptions [] rest readVersion
  | "help" :: _ => .error .help
  | other :: _ => .error (.misuse (.unknown other))

end CodeAtlas.CommandLine
