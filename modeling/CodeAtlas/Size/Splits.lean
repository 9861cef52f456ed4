import CodeAtlas.FilePath
import CodeAtlas.Rating
import CodeAtlas.Shape
import CodeAtlas.Text.Words

/-!
Ways to split a file that has grown too large. They are read off the declarations at the top of the
file; where these suggest nothing, the file is cut into equal parts.
-/

namespace CodeAtlas.Size

inductive SplitKind where
  /-- A file for each component. -/
  | component
  /-- A file for each hook. -/
  | hook
  /-- The core of the exported functions, and their helpers. -/
  | utility
  | typeExtraction
  | generic
  deriving DecidableEq, Repr

def SplitKind.label : SplitKind → String
  | .component => "component split"
  | .hook => "hook split"
  | .utility => "utility split"
  | .typeExtraction => "type-extraction split"
  | .generic => "generic split"

structure Split where
  kind : SplitKind
  /-- The names of the files to create. -/
  targets : List String
  description : String
  effort : Effort
  deriving DecidableEq, Repr

/-- What stands at the top of a file. -/
structure Declarations where
  /-- The names of functions, classes and variables in document order. -/
  names : List String
  exportedFunctions : Nat
  types : Nat
  deriving DecidableEq, Repr

namespace Declarations

def empty : Declarations := ⟨[], 0, 0⟩

def append (a b : Declarations) : Declarations :=
  ⟨a.names ++ b.names, a.exportedFunctions + b.exportedFunctions, a.types + b.types⟩

/-- Whether a value is a function, or the keyword of one. -/
def isFunctionValue (n : Node) : Bool :=
  match n.kind with
  | .arrowFunction | .functionExpression => true
  | .token => n.text == "function"
  | _ => false

def ofDeclarator (exported : Bool) (n : Node) : Declarations :=
  match n.kind, n.child? .name with
  | .variableDeclarator, some name =>
    if name.kind = .identifier then
      let isFunction := (n.child? .value).any isFunctionValue
      ⟨[name.text], if exported && isFunction then 1 else 0, 0⟩
    else empty
  | _, _ => empty

def ofDeclaration (exported : Bool) (n : Node) : Declarations :=
  let name := (n.textOf? .name).toList
  match n.kind with
  | .functionDeclaration | .generatorDeclaration => ⟨name, if exported then 1 else 0, 0⟩
  | .classDeclaration | .abstractClassDeclaration => ⟨name, 0, 0⟩
  | .lexicalDeclaration | .variableDeclaration =>
    (n.children.map (ofDeclarator exported)).foldl append empty
  | .interfaceDeclaration | .typeAliasDeclaration | .enumDeclaration => ⟨[], 0, 1⟩
  | _ => empty

def ofStatement (n : Node) : Declarations :=
  match n.kind with
  | .exportStatement => ((n.child? .declaration).map (ofDeclaration true)).getD empty
  | _ => ofDeclaration false n

def ofTree (root : Node) : Declarations := (root.children.map ofStatement).foldl append empty

end Declarations

/-- A capital first, and small letters somewhere. -/
def isComponentName (name : String) : Bool :=
  name.toList.head?.any Text.isCapital && name.toList.any fun c => 'a' ≤ c && c ≤ 'z'

def isHookName (name : String) : Bool :=
  match name.toList with
  | 'u' :: 's' :: 'e' :: c :: _ => Text.isCapital c
  | _ => false

/-- The least whole number of parts of the given size that hold `n`. -/
def ceilDiv (n size : Nat) : Nat := (n + size - 1) / size

/-- What the new files are named after. -/
structure FileNaming where
  stem : String
  extension : String

def FileNaming.of (file : String) : FileNaming :=
  ⟨(FilePath.stem? file).getD "module", (FilePath.extension? file).getD "ts"⟩

def listed (names : List String) : String := "(" ++ ", ".intercalate names ++ ")"

def componentSplit (f : FileNaming) (d : Declarations) : List Split :=
  let names := d.names.filter isComponentName
  if 1 < names.length then
    [{ kind := .component
       targets := names.map (· ++ "." ++ f.extension)
       description := "Move each of the " ++ toString names.length ++ " components " ++
         listed names ++ " into its own file"
       effort := .medium }]
  else []

/-- The hook that a file is named after stays in it. -/
def hookSplit (f : FileNaming) (d : Declarations) : List Split :=
  let names := d.names.filter fun name => isHookName name && name != f.stem
  if names.isEmpty then []
  else
    [{ kind := .hook
       targets := names.map (· ++ "." ++ f.extension)
       description := "Move custom hooks " ++ listed names ++ " into separate files"
       effort := .low }]

/-- So many exported functions may stand together. -/
def maxExportedFunctions : Nat := 5

def utilitySplit (f : FileNaming) (d : Declarations) : List Split :=
  if maxExportedFunctions < d.exportedFunctions then
    [{ kind := .utility
       targets := [f.stem ++ ".core." ++ f.extension, f.stem ++ ".helpers." ++ f.extension]
       description := "Separate the " ++ toString d.exportedFunctions ++
         " exported functions into core logic and helpers"
       effort := .low }]
  else []

/-- So many types may be declared beside other code. -/
def maxTypes : Nat := 3

def typeSplit (f : FileNaming) (d : Declarations) : List Split :=
  if maxTypes < d.types then
    [{ kind := .typeExtraction
       targets := [f.stem ++ ".types.ts"]
       description := "Extract " ++ toString d.types ++
         " interface/type/enum declarations into a types file"
       effort := .low }]
  else []

/-- How many parts of at most `threshold` lines a file of `lines` lines is cut into. -/
def partCount (lines threshold : Nat) : Nat := max (ceilDiv lines (max threshold 1)) 1

def genericSplit (f : FileNaming) (lines threshold : Nat) : Split :=
  let parts := partCount lines threshold
  { kind := .generic
    targets := (List.range parts).map fun i =>
      f.stem ++ ".part" ++ toString (i + 1) ++ "." ++ f.extension
    description := "Split " ++ toString lines ++ " lines into " ++ toString parts ++
      " files of about " ++ toString (ceilDiv lines parts) ++ " lines each"
    effort := .high }

/-- The ways to split a file with so many lines that count; without a tree only into parts. -/
def suggestSplits (tree : Option Node) (file : String) (lines threshold : Nat) : List Split :=
  let f := FileNaming.of file
  let d := (tree.map Declarations.ofTree).getD .empty
  match componentSplit f d ++ hookSplit f d ++ utilitySplit f d ++ typeSplit f d with
  | [] => [genericSplit f lines threshold]
  | splits => splits

end CodeAtlas.Size
