import CodeAtlas.Source.Scan

/-!
A tree of directories and files, seen from a working directory. Paths are followed name by name, so
a step up only leads on from a directory that is there.
-/

namespace CodeAtlas.Source

/-- Why a file cannot be had. -/
inductive Fault where
  | notFound
  | notDirectory
  | isDirectory
  | notText
  deriving DecidableEq, Repr

def Fault.message : Fault → String
  | .notFound => "No such file or directory (os error 2)"
  | .notDirectory => "Not a directory (os error 20)"
  | .isDirectory => "Is a directory (os error 21)"
  | .notText => "stream did not contain valid UTF-8"

inductive Entry where
  /-- A file with its text, or with bytes that are none. -/
  | file (text : Option String)
  | directory (entries : List (String × Entry))

namespace Entry

/-- What has a name in a directory. -/
def child? (e : Entry) (name : String) : Except Fault Entry :=
  match e with
  | file _ => .error .notDirectory
  | directory entries =>
    match entries.lookup name with
    | some found => .ok found
    | none => .error .notFound

def descend : List String → Entry → Except Fault Entry
  | [], e => .ok e
  | name :: names, e => do descend names (← e.child? name)

def setIn (name : String) (new : Entry) : List (String × Entry) → List (String × Entry)
  | [] => [(name, new)]
  | (other, e) :: entries =>
    if other = name then (name, new) :: entries else (other, e) :: setIn name new entries

/-- Puts an entry below the given names. Directories on the way are made if `create` says so. -/
def put (create : Bool) (new : Entry) : List String → Entry → Except Fault Entry
  | [], _ => .ok new
  | _ :: _, file _ => .error .notDirectory
  | [name], directory entries => .ok (directory (setIn name new entries))
  | name :: names, directory entries =>
    match entries.lookup name with
    | some found => do return directory (setIn name (← put create new names found) entries)
    | none =>
      if create then do
        return directory (setIn name (← put create new names (directory [])) entries)
      else .error .notFound

/-- Directories that are not looked into. -/
def isIgnored (name : String) : Entry → Bool
  | file _ => false
  | directory _ => name = "node_modules" || name = ".git"

mutual

/-- The paths of the files at most `depth` levels down. -/
def walk (depth : Nat) (path : String) : Entry → List String
  | file _ => [path]
  | directory entries =>
    match depth with
    | 0 => []
    | depth + 1 => walkAll depth path entries

def walkAll (depth : Nat) (path : String) : List (String × Entry) → List String
  | [] => []
  | (name, e) :: entries =>
    (if isIgnored name e then [] else walk depth (FilePath.join path name) e) ++
      walkAll depth path entries

end

end Entry

structure Disk where
  root : Entry
  /-- The names that lead from the root to the working directory. -/
  workingDirectory : List String

namespace Disk

/-- One part of a path between slashes, taken from the directory at `names`. -/
def step (d : Disk) (names : List String) (segment : List Char) : Except Fault (List String) :=
  match Entry.descend names d.root with
  | .error e => .error e
  | .ok (.file _) => .error .notDirectory
  | .ok (.directory entries) =>
    match segment with
    | [] | ['.'] => .ok names
    | ['.', '.'] => .ok names.dropLast
    | cs =>
      let name := String.ofList cs
      if (entries.lookup name).isSome then .ok (names ++ [name]) else .error .notFound

/-- The names that lead to where a path leads. -/
def locate (d : Disk) (path : String) : Except Fault (List String) :=
  if path.isEmpty then .error .notFound
  else
    (FilePath.segments path.toList).foldlM d.step
      (if FilePath.isRooted path then [] else d.workingDirectory)

def find (d : Disk) (path : String) : Except Fault Entry := do
  Entry.descend (← d.locate path) d.root

def readText (d : Disk) (path : String) : Except Fault String := do
  match ← d.find path with
  | .directory _ => .error .isDirectory
  | .file none => .error .notText
  | .file (some text) => .ok text

def isFile (d : Disk) (path : String) : Bool :=
  match d.find path with
  | .ok (.file _) => true
  | _ => false

/-- The name of what a path leads to, if it leads anywhere but to the root. -/
def nameOf? (d : Disk) (path : String) : Option String :=
  match d.locate path with
  | .ok names => names.getLast?
  | .error _ => none

/-- Gives a file a text. Its directory has to be there. -/
def write (d : Disk) (path text : String) : Except Fault Disk := do
  match (FilePath.segments path.toList).reverse with
  | [] | [] :: _ | ['.'] :: _ | ['.', '.'] :: _ => .error .isDirectory
  | last :: front =>
    let start := if FilePath.isRooted path then [] else d.workingDirectory
    let directory ← front.reverse.foldlM d.step start
    let names := directory ++ [String.ofList last]
    match Entry.descend names d.root with
    | .ok (.directory _) => .error .isDirectory
    | _ => return { d with root := ← Entry.put false (.file (some text)) names d.root }

def scan (d : Disk) (directory : String) (o : ScanOptions) : List String :=
  match d.find directory with
  | .error _ => []
  | .ok e =>
    let at_ := FilePath.components directory
    let selection := o.selection
    ((e.walk o.maxDepth directory).filter fun path =>
      selection.keeps (relativeText at_ (FilePath.components path))).mergeSort fun a b =>
        !FilePath.before (FilePath.components b) (FilePath.components a)

def source (d : Disk) : Source := ⟨fun path => (d.readText path).toOption, d.scan⟩

end Disk

end CodeAtlas.Source
