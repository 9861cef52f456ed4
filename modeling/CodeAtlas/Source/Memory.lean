import CodeAtlas.Source.Scan

/-!
Files held in memory, in the order of their paths. Paths with the same components name the same
file, which keeps the spelling it was first given.
-/

namespace CodeAtlas.Source

structure StoredFile where
  path : String
  text : String
  deriving DecidableEq, Repr

def StoredFile.components (f : StoredFile) : List Component := FilePath.components f.path

structure Memory where
  files : List StoredFile
  deriving DecidableEq, Repr

namespace Memory

def empty : Memory := ⟨[]⟩

def insertInto (path text : String) : List StoredFile → List StoredFile
  | [] => [⟨path, text⟩]
  | f :: fs =>
    if FilePath.components path = f.components then { f with text := text } :: fs
    else if FilePath.before (FilePath.components path) f.components then ⟨path, text⟩ :: f :: fs
    else f :: insertInto path text fs

/-- Adds a file, or gives it another text. -/
def write (m : Memory) (path text : String) : Memory := ⟨insertInto path text m.files⟩

def ofFiles (files : List (String × String)) : Memory :=
  files.foldl (fun m (path, text) => m.write path text) empty

def read (m : Memory) (path : String) : Option String :=
  (m.files.find? fun f => f.components == FilePath.components path).map StoredFile.text

/-- Whether a file is below a directory, and not too far. -/
def isWithin (directory : List Component) (maxDepth : Nat) (f : StoredFile) : Bool :=
  (FilePath.below? directory f.components).any fun rest => rest.length ≤ maxDepth

def scan (m : Memory) (directory : String) (o : ScanOptions) : List String :=
  let at_ := FilePath.components directory
  let selection := o.selection
  (m.files.filter fun f =>
    isWithin at_ o.maxDepth f && selection.keeps (relativeText at_ f.components)).map
      StoredFile.path

def source (m : Memory) : Source := ⟨m.read, m.scan⟩

end Memory

end CodeAtlas.Source
