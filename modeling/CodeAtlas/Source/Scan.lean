import CodeAtlas.FilePath
import CodeAtlas.Source.PatternSet

/-!
Where the texts of files come from, and which files below a directory are asked for. A source
answers with a text or not at all; a directory that cannot be read holds no files.
-/

namespace CodeAtlas.Source

structure ScanOptions where
  /-- Patterns of which a file has to match one, if there are any. -/
  included : List String
  /-- Patterns that leave a file out. -/
  excluded : List String
  /-- How far below the directory a file may be. -/
  maxDepth : Nat
  deriving DecidableEq, Repr

def ScanOptions.default : ScanOptions where
  included := ["**/*.ts", "**/*.tsx", "**/*.js", "**/*.jsx", "**/*.mjs", "**/*.cjs"]
  excluded := ["**/node_modules/**", "**/.git/**", "**/dist/**", "**/build/**", "**/.next/**",
    "**/coverage/**", "**/*.d.ts"]
  maxDepth := 32

/-- The patterns of scan options, read once for all files. -/
structure Selection where
  included : PatternSet
  excluded : PatternSet

def ScanOptions.selection (o : ScanOptions) : Selection :=
  ⟨.compile o.included, .compile o.excluded⟩

/-- Whether a path below the directory is wanted. Without patterns to match, all are. -/
def Selection.keeps (s : Selection) (relative : String) : Bool :=
  (s.included.isEmpty || s.included.accepts relative) && !s.excluded.accepts relative

/-- The components of a path with slashes between them. -/
def slashed (cs : List Component) : String := "/".intercalate (cs.map Component.text)

/-- A path below a directory as patterns see it; other paths are seen as they are. -/
def relativeText (directory path : List Component) : String :=
  slashed ((FilePath.below? directory path).getD path)

end CodeAtlas.Source

namespace CodeAtlas

/-- What can be asked of a place that holds files. -/
structure Source where
  read : String → Option String
  /-- The wanted files below a directory, in the order of paths. -/
  scan : String → Source.ScanOptions → List String

end CodeAtlas
