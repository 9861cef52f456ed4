import CodeAtlas.FilePath
import CodeAtlas.Text.Words

/-!
Which file a module specifier stands for. A specifier that is a path leads from the directory of the
importing file to a file, a file without its extension, or a directory with an index file; any other
specifier is the name of a package and stands for no file.
-/

namespace CodeAtlas.Dependency

/-- Extensions that a specifier may leave out, in the order in which they are tried. -/
def impliedExtensions : List String := ["ts", "tsx", "js", "jsx"]

def isPathSpecifier (specifier : String) : Bool :=
  Text.hasPrefix "./" specifier || Text.hasPrefix "../" specifier ||
    Text.hasPrefix "/" specifier || specifier = "." || specifier = ".."

/-- Where a specifier leads from a file. A rooted specifier leads there from anywhere. -/
def target (importer specifier : String) : NormalPath :=
  .ofComponents ((FilePath.parent? importer).getD [] ++ FilePath.components specifier)

/-- A path without the slashes at its end. -/
def trimSlashes (path : String) : String :=
  String.ofList (path.toList.reverse.dropWhile (· = '/')).reverse

/-- The files that a path may stand for, the first choice first. -/
def candidates (path : String) : List String :=
  path :: impliedExtensions.map (path ++ "." ++ ·) ++
    impliedExtensions.map (trimSlashes path ++ "/index." ++ ·)

/-- The file among the given ones that a specifier in a file stands for. -/
def resolve? (files : List String) (importer specifier : String) : Option String :=
  if isPathSpecifier specifier then
    (candidates (target importer specifier).key).find? files.contains
  else none

end CodeAtlas.Dependency
