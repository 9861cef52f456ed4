import CodeAtlas.FilePath
import CodeAtlas.Text.Lowercase

/-!
The four dialects that are analysed. JavaScript files and their markup variant share one grammar;
the typed dialects differ in what an opening angle bracket means.
-/

namespace CodeAtlas

inductive Dialect where
  | javaScript
  | jsx
  | typeScript
  | tsx
  deriving DecidableEq, Repr, Inhabited

namespace Dialect

/-- Whether type annotations are part of the dialect. -/
def typed : Dialect → Bool
  | .typeScript | .tsx => true
  | .javaScript | .jsx => false

/-- Whether `<` opens markup. Plain TypeScript keeps it for casts. -/
def hasMarkup : Dialect → Bool
  | .typeScript => false
  | .javaScript | .jsx | .tsx => true

/-- The dialect of files with the given ending, whatever its case. -/
def ofExtension? (extension : String) : Option Dialect :=
  match Text.lowercase extension with
  | "js" | "mjs" | "cjs" => some .javaScript
  | "jsx" => some .jsx
  | "ts" | "mts" | "cts" => some .typeScript
  | "tsx" => some .tsx
  | _ => none

def ofPath? (path : String) : Option Dialect := (FilePath.extension? path).bind ofExtension?

end Dialect

end CodeAtlas
