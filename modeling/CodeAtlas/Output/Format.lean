import CodeAtlas.Output.Data
import CodeAtlas.Output.Markdown

/-!
The formats that a report can be written in.
-/

namespace CodeAtlas

inductive Format where
  | json
  | markdown
  | dot
  deriving DecidableEq, Repr

namespace Format

def label : Format → String
  | json => "json"
  | markdown => "markdown"
  | dot => "dot"

/-- The format of a name, whatever its case. -/
def ofName? (name : String) : Option Format :=
  match Text.lowercase name with
  | "json" => some json
  | "markdown" | "md" => some markdown
  | "dot" | "graphviz" => some dot
  | _ => none

def unknown (name : String) : String :=
  "Unknown export format: '" ++ name ++ "'. Valid formats: json, markdown, dot"

end Format

/-- A field with a list in it, unless the list is empty. -/
def nonEmpty (name : String) (xs : List Json) : List (String × Json) :=
  if xs.isEmpty then [] else [(name, .list xs)]

def Ring.exported (r : Ring) : Json :=
  .object [("files", .strings r.files), ("path", .string r.text)]

/-- A report as data, with the name of its project. -/
def ProjectReport.exported (project : String) (r : ProjectReport) : Json :=
  .object ([
    ("project", .string project),
    ("summary", r.summary.data),
    ("files", .list (r.files.map FileReport.data))] ++
    nonEmpty "circular_dependencies" (r.cycles.map Ring.exported) ++
    [("graph", r.graph.data)] ++ nonEmpty "skipped" (r.skipped.map .string))

/-- A report in some format; a drawing shows the graph and nothing else. -/
def Format.render (f : Format) (project : String) (r : ProjectReport) (g : Dependency.Graph) :
    String :=
  match f with
  | json => (r.exported project).pretty ++ "\n"
  | markdown => Markdown.render project r
  | dot => g.dot

end CodeAtlas
