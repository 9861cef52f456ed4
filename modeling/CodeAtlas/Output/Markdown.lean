import CodeAtlas.Decimal.Layout
import CodeAtlas.Report

/-!
A report to be read: sections with tables and lists. A section with nothing to tell is left out.
-/

namespace CodeAtlas.Markdown

/-- A row of a table. -/
def row (cells : List String) : String := "| " ++ " | ".intercalate cells ++ " |"

/-- The rule below the head of a table, as wide as the cells with their blanks. -/
def ruleBelow (head : List String) : String :=
  "|" ++ "|".intercalate (head.map fun cell =>
    String.ofList (List.replicate (cell.length + 2) '-')) ++ "|"

def table (head : List String) (rows : List (List String)) : List String :=
  [row head, ruleBelow head] ++ rows.map row

def section_ (title : String) (body : List String) : List String :=
  ["## " ++ title, ""] ++ body ++ [""]

/-- A section with something in it. -/
def sectionOf {α : Type} (title : String) (items : List α) (body : List α → List String) :
    List String :=
  if items.isEmpty then [] else section_ title (body items)

def tick : String := "\x60"

/-- So much advice is given. -/
def adviceLimit : Nat := 10

def summary (s : ProjectSummary) : List String :=
  let skipped :=
    if 0 < s.skippedFiles then [["Skipped Files", toString s.skippedFiles]] else []
  section_ "Summary" (table ["Metric", "Count"] ([
    ["Files", toString s.totalFiles],
    ["Imports", toString s.totalImports],
    ["Exports", toString s.totalExports],
    ["Unused Imports", toString s.totalUnused],
    ["Circular Dependencies", toString s.circularDependencies],
    ["Oversized Files", toString s.filesTooLarge],
    ["Files With Multiple Responsibilities", toString s.filesOfMultipleWork]] ++ skipped))

def mostImported (s : ProjectSummary) : List String :=
  sectionOf "Most Imported Files" s.rankings.mostImported fun counts =>
    table ["File", "Imported By"] (counts.map fun c => [c.path, toString c.count])

def cycles (rings : List Ring) : List String :=
  sectionOf "Circular Dependencies" rings fun rings =>
    rings.mapIdx fun i ring => toString (i + 1) ++ ". " ++ tick ++ ring.text ++ tick

def tooLarge (files : List FileReport) : List String :=
  sectionOf "Oversized Files" (files.filter (·.analysis.size.exceeds)) fun files =>
    table ["File", "Lines", "Threshold", "Suggested Split"] (files.map fun f =>
      let size := f.analysis.size
      [f.path, toString size.lineCount, toString size.threshold,
        (size.splits.head?.map fun s => s.kind.label).getD "-"])

def multipleWork (files : List FileReport) : List String :=
  let found := files.filter (·.analysis.responsibilities.isMultiple)
  sectionOf "Multiple Responsibilities" found fun files =>
    table ["File", "Responsibilities", "Confidence"] (files.map fun f =>
      let r := f.analysis.responsibilities
      [f.path, ", ".intercalate r.labels, Decimal.fixed 2 r.confidence])

def unused (files : List FileReport) : List String :=
  sectionOf "Unused Imports" (files.filter (!·.analysis.unused.isEmpty)) fun files =>
    files.map fun f => "- **" ++ f.path ++ "**: " ++ ", ".intercalate f.analysis.unused

def advice (r : ProjectReport) : List String :=
  sectionOf "Recommendations" (r.topAdvice adviceLimit) fun found =>
    table ["Priority", "File", "Recommendation", "Effort"] (found.map fun (file, a) =>
      [toString a.priority, file, a.description, a.effort.label])

def skipped (files : List String) : List String :=
  sectionOf "Skipped Files" files fun files => files.map ("- " ++ ·)

def lines (project : String) (r : ProjectReport) : List String :=
  ["# Architecture Report", "", "**Project:** " ++ project, ""] ++ summary r.summary ++
    mostImported r.summary ++ cycles r.cycles ++ tooLarge r.files ++ multipleWork r.files ++
    unused r.files ++ advice r ++ skipped r.skipped ++ ["---", "*Generated by archscope*"]

def render (project : String) (r : ProjectReport) : String :=
  String.join ((lines project r).map (· ++ "\n"))

end CodeAtlas.Markdown
