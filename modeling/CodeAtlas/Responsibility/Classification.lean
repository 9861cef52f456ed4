import CodeAtlas.Finding
import CodeAtlas.Responsibility.Evidence

/-!
The work that a file does. A category is present if the evidence for it outweighs a threshold; too
many categories in one file, or two that should not meet, are problems.
-/

namespace CodeAtlas.Responsibility

structure Settings where
  maxResponsibilities : Nat
  /-- Whether names alone count as evidence. -/
  enableHeuristics : Bool
  strictMode : Bool
  deriving DecidableEq, Repr

def Settings.default : Settings := ⟨2, true, false⟩

structure Classification where
  file : String
  /-- The categories present, in their order. -/
  responsibilities : List Category
  isMultiple : Bool
  confidence : Float
  indicators : List Indicator
  issues : List Issue
  advice : List Advice

namespace Classification

/-- The separation of a file in words. -/
def suggestions (c : Classification) : List String := c.advice.map Advice.description

def labels (c : Classification) : List String := c.responsibilities.map Category.label

/-- A file that could not be read as a program. -/
def parseFailure (file reason : String) : Classification :=
  ⟨file, [], false, 0.0, [], [⟨.parseFailure reason, ⟨file, none⟩⟩], []⟩

end Classification

/-- Sums are taken in document order. -/
def sum (start : Float) (xs : List Float) : Float := xs.foldl (· + ·) start

/-- Whether the evidence for a category outweighs the threshold. -/
def isPresent (threshold : Float) (indicators : List Indicator) (c : Category) : Bool :=
  match indicators.filter (·.category == c) with
  | [] => false
  | found =>
    let count := found.length.toFloat
    let average := sum 0.0 (found.map Indicator.confidence) / count
    threshold < count * average

def presentCategories (h : Heuristics) (s : Settings) (indicators : List Indicator) :
    List Category :=
  Category.all.filter (isPresent (h.presence s.strictMode) indicators)

/-- The average confidence, and a bonus for much evidence. -/
def overallConfidence (h : Heuristics) (indicators : List Indicator) : Float :=
  if indicators.isEmpty then 0.0
  else
    let count := indicators.length.toFloat
    let average := sum (-0.0) (indicators.map Indicator.confidence) / count
    clampToUnit (average + lesser (count / 10.0) h.maxDiversityBonus)

def mixtures (present : List Category) : List Mixture :=
  (if present.contains .uiRendering && present.contains .dataAccess then [.dataInUi] else []) ++
    (if present.contains .businessLogic && present.contains .uiRendering then [.logicInUi] else [])

/-- Where a category first shows, or the file as a whole. -/
def firstOf (file : String) (indicators : List Indicator) (c : Category) : Location :=
  ⟨file, (indicators.find? (·.category == c)).map fun i => (i.line, i.column)⟩

def problems (s : Settings) (file : String) (present : List Category)
    (indicators : List Indicator) : List Issue :=
  (mixtures present).map (fun m => ⟨.mixedConcerns m, firstOf file indicators m.intruder⟩) ++
    if s.maxResponsibilities < present.length then
      [⟨.multipleResponsibilities present s.maxResponsibilities, ⟨file, none⟩⟩]
    else []

/-- Rendering and data access in one file are too much, however much is allowed. -/
def areTooMany (s : Settings) (present : List Category) : Bool :=
  (present.contains .uiRendering && present.contains .dataAccess) ||
    s.maxResponsibilities < present.length

def classify (h : Heuristics) (s : Settings) (file : String) (root : Node) : Classification :=
  let indicators := Indicator.ofTree h s.enableHeuristics root
  let present := presentCategories h s indicators
  let isMultiple := areTooMany s present
  { file := file
    responsibilities := present
    isMultiple := isMultiple
    confidence := overallConfidence h indicators
    indicators := indicators
    issues := problems s file present indicators
    advice := if isMultiple then present.map .extract else [] }

end CodeAtlas.Responsibility
