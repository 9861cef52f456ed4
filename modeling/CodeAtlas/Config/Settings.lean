import CodeAtlas.Config.Value
import CodeAtlas.Dependency.Build
import CodeAtlas.Responsibility.Classification
import CodeAtlas.Size.Lines
import CodeAtlas.Source.Scan

/-!
The settings of an analysis as a whole, and the names that their parts have in settings texts.
-/

namespace CodeAtlas.Config

/-- A field of a structure that holds one value. -/
def Field.of {α β : Type} (name : String) (read : Value → Option β) (set : α → β → α) : Field α :=
  ⟨name, fun v a => (read v).map (set a)⟩

/-- A field that is itself a structure, filled from what it holds so far. -/
def Field.within {α β : Type} (name : String) (get : α → β) (fill : Value → β → Option β)
    (set : α → β → α) : Field α :=
  ⟨name, fun v a => (fill v (get a)).map (set a)⟩

def dependencyFields : List (Field Dependency.Settings) :=
  [.of "max_circular_depth" Value.natural? fun s n => { s with maxCircularDepth := n },
    .of "exclude_patterns" Value.texts? fun s xs => { s with excludePatterns := xs },
    .of "include_external_deps" Value.truth? fun s b => { s with includeExternal := b },
    .of "unused_import_threshold" Value.natural? fun s n => { s with unusedImportThreshold := n }]

def sizeFields : List (Field Size.Settings) :=
  [.of "threshold" Value.natural? fun s n => { s with threshold := n },
    .of "exclude_comments" Value.truth? fun s b => { s with excludeComments := b },
    .of "exclude_empty_lines" Value.truth? fun s b => { s with excludeEmptyLines := b },
    .of "exclude_imports" Value.truth? fun s b => { s with excludeImports := b }]

def responsibilityFields : List (Field Responsibility.Settings) :=
  [.of "max_responsibilities" Value.natural? fun s n => { s with maxResponsibilities := n },
    .of "enable_heuristics" Value.truth? fun s b => { s with enableHeuristics := b },
    .of "strict_mode" Value.truth? fun s b => { s with strictMode := b }]

def ruleFields : List (Field CategoryRule) :=
  [.of "confidence" Value.number? fun r x => { r with confidence := x },
    .of "keywords" Value.texts? fun r xs => { r with keywords := xs }]

/-- A rule is replaced as a whole: what a text leaves out of it is not what the category has. -/
def ruleField (c : Category) : Field Heuristics :=
  .of (c.tag "_") (Value.fill ruleFields CategoryRule.default) (·.withRule c)

def heuristicFields : List (Field Heuristics) :=
  Category.all.map ruleField ++
    [.of "handler_prefix" Value.text? fun h s => { h with handlerPrefix := s },
      .of "min_branches" Value.natural? fun h n => { h with minBranches := n },
      .of "data_access_objects" Value.texts? fun h xs => { h with dataObjects := xs },
      .of "data_access_imports" Value.texts? fun h xs => { h with dataImports := xs },
      .of "api_objects" Value.texts? fun h xs => { h with apiObjects := xs },
      .of "presence_threshold" Value.number? fun h x => { h with presenceThreshold := x },
      .of "strict_presence_threshold" Value.number? fun h x =>
        { h with strictPresenceThreshold := x },
      .of "max_diversity_bonus" Value.number? fun h x => { h with maxDiversityBonus := x }]

def scanFields : List (Field Source.ScanOptions) :=
  [.of "include" Value.texts? fun o xs => { o with included := xs },
    .of "exclude" Value.texts? fun o xs => { o with excluded := xs },
    .of "max_depth" Value.natural? fun o n => { o with maxDepth := n }]

/-- What is wrong with the values of settings. -/
inductive Invalid where
  | noThreshold
  | shallowRings
  | heuristics (fault : Heuristics.Fault)

def Invalid.message : Invalid → String
  | noThreshold => "size.threshold must be greater than 0"
  | shallowRings => "dependencies.max_circular_depth must be at least 2"
  | heuristics fault => fault.message

end CodeAtlas.Config

namespace CodeAtlas

structure Config where
  dependencies : Dependency.Settings
  size : Size.Settings
  responsibilities : Responsibility.Settings
  heuristics : Heuristics
  scan : Source.ScanOptions

namespace Config

def default : Config := ⟨.default, .default, .default, .default, .default⟩

def fields : List (Field Config) :=
  [.within "dependencies" Config.dependencies (fun v s => v.fill dependencyFields s)
      fun c s => { c with dependencies := s },
    .within "size" Config.size (fun v s => v.fill sizeFields s) fun c s => { c with size := s },
    .within "responsibilities" Config.responsibilities (fun v s => v.fill responsibilityFields s)
      fun c s => { c with responsibilities := s },
    .within "heuristics" Config.heuristics (fun v s => v.fill heuristicFields s)
      fun c s => { c with heuristics := s },
    .within "scan" Config.scan (fun v s => v.fill scanFields s) fun c s => { c with scan := s }]

/-- Settings by the values given; what is not given is as usual. -/
def ofValue? (v : Value) : Option Config := v.fill fields default

/-- The first thing that is wrong with the values. -/
def fault? (c : Config) : Option Invalid :=
  if c.size.threshold = 0 then some .noThreshold
  else if c.dependencies.maxCircularDepth < 2 then some .shallowRings
  else c.heuristics.fault?.map .heuristics

end Config

end CodeAtlas
