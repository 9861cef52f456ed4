import CodeAtlas.Source.PatternSet

/-! What a set of patterns says of a path, in terms of the patterns that it was made of. Patterns
that cannot be read say nothing. -/

namespace CodeAtlas.Source

/-- Whether a path matches one of the patterns that can be read. -/
def Matches (patterns : List String) (path : String) : Prop :=
  ∃ p ∈ patterns, ∃ g, Glob.parse p = .ok g ∧ g.accepts path = true

variable {patterns : List String} {path pattern : String}

theorem toOption_parse_eq_some_iff {g : Glob} :
    (Glob.parse pattern).toOption = some g ↔ Glob.parse pattern = .ok g := by
  cases Glob.parse pattern <;> simp [Except.toOption]

/-- A set accepts the paths that match one of its patterns. -/
theorem accepts_compile_iff :
    (PatternSet.compile patterns).accepts path = true ↔ Matches patterns path := by
  simp only [PatternSet.accepts, PatternSet.compile, Matches, List.any_eq_true, List.mem_filterMap,
    toOption_parse_eq_some_iff]
  constructor
  · rintro ⟨g, ⟨p, hp, hg⟩, haccepts⟩
    exact ⟨p, hp, g, hg, haccepts⟩
  · rintro ⟨p, hp, g, hg, haccepts⟩
    exact ⟨g, ⟨p, hp, hg⟩, haccepts⟩

end CodeAtlas.Source
