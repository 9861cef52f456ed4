import CodeAtlas.Source.Glob

/-!
Several patterns at once. Patterns that cannot be read are left out, so a set may be empty although
patterns were given.
-/

namespace CodeAtlas.Source

structure PatternSet where
  globs : List Glob

namespace PatternSet

/-- The patterns among the given ones that can be read. -/
def compile (patterns : List String) : PatternSet :=
  ⟨patterns.filterMap fun p => (Glob.parse p).toOption⟩

def isEmpty (s : PatternSet) : Bool := s.globs.isEmpty

/-- Whether a path matches one of the patterns. -/
def accepts (s : PatternSet) (path : String) : Bool := s.globs.any (·.accepts path)

end PatternSet

end CodeAtlas.Source
