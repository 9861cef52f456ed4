import CodeAtlas.Finding
import CodeAtlas.Size.Lines

/-!
The size of a file: how many of its lines count, and what to do if they are too many.
-/

namespace CodeAtlas.Size

structure Report where
  file : String
  breakdown : Breakdown
  threshold : Nat
  splits : List Split
  issues : List Issue
  advice : List Advice
  deriving DecidableEq, Repr

namespace Report

def lineCount (r : Report) : Nat := r.breakdown.effective

def exceeds (r : Report) : Bool := r.threshold < r.lineCount

/-- Measures a file; its tree, if there is one, says how it could be split. -/
def of (s : Settings) (file text : String) (tree : Option Node) : Report :=
  let breakdown := Breakdown.ofText s text
  let lines := breakdown.effective
  if s.threshold < lines then
    let splits := suggestSplits tree file lines s.threshold
    ⟨file, breakdown, s.threshold, splits,
      [⟨.fileTooLarge lines s.threshold, ⟨file, none⟩⟩], [.splitFile splits]⟩
  else ⟨file, breakdown, s.threshold, [], [], []⟩

end Report

end CodeAtlas.Size
