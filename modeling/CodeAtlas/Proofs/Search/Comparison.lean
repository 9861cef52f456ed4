import CodeAtlas.Dependency.Cycles

/-! Two searches side by side. Of a graph a search reads the files, their successors and the
greatest depth, so graphs that agree on these are searched alike, whatever else they hold. -/

namespace CodeAtlas.Dependency

structure Graph.SearchedAlike (g h : Graph) : Prop where
  files : g.files = h.files
  successors : g.successors = h.successors
  maxDepth : g.maxDepth = h.maxDepth

namespace Search

variable {g h : Graph}

theorem enter_congr (ha : g.SearchedAlike h) : enter g = enter h := by
  funext file s
  rw [enter, enter, ha.successors]

theorem settle_congr (ha : g.SearchedAlike h) (s : Search) : s.settle g = s.settle h := by
  unfold settle
  rw [enter_congr ha]

theorem follow_congr (ha : g.SearchedAlike h) (file : String) (s : Search) :
    follow g file s = follow h file s := by
  unfold follow
  rw [enter_congr ha, ha.maxDepth]

theorem step_congr (ha : g.SearchedAlike h) (s : Search) : s.step g = s.step h := by
  obtain ⟨unseen, done, stack, rings⟩ := s
  match stack with
  | [] => rfl
  | ⟨file, []⟩ :: rest => exact settle_congr ha _
  | ⟨file, next :: pending⟩ :: rest => exact follow_congr ha next _

theorem run_congr (ha : g.SearchedAlike h) (n : Nat) (s : Search) : run g n s = run h n s := by
  induction n generalizing s with
  | zero => rfl
  | succ n ih =>
    rw [run, run, step_congr ha]
    exact ih _

end Search

namespace Graph

variable {g h : Graph}

theorem SearchedAlike.cycles (ha : g.SearchedAlike h) : g.cycles = h.cycles := by
  have hstart : g.start = h.start := by
    rw [start, start, ha.files]
    exact Search.settle_congr ha _
  have hwork : g.work = h.work := by
    rw [work, work, ha.files, ha.successors]
  rw [Graph.cycles, Graph.cycles, hstart, hwork, Search.run_congr ha]

end Graph

end CodeAtlas.Dependency
