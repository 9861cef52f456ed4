import CodeAtlas.Proofs.Dependency.Rankings

/-! What a summary says. A ranking has the files that count most, up to its limit, each behind all
that count more. The statements that lead to a file are those that were recorded; in the graph of a
set of files they are the imports of the others that stand for it. -/

namespace CodeAtlas.Dependency

namespace FileCount

/-- Whether an entry comes before another one. -/
def Before (a b : FileCount) : Prop := b.count < a.count ∨ a.count = b.count ∧ a.path < b.path

theorem atMost_iff {a b : FileCount} :
    a.atMost b = true ↔ b.count < a.count ∨ a.count = b.count ∧ a.path ≤ b.path := by
  simp [atMost]

theorem atMost_trans (a b c : FileCount) (hab : a.atMost b = true) (hbc : b.atMost c = true) :
    a.atMost c = true := by
  rw [atMost_iff] at hab hbc ⊢
  rcases hab with hab | ⟨hab, hpath⟩ <;> rcases hbc with hbc | ⟨hbc, hpath'⟩
  · exact .inl (hbc.trans hab)
  · exact .inl (hbc ▸ hab)
  · exact .inl (hab ▸ hbc)
  · exact .inr ⟨hab.trans hbc, hpath.trans hpath'⟩

theorem atMost_total (a b : FileCount) : (a.atMost b || b.atMost a) = true := by
  rw [Bool.or_eq_true, atMost_iff, atMost_iff]
  rcases Nat.lt_trichotomy a.count b.count with hlt | heq | hgt
  · exact .inr (.inl hlt)
  · rcases le_total a.path b.path with hle | hle
    · exact .inl (.inr ⟨heq, hle⟩)
    · exact .inr (.inr ⟨heq.symm, hle⟩)
  · exact .inl (.inl hgt)

theorem before_of_atMost {a b : FileCount} (h : a.atMost b = true) (hne : a.path ≠ b.path) :
    a.Before b :=
  (atMost_iff.mp h).imp_right fun h => ⟨h.1, lt_of_le_of_ne h.2 hne⟩

end FileCount

section Top

variable {counts : List FileCount} {a b : FileCount}

/-- The entries that a ranking is the first part of. -/
def ordered (counts : List FileCount) : List FileCount :=
  (counts.filter (0 < ·.count)).mergeSort FileCount.atMost

theorem perm_ordered (counts : List FileCount) :
    (ordered counts).Perm (counts.filter (0 < ·.count)) := List.mergeSort_perm _ _

theorem mem_ordered : a ∈ ordered counts ↔ a ∈ counts ∧ 0 < a.count := by
  rw [(perm_ordered counts).mem_iff, List.mem_filter, decide_eq_true_iff]

theorem pairwise_ordered (h : (counts.map FileCount.path).Nodup) :
    (ordered counts).Pairwise FileCount.Before := by
  have hle : (ordered counts).Pairwise fun a b => a.atMost b = true :=
    List.pairwise_mergeSort FileCount.atMost_trans FileCount.atMost_total _
  have hpaths : ((ordered counts).map FileCount.path).Nodup :=
    ((perm_ordered counts).map _).nodup_iff.mpr (h.sublist (List.filter_sublist.map _))
  exact (hle.and (List.pairwise_map.mp hpaths)).imp fun h => FileCount.before_of_atMost h.1 h.2

/-- What a ranking leaves out comes behind everything in it. -/
theorem before_of_not_mem_topCounts (h : (counts.map FileCount.path).Nodup)
    (ha : a ∈ topCounts counts) (hb : b ∈ ordered counts) (hnot : b ∉ topCounts counts) :
    a.Before b := by
  have hsplit := pairwise_ordered h
  rw [← List.take_append_drop summaryLimit (ordered counts)] at hb hsplit
  have hdrop := (List.mem_append.mp hb).resolve_left hnot
  exact (List.pairwise_append.mp hsplit).2.2 a ha b hdrop

end Top

/-- Whether a list ranks the files of a graph by a number: it has the files for which the number is
positive, in order, as many as there are up to the limit, and leaves out none that comes before one
that it has. -/
structure Graph.Ranks (g : Graph) (count : FileNode → Nat) (ranking : List FileCount) : Prop where
  sorted : ranking.Pairwise FileCount.Before
  entries : ∀ c ∈ ranking, 0 < c.count ∧
    ∃ n ∈ g.nodes, n.isExternal = false ∧ c = ⟨n.path, count n⟩
  length : ranking.length = min 10 (g.nodes.countP fun n => !n.isExternal && 0 < count n)
  upmost : ∀ n ∈ g.nodes, n.isExternal = false → 0 < count n → ⟨n.path, count n⟩ ∉ ranking →
    ∀ c ∈ ranking, c.Before ⟨n.path, count n⟩

namespace Graph

variable {g : Graph} {n : FileNode} {p : String} {files : List (String × Facts)} {s : Settings}

theorem WellFormed.ranks (hg : g.WellFormed) (count : FileNode → Nat) :
    g.Ranks count (g.rank count) := by
  let counts : List FileCount := g.internal.map fun n => ⟨n.path, count n⟩
  have hpaths : (counts.map FileCount.path).Nodup := by
    rw [List.map_map]
    exact hg.nodup_files
  have hmem (c : FileCount) : c ∈ ordered counts ↔
      (∃ n ∈ g.nodes, n.isExternal = false ∧ c = ⟨n.path, count n⟩) ∧ 0 < c.count := by
    simp only [mem_ordered, counts, List.mem_map, mem_internal, and_assoc, eq_comm]
  refine ⟨(pairwise_ordered hpaths).sublist (List.take_sublist _ _), fun c hc => ?_, ?_,
    fun n hn hinternal hpos hnot c hc => ?_⟩
  · obtain ⟨hnode, hpos⟩ := (hmem c).mp (List.mem_of_mem_take hc)
    exact ⟨hpos, hnode⟩
  · have hlength : (ordered counts).length =
        g.nodes.countP fun n => !n.isExternal && 0 < count n := by
      rw [(perm_ordered counts).length_eq, List.filter_map, List.length_map,
        ← List.countP_eq_length_filter, internal, (List.mergeSort_perm _ _).countP_eq,
        List.countP_filter]
      refine List.countP_congr fun n _ => ?_
      rw [Bool.and_comm]
      rfl
    rw [rank, topCounts, ← ordered, List.length_take, hlength]
    rfl
  · exact before_of_not_mem_topCounts hpaths hc ((hmem _).mpr ⟨⟨n, hn, hinternal, rfl⟩, hpos⟩) hnot

theorem sorted_files (hg : g.WellFormed) : g.files.Pairwise (· < ·) := by
  have hfiles : g.files = sortPaths ((g.nodes.filter fun n => !n.isExternal).map FileNode.path) :=
    List.map_mergeSort fun _ _ _ _ => rfl
  rw [hfiles]
  exact sorted_sortPaths (hg.paths.sublist (List.filter_sublist.map _))

/-- Whether a summary is the one of a graph. -/
structure Summarizes (u : Summary) (g : Graph) : Prop where
  mostImported : g.Ranks (fun n => g.importedBy n.path) u.mostImported
  mostExporting : g.Ranks (fun n => n.exports.length) u.mostExporting
  heaviest : g.Ranks (fun n => n.imports.length) u.heaviest
  sorted : u.orphaned.Pairwise (· < ·)
  orphaned : ∀ p, p ∈ u.orphaned ↔ ∃ n ∈ g.nodes, n.isExternal = false ∧ n.path = p ∧
    n.exports = [] ∧ ∀ a, a ≠ p → ¬g.Imports a p

theorem summarizes_ofEdits (maxDepth : Nat) (edits : List Edit) :
    Summarizes (ofEdits maxDepth edits).summary (ofEdits maxDepth edits) where
  mostImported := (wellFormed_ofEdits maxDepth edits).ranks _
  mostExporting := (wellFormed_ofEdits maxDepth edits).ranks _
  heaviest := (wellFormed_ofEdits maxDepth edits).ranks _
  sorted := (sorted_files (wellFormed_ofEdits maxDepth edits)).sublist (List.filter_sublist.map _)
  orphaned := fun p => by rw [mem_orphaned, importedBy_eq_zero_iff edges_ofEdits]

/-- The imports of the other files of a set, with what they stand for. -/
def otherImports (files : List (String × Facts)) (s : Settings) (path : String) : List Import :=
  ((kept files s).filter (·.1 != path)).flatMap fun f =>
    f.2.imports.map (resolveImport s (keptPaths files s) f.1)

theorem countP_pairs (imports : List Import) (a p : String) :
    (((imports.filterMap Import.resolved).map (a, ·)).countP fun l => l.2 == p && l.1 != p) =
      if a = p then 0 else imports.countP (·.resolved == some p) := by
  rw [List.countP_map, List.countP_filterMap]
  split
  · rename_i h
    refine List.countP_eq_zero.mpr fun i _ => ?_
    cases i.resolved <;> simp [h]
  · rename_i h
    refine List.countP_congr fun i _ => ?_
    cases i.resolved <;> simp [h]

theorem importedBy_build_eq_countP (h : (files.map Prod.fst).Nodup) :
    (build files s).importedBy p = (otherImports files s p).countP (·.resolved == some p) := by
  rw [importedBy_build, links_eq h, otherImports]
  induction kept files s with
  | nil => rfl
  | cons f fs ih =>
    rw [List.flatMap_cons, List.countP_append, ih, countP_pairs]
    by_cases hf : f.1 = p
    · rw [if_pos hf, Nat.zero_add, List.filter_cons_of_neg (by simp [hf])]
    · rw [if_neg hf, List.filter_cons_of_pos (by simp [hf]), List.flatMap_cons, List.countP_append]
      rfl

/-- Every ranking of a summary has the files that count most, and the orphans are the files without
exports that no other node imports. A file counts as often as a statement to it was recorded from
another node: in the graph of a set of files, as often as an import of another file stands for it,
so it is an orphan exactly if it exports nothing and no such import does. -/
theorem summary_exact :
    (∀ maxDepth edits, Summarizes (ofEdits maxDepth edits).summary (ofEdits maxDepth edits) ∧
      ∀ p, (ofEdits maxDepth edits).importedBy p =
        (recorded edits).countP fun l => l.2 == p && l.1 != p) ∧
    ∀ files s, Summarizes (build files s).summary (build files s) ∧
      ((files.map Prod.fst).Nodup →
        (∀ p, (build files s).importedBy p =
          (otherImports files s p).countP (·.resolved == some p)) ∧
        ∀ f ∈ kept files s, f.1 ∈ (build files s).summary.orphaned ↔
          f.2.exports = [] ∧ ∀ i ∈ otherImports files s f.1, i.resolved ≠ some f.1) := by
  refine ⟨fun maxDepth edits => ⟨summarizes_ofEdits maxDepth edits, fun p => ?_⟩, fun files s => ?_⟩
  · exact importedBy_of_edges_eq_tally edges_ofEdits
  · refine ⟨build_eq_ofEdits files s ▸ summarizes_ofEdits _ _, fun h => ?_⟩
    refine ⟨fun p => importedBy_build_eq_countP h, fun f hf => ?_⟩
    obtain ⟨hfile, hkept⟩ := mem_kept_iff.mp hf
    rw [mem_orphaned_build h hfile, ← importedBy_build_eq_zero, importedBy_build_eq_countP h,
      List.countP_eq_zero]
    simp [hkept]

theorem summary_exact_app : (app.map Prod.fst).Nodup ∧
    (build app .default).importedBy "b.ts" = 2 ∧
    "c.ts" ∈ (build app .default).summary.orphaned := by
  have hpaths : (app.map Prod.fst).Nodup := by decide
  obtain ⟨hcount, horphan⟩ := (summary_exact.2 app .default).2 hpaths
  have hb : (otherImports app .default "b.ts").countP (·.resolved == some "b.ts") = 2 := by
    decide +kernel
  have hkept : ("c.ts", Facts.mk [staticImport "c.ts" "./a" none] []) ∈ kept app .default := by
    decide +kernel
  have hc : ∀ i ∈ otherImports app .default "c.ts", i.resolved ≠ some "c.ts" := by decide +kernel
  exact ⟨hpaths, (hcount "b.ts").trans hb, (horphan _ hkept).mpr ⟨rfl, hc⟩⟩

end Graph

end CodeAtlas.Dependency
