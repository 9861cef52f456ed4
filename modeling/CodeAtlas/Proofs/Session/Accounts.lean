import CodeAtlas.Proofs.Rings.Loops
import CodeAtlas.Proofs.Session.Imports
import Mathlib.Algebra.BigOperators.Group.List.Basic
import Mathlib.Algebra.GroupWithZero.Nat

/-! The accounts of a report. What is counted file by file and what is counted for the project as a
whole come out the same: every ring is a problem of each of its files and of no other, so there are
as many problems of that kind as the rings have files, once all files that are kept are in. -/

namespace CodeAtlas

def Problem.isRing : Problem → Bool
  | circularDependency _ => true
  | _ => false

theorem Advice.sort_perm (advice : List Advice) : (Advice.sort advice).Perm advice :=
  List.mergeSort_perm _ _

theorem Advice.sorted_sort (advice : List Advice) :
    (Advice.sort advice).Pairwise fun a b => b.priority ≤ a.priority := by
  have htrans (a b c : Advice) (hab : decide (b.priority ≤ a.priority) = true)
      (hbc : decide (c.priority ≤ b.priority) = true) :
      decide (c.priority ≤ a.priority) = true := by
    rw [decide_eq_true_iff] at hab hbc ⊢
    exact hbc.trans hab
  have htotal (a b : Advice) :
      (decide (b.priority ≤ a.priority) || decide (a.priority ≤ b.priority)) = true := by
    rw [Bool.or_eq_true, decide_eq_true_iff, decide_eq_true_iff]
    exact le_total _ _
  simpa [Advice.sort] using List.pairwise_mergeSort htrans htotal advice

namespace FileAnalysis

variable {c : Config} {file text : String}

/-- What is said of a file alone. -/
structure Alone (a : FileAnalysis) : Prop where
  issues : ∀ i ∈ a.issues, i.problem.isRing = false
  advice : .breakCycle ∉ a.advice
  sorted : a.advice.Pairwise fun a b => b.priority ≤ a.priority

theorem alone_combine {allowed : Nat} {facts : Facts} {unused : List String}
    {syntaxProblems : List Issue} {r : Responsibility.Classification} {size : Size.Report}
    (hparse : ∀ i ∈ syntaxProblems, i.problem.isRing = false)
    (hissues : ∀ i ∈ r.issues, i.problem.isRing = false) (hadvice : .breakCycle ∉ r.advice)
    (hsize : ∀ i ∈ size.issues, i.problem.isRing = false) (hsplit : .breakCycle ∉ size.advice) :
    (combine allowed file facts unused syntaxProblems r size).Alone where
  issues := by
    have hunused : ∀ i ∈ unusedIssues allowed file facts.imports unused,
        i.problem.isRing = false := by
      intro i hi
      rw [unusedIssues] at hi
      split at hi
      · rw [List.mem_singleton.mp hi]
        rfl
      · exact absurd hi List.not_mem_nil
    intro i hi
    simp only [combine, List.mem_append] at hi
    rcases hi with ((hi | hi) | hi) | hi
    · exact hparse i hi
    · exact hunused i hi
    · exact hissues i hi
    · exact hsize i hi
  advice := by
    have hunused : .breakCycle ∉ unusedAdvice allowed unused := by
      rw [unusedAdvice]
      split <;> simp
    rw [combine, (Advice.sort_perm _).mem_iff]
    simp [hunused, hadvice, hsplit]
  sorted := Advice.sorted_sort _

theorem alone_size (s : Size.Settings) (file text : String) (tree : Option Node) :
    (∀ i ∈ (Size.Report.of s file text tree).issues, i.problem.isRing = false) ∧
      .breakCycle ∉ (Size.Report.of s file text tree).advice := by
  rw [Size.Report.of]
  dsimp only
  split <;> simp [Problem.isRing]

theorem alone_of (c : Config) (file text : String) : (FileAnalysis.of c file text).Alone := by
  obtain ⟨hsize, hsplit⟩ := alone_size c.size file text none
  rw [FileAnalysis.of]
  split
  · rename_i dialect _
    obtain ⟨hsize, hsplit⟩ :=
      alone_size c.size file text (some (Program.read dialect text).root)
    refine alone_combine ?_ ?_ ?_ hsize hsplit
    · rw [syntaxIssues]
      split <;> simp [Problem.isRing]
    · intro i hi
      simp only [Responsibility.classify, Responsibility.problems, List.mem_append,
        List.mem_map] at hi
      rcases hi with ⟨m, -, rfl⟩ | hi
      · rfl
      · split at hi <;> simp_all [Problem.isRing]
    · simp only [Responsibility.classify]
      split <;> simp
  · refine alone_combine (by simp) ?_ (by simp [Responsibility.Classification.parseFailure]) hsize
      hsplit
    simp [Responsibility.Classification.parseFailure, Problem.isRing]

end FileAnalysis

namespace FileReport

open Dependency

variable {g : Graph} {a : FileAnalysis} {cycles : List Ring}

theorem countP_isRing_of (ha : a.Alone) :
    (of g cycles a).analysis.issues.countP (·.problem.isRing) = (of g cycles a).cycles.length := by
  have hnone : a.issues.countP (·.problem.isRing) = 0 :=
    List.countP_eq_zero.mpr fun i hi => by simp [ha.issues i hi]
  simp only [of, List.countP_append, hnone, Nat.zero_add, List.countP_map]
  exact List.countP_eq_length.mpr fun _ _ => rfl

theorem count_breakCycle_of (ha : a.Alone) : (of g cycles a).analysis.advice.count .breakCycle =
    if (of g cycles a).cycles = [] then 0 else 1 := by
  have hnone : a.advice.count .breakCycle = 0 := List.count_eq_zero.mpr ha.advice
  simp only [of, List.isEmpty_iff]
  split
  · exact hnone
  · rw [(Advice.sort_perm _).count_eq, List.count_append, hnone]
    rfl

theorem sorted_advice_of (ha : a.Alone) :
    (of g cycles a).analysis.advice.Pairwise fun a b => b.priority ≤ a.priority := by
  simp only [of]
  split
  · exact ha.sorted
  · exact Advice.sorted_sort _

end FileReport

theorem ProjectReport.total_eq_sum (files : List FileReport) (count : FileAnalysis → Nat) :
    total files count = (files.map fun f => count f.analysis).sum := by
  induction files with
  | nil => rfl
  | cons f files ih =>
    rw [List.map_cons, List.sum_cons, ← ih]
    rfl

/-- Pairs are counted by the one end or by the other. -/
theorem sum_countP_comm {α β : Type} (R : α → β → Bool) (as : List α) (bs : List β) :
    (as.map fun a => bs.countP (R a)).sum = (bs.map fun b => as.countP (R · b)).sum := by
  induction as with
  | nil => simp
  | cons a as ih =>
    have hhead : bs.countP (R a) = (bs.map fun b => if R a b then 1 else 0).sum := by
      clear ih
      induction bs with
      | nil => rfl
      | cons b bs ih => rw [List.countP_cons, List.map_cons, List.sum_cons, ih, Nat.add_comm]
    simp only [List.map_cons, List.sum_cons, List.countP_cons, ih, hhead]
    rw [← List.sum_map_add]
    simp only [Nat.add_comm]

theorem countP_mem_of_subset {l m : List String} (hl : l.Nodup) (hm : m.Nodup) (h : m ⊆ l) :
    l.countP (m.contains ·) = m.length := by
  rw [List.countP_eq_length_filter]
  refine List.Perm.length_eq ((List.perm_ext_iff_of_nodup (hl.filter _) hm).mpr fun a => ?_)
  rw [List.mem_filter, List.contains_iff_mem]
  exact ⟨fun ha => ha.2, fun ha => ⟨h ha, ha⟩⟩

namespace Dependency.Graph

variable {g : Graph} {r : Ring} {file : String}

/-- The last stop of a ring is its first one, so to leave it out loses no file. -/
theorem Loop.mem_files_iff (h : g.Loop r.stops) : file ∈ r.files ↔ file ∈ r.stops := by
  obtain ⟨hlong, -, hclosed⟩ := h
  rw [Ring.files]
  rcases hstops : r.stops with _ | ⟨a, _ | ⟨b, rest⟩⟩
  · rw [hstops] at hlong
    exact absurd hlong (by simp)
  · rw [hstops] at hlong
    exact absurd hlong (by simp)
  · rw [hstops, List.head?_cons, List.getLast?_eq_some_getLast (List.cons_ne_nil _ _),
      Option.some.injEq] at hclosed
    have hsplit : a :: b :: rest = (a :: b :: rest).dropLast ++ [a] := by
      conv_lhs => rw [← List.dropLast_append_getLast (List.cons_ne_nil a (b :: rest)), ← hclosed]
    have hfirst : a ∈ (a :: b :: rest).dropLast := by
      rw [List.dropLast_cons_cons]
      exact List.mem_cons_self
    conv_rhs => rw [hsplit, List.mem_append, List.mem_singleton]
    refine ⟨.inl, fun h => ?_⟩
    rcases h with h | rfl
    · exact h
    · exact hfirst

theorem contains_of_mem_cycles (hg : g.WellFormed) (hr : r ∈ g.cycles) :
    r.contains = (r.files.contains ·) := by
  funext file
  rw [Ring.contains, Bool.eq_iff_iff, List.contains_iff_mem, List.contains_iff_mem,
    (loop_of_mem_cycles hg hr).mem_files_iff]

end Dependency.Graph

namespace Session

open Dependency Dependency.Graph

variable {c : Config} {s : Session} {source : Source} {past : List Event} {paths : List String}

theorem Reflects.nodup_files_analyzeProject (h : s.Reflects c past) :
    ((s.analyzeProject source paths).2.files.map FileReport.path).Nodup := by
  rw [h.files_analyzeProject]
  exact Dependency.nodup_eraseDups _

theorem cycles_analyzeProject : (s.analyzeProject source paths).2.cycles =
    (s.analyzeProject source paths).1.graph.cycles := rfl

theorem Reflects.exists_kept_of_mem_cycles (h : s.Reflects c past) (hs : s.Current) {r : Ring}
    (hr : r ∈ s.graph.cycles) {file : String} (hfile : file ∈ r.files) :
    ∃ k ∈ s.kept, k.key = file := by
  rw [hs.graph_eq] at hr
  have hisFile := (files_of_mem_cycles (wellFormed_build _ _) hr).2 file hfile
  obtain ⟨hmem, -⟩ := mem_keptPaths_iff.mp ((isFile_build h.nodup_keys).mp hisFile)
  simpa [entry] using hmem

theorem Reflects.countP_isRing_analyzeProject (h : s.Reflects c past) (hs : s.Current) :
    let t := (s.analyzeProject source paths).1
    let report := (s.analyzeProject source paths).2
    (∀ k ∈ t.kept, k.key ∈ report.files.map FileReport.path) →
      (report.files.flatMap fun f => f.analysis.issues).countP (·.problem.isRing) =
        (report.cycles.map Ring.length).sum := by
  intro t report hall
  have ht : t.Reflects c _ := h.handle hs source (.project paths)
  have htcurrent : t.Current := hs.handle source (.project paths)
  have hg : t.graph.WellFormed := by
    rw [htcurrent.graph_eq]
    exact wellFormed_build _ _
  have hcycles : report.cycles = t.graph.cycles := cycles_analyzeProject
  have hfile : ∀ f ∈ report.files, f.analysis.issues.countP (·.problem.isRing) =
      report.cycles.countP (·.contains f.path) := by
    intro f hf
    obtain ⟨k, hfind, rfl⟩ := h.of_mem_files hf
    rw [FileReport.countP_isRing_of, hcycles, List.countP_eq_length_filter]
    · rfl
    · rw [ht.analysis_of_find? hfind]
      exact FileAnalysis.alone_of _ _ _
  -- A ring has each of its files once, and all of them are in the report.
  have hring : ∀ r ∈ report.cycles,
      report.files.countP (fun f => r.contains f.path) = r.length := by
    intro r hr
    rw [hcycles] at hr
    have hmap : report.files.countP (fun f => r.contains f.path) =
        (report.files.map FileReport.path).countP r.contains := by
      rw [List.countP_map]
      rfl
    rw [hmap, contains_of_mem_cycles hg hr]
    refine countP_mem_of_subset h.nodup_files_analyzeProject (files_of_mem_cycles hg hr).1
      fun file hfile => ?_
    obtain ⟨k, hk, rfl⟩ := ht.exists_kept_of_mem_cycles htcurrent hr hfile
    exact hall k hk
  calc
    (report.files.flatMap fun f => f.analysis.issues).countP (·.problem.isRing)
      = (report.files.map fun f => report.cycles.countP (·.contains f.path)).sum := by
        rw [List.countP_flatMap]
        exact congrArg List.sum (List.map_congr_left hfile)
    _ = (report.cycles.map fun r => report.files.countP (fun f => r.contains f.path)).sum :=
        sum_countP_comm (fun (f : FileReport) (r : Ring) => r.contains f.path) _ _
    _ = (report.cycles.map Ring.length).sum := congrArg List.sum (List.map_congr_left hring)

/-- What a report says file by file is what was found in the file alone, and then one grave problem
for each ring that the file is on, in their order, and one advice for them all, if there are any;
the more urgent advice comes first. The numbers of the summary are those of the files together, and
if the report covers all files that are kept, its rings have as many files as there are problems of
that kind. -/
theorem report_accounts_for_rings (c : Config) (requests : List (Source × Request))
    (source : Source) (paths : List String) :
    let t := ((serve c requests).analyzeProject source paths).1
    let report := ((serve c requests).analyzeProject source paths).2
    report.cycles = t.graph.cycles ∧
    (∀ f ∈ report.files, ∃ k, t.find? f.path = some k ∧
      f.cycles = report.cycles.filter (·.contains f.path) ∧
      f.analysis.issues =
        k.analysis.issues ++ f.cycles.map (fun r => ⟨.circularDependency r, ⟨f.path, none⟩⟩) ∧
      (∀ i ∈ k.analysis.issues, i.problem.isRing = false) ∧
      (∀ i ∈ f.analysis.issues, i.problem.isRing = true → i.severity = .high) ∧
      f.analysis.advice.count .breakCycle = (if f.cycles = [] then 0 else 1) ∧
      f.analysis.advice.Pairwise fun a b => b.priority ≤ a.priority) ∧
    report.summary.totalFiles = report.files.length ∧
    report.summary.totalImports = (report.files.map fun f => f.analysis.facts.imports.length).sum ∧
    report.summary.totalExports = (report.files.map fun f => f.analysis.facts.exports.length).sum ∧
    report.summary.totalUnused = (report.files.map fun f => f.analysis.unused.length).sum ∧
    report.summary.filesTooLarge = report.files.countP (·.analysis.size.exceeds) ∧
    report.summary.filesOfMultipleWork =
      report.files.countP (·.analysis.responsibilities.isMultiple) ∧
    report.summary.skippedFiles = report.skipped.length ∧
    report.summary.circularDependencies = report.cycles.length ∧
    ((∀ k ∈ t.kept, k.key ∈ report.files.map FileReport.path) →
      (report.files.flatMap fun f => f.analysis.issues).countP (·.problem.isRing) =
        (report.cycles.map Ring.length).sum) := by
  intro t report
  obtain ⟨hreflects, hcurrent⟩ := serve_invariant c requests
  have ht : t.Reflects c _ := hreflects.handle hcurrent source (.project paths)
  refine ⟨cycles_analyzeProject, fun f hf => ?_, rfl,
    ProjectReport.total_eq_sum _ fun a => a.facts.imports.length,
    ProjectReport.total_eq_sum _ fun a => a.facts.exports.length,
    ProjectReport.total_eq_sum _ fun a => a.unused.length, rfl, rfl, rfl, rfl,
    hreflects.countP_isRing_analyzeProject hcurrent⟩
  obtain ⟨k, hfind, rfl⟩ := hreflects.of_mem_files hf
  have halone : k.analysis.Alone := by
    rw [ht.analysis_of_find? hfind]
    exact FileAnalysis.alone_of _ _ _
  refine ⟨k, hfind, rfl, rfl, halone.issues, fun i _ hring => ?_,
    FileReport.count_breakCycle_of halone, FileReport.sorted_advice_of halone⟩
  obtain ⟨problem, location⟩ := i
  cases problem <;> first | rfl | cases hring

/-- A file that imports itself and one that imports it. -/
def crossing : Source.Memory :=
  .ofFiles [("a.ts", "import './a'\nimport './b'"), ("b.ts", "import './a'")]

theorem report_accounts_for_rings_crossing :
    let done := (serve .default []).analyzeProject crossing.source ["a.ts", "b.ts"]
    (∀ k ∈ done.1.kept, k.key ∈ done.2.files.map FileReport.path) ∧
      done.2.cycles.length = 2 ∧
      (done.2.files.flatMap fun f => f.analysis.issues).countP (·.problem.isRing) = 3 := by
  intro done
  have hkept : done.1.kept.map KeptFile.key = ["a.ts", "b.ts"] := by decide +kernel
  have hpaths : done.2.files.map FileReport.path = ["a.ts", "b.ts"] := by decide +kernel
  have hfacts : done.1.kept.map (fun k => (k.key, k.analysis.facts)) =
      [("a.ts", ⟨[⟨"a.ts", "./a", [], .static, 1, none⟩, ⟨"a.ts", "./b", [], .static, 2, none⟩],
          []⟩),
        ("b.ts", ⟨[⟨"b.ts", "./a", [], .static, 1, none⟩], []⟩)] := by decide +kernel
  have hgraph : done.1.graph =
      ⟨[⟨"a.ts", false, [⟨"a.ts", "./a", [], .static, 1, some "a.ts"⟩,
            ⟨"a.ts", "./b", [], .static, 2, some "b.ts"⟩], []⟩,
          ⟨"b.ts", false, [⟨"b.ts", "./a", [], .static, 1, some "a.ts"⟩], []⟩],
        [⟨"a.ts", "a.ts", 1⟩, ⟨"a.ts", "b.ts", 1⟩, ⟨"b.ts", "a.ts", 1⟩], 10⟩ := by
    have hcurrent : done.1.Current :=
      (serve_invariant .default []).2.handle crossing.source (.project ["a.ts", "b.ts"])
    have hconfig : done.1.config.dependencies = .default := by decide +kernel
    rw [hcurrent.graph_eq, hfacts, hconfig]
    decide +kernel
  have hcycles : done.2.cycles = [⟨["a.ts", "a.ts"]⟩, ⟨["a.ts", "b.ts", "a.ts"]⟩] := by
    change done.1.graph.cycles = _
    rw [hgraph]
    cbv
  have hall : ∀ k ∈ done.1.kept, k.key ∈ done.2.files.map FileReport.path := by
    intro k hk
    rw [hpaths, ← hkept]
    exact List.mem_map_of_mem hk
  obtain ⟨-, -, -, -, -, -, -, -, -, -, hcount⟩ :=
    report_accounts_for_rings .default [] crossing.source ["a.ts", "b.ts"]
  refine ⟨hall, by rw [hcycles]; rfl, (hcount hall).trans ?_⟩
  change (done.2.cycles.map Ring.length).sum = 3
  rw [hcycles]
  rfl

end Session

end CodeAtlas
