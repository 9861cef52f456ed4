import CodeAtlas.Proofs.Rings.Completeness
import CodeAtlas.Proofs.Rings.Promises
import CodeAtlas.Proofs.Search.Entering
import CodeAtlas.Report

/-! Which files are on the rings that are found. A file that is on a loop of imports may be on none
of them: those are the files on a loop none of whose files had been left when the search entered
them, and no others. Of every loop there are two neighbours on a ring. -/

namespace CodeAtlas.Dependency

open Relation

namespace Search

variable {g : Graph} {s t : Search} {a b file next : String} {unseen base walk : List String}
  {rest : List Frame}

/-- A way along unseen files to one of some others. -/
inductive Way (g : Graph) (unseen base : List String) : String → Prop
  | here {a : String} (hu : a ∉ unseen) (hbase : a ∈ base) : Way g unseen base a
  | step {a b : String} (hu : a ∈ unseen) (hab : g.FileImport a b) (hb : Way g unseen base b) :
      Way g unseen base a

theorem Way.filter (h : Way g unseen base a) (hu : next ∈ unseen) :
    (Way g (unseen.filter (· ≠ next)) base a ∧ a ≠ next) ∨
      ∃ c ∈ g.successors next, Way g (unseen.filter (· ≠ next)) base c := by
  induction h with
  | here hnot hbase =>
    refine .inl ⟨.here (fun h => hnot (List.mem_filter.mp h).1) hbase, ?_⟩
    exact (ne_of_mem_of_not_mem hu hnot).symm
  | @step a b ha hab _ ih =>
    rcases ih with ⟨hb, -⟩ | hc
    · by_cases heq : a = next
      · -- The last visit of the way to the file counts, so its rest does not come by it again.
        subst heq
        exact .inr ⟨b, (Graph.fileImport_iff.mp hab).2, hb⟩
      · exact .inl ⟨.step (List.mem_filter.mpr ⟨ha, by simpa using heq⟩) hab hb, heq⟩
    · exact .inr hc

theorem Way.mem_base (h : Way g unseen base a) (hu : a ∉ unseen) : a ∈ base := by
  cases h with
  | here _ hbase => exact hbase
  | step ha _ _ => exact absurd ha hu

/-- Along files that have not been left a way leads to where the search is. -/
theorem way_of_reflTransGen (hinv : s.Invariant g) (hg : g.WellFormed)
    (h : ReflTransGen (fun a b => g.FileImport a b ∧ a ∉ s.done) a b) (hb : b ∈ s.entered) :
    Way g s.unseen s.entered a := by
  have hhere (c : String) (hc : c ∈ s.entered) : Way g s.unseen s.entered c :=
    .here (fun hu => hinv.not_mem_entered_of_unseen hg hu hc) hc
  induction h using ReflTransGen.head_induction_on with
  | refl => exact hhere b hb
  | @head a c hac _ ih =>
    have hfile := hinv.mem_files_iff.mp (hg.mem_files_iff.mpr hac.1.1)
    rcases hfile with hu | he | hd
    · exact .step hu hac.1 ih
    · exact hhere a he
    · exact absurd hd hac.2

/-- Where no file is too far down, a way back to a file or below promises a ring with that file. -/
theorem promising_way (hg : g.WellFormed) (hdepth : g.files.length ≤ g.maxDepth) :
    Promising g (fun unseen _ next => Way g unseen (file :: rest.map Frame.file) next) file rest
      (file ∈ ·.stops) where
  enter hu h := h.filter hu
  descend hinv _ _ _ hu := hinv.height_lt hdepth hu
  close {s f next above} hinv hstack hlast h hu := by
    have hnodup := hinv.nodup_entered hg
    obtain ⟨upper, hupper⟩ := List.getLast?_eq_some_iff.mp hlast
    have hsplit : s.entered = upper ++ [file] ++ rest.map Frame.file := by
      rw [entered, hstack, List.map_append, hupper]
    have hmem : next ∈ s.entered := by
      rw [hsplit, List.append_assoc]
      exact List.mem_append_right _ (h.mem_base hu)
    refine ⟨hmem, ?_⟩
    rcases List.mem_cons.mp (h.mem_base hu) with rfl | hnext
    · exact mem_ringTo_stops hnodup hmem
    · exact subset_ringTo_stops hnodup hsplit hnext (List.mem_append_right _ List.mem_cons_self)

end Search

namespace Graph

variable {g : Graph} {file : String} {s : Search} {walk : List String}

theorem mem_eraseReps_loop (a : String) (l acc : List String) (x : String) :
    x ∈ List.eraseRepsBy.loop (· == ·) a l acc ↔ x = a ∨ x ∈ l ∨ x ∈ acc := by
  induction l generalizing a acc with
  | nil =>
    simp only [List.eraseRepsBy.loop, List.mem_reverse, List.mem_cons, List.not_mem_nil, false_or]
  | cons b l ih =>
    rw [List.eraseRepsBy.loop]
    split
    · rename_i h
      obtain rfl := beq_iff_eq.mp h
      rw [ih, List.mem_cons, or_assoc, or_self_left]
    · rw [ih, List.mem_cons, List.mem_cons]
      tauto

theorem mem_eraseReps (l : List String) (x : String) : x ∈ l.eraseReps ↔ x ∈ l := by
  cases l with
  | nil => rfl
  | cons a l =>
    rw [List.eraseReps, List.eraseRepsBy, mem_eraseReps_loop, List.mem_cons]
    simp

theorem mem_filesInCycles : file ∈ g.filesInCycles ↔ ∃ r ∈ g.cycles, file ∈ r.stops := by
  rw [filesInCycles, mem_eraseReps, sortPaths, (List.mergeSort_perm _ _).mem_iff, List.mem_flatMap]

theorem mem_filesInCycles_of_loop (hg : g.WellFormed) (hdepth : g.files.length ≤ g.maxDepth)
    (h : g.Loop walk) (hfile : file ∈ walk) (hs : g.Visits s) (hentering : s.Entering g file)
    (hdone : ∀ other ∈ walk, other ∉ s.done) : file ∈ g.filesInCycles := by
  have hinv := hs.invariant hg
  obtain ⟨rest, hstack⟩ := List.head?_eq_some_iff.mp hentering
  have hentered : s.entered = file :: rest.map Frame.file := by
    rw [Search.entered, hstack, List.map_cons]
  have hchain : walk.IsChain fun a b => g.FileImport a b ∧ a ∉ s.done := by
    refine List.isChain_iff_forall_rel_of_append_cons_cons.mpr fun a b l₁ l₂ hl => ?_
    refine ⟨List.isChain_iff_forall_rel_of_append_cons_cons.mp h.imports hl, hdone a ?_⟩
    rw [hl]
    exact List.mem_append_right _ List.mem_cons_self
  obtain ⟨next, hnext, hback⟩ := TransGen.head'_iff.mp (h.transGen hchain hfile)
  have hway := Search.way_of_reflTransGen hinv hg hback (hentered ▸ List.mem_cons_self)
  rw [hentered] at hway
  have hpromised : s.Promised (fun unseen _ next =>
      Search.Way g unseen (file :: rest.map Frame.file) next) file rest :=
    ⟨[⟨file, g.successors file⟩], hstack, rfl, _, List.mem_cons_self, next,
      (fileImport_iff.mp hnext.1).2, hway⟩
  exact mem_filesInCycles.mpr
    (hs.exists_mem_cycles hg hpromised (Search.promising_way hg hdepth))

theorem exists_loop_of_mem_filesInCycles (hg : g.WellFormed) (h : file ∈ g.filesInCycles) :
    ∃ walk s, g.Loop walk ∧ file ∈ walk ∧ g.Visits s ∧ s.Entering g file ∧
      ∀ other ∈ walk, other ∉ s.done := by
  obtain ⟨r, hr, hfile⟩ := mem_filesInCycles.mp h
  obtain ⟨t, ht, hcloses⟩ := exists_closes_of_mem_cycles hg hr
  have hstops := hcloses.stops_subset (ht.invariant hg) hg
  obtain ⟨f, hf, rfl⟩ := List.mem_map.mp (hstops hfile)
  obtain ⟨upper, lower, hsplit⟩ := List.append_of_mem hf
  obtain ⟨s, hs, hentering, hentered, hupper⟩ := ht.exists_entering hsplit
  have hinv := hs.invariant hg
  refine ⟨r.stops, s, loop_of_mem_cycles hg hr, hfile, hs, hentering, fun other hother => ?_⟩
  have hmem := hstops hother
  rw [Search.entered, hsplit, List.map_append, List.map_cons, ← hentered] at hmem
  -- Those above were still unseen when the file was entered, those below are the same ones.
  rcases List.mem_append.mp hmem with hother | hother
  · exact hinv.not_mem_done_of_unseen hg (hupper hother)
  · exact hinv.not_mem_done_of_entered hg hother

theorem cycles_report_ne_nil_iff (a : FileAnalysis) :
    (FileReport.of g g.cycles a).cycles ≠ [] ↔ a.file ∈ g.filesInCycles := by
  rw [mem_filesInCycles, FileReport.of, Ne, List.filter_eq_nil_iff]
  simp only [Ring.contains, List.contains_iff_mem, not_forall, not_not, exists_prop]

/-- Where no file can be too far down, the files on rings are those on a loop of which the search
had left no file when it entered them; of every loop two neighbours are on a ring; and a project's
report has a problem for each ring of each file. -/
theorem mem_filesInCycles_iff_loop_ahead (maxDepth : Nat) (edits : List Edit)
    (hdepth : (ofEdits maxDepth edits).files.length ≤ maxDepth) :
    let g := ofEdits maxDepth edits
    (∀ file, file ∈ g.filesInCycles ↔ ∃ walk s, g.Loop walk ∧ file ∈ walk ∧ g.Visits s ∧
      s.Entering g file ∧ ∀ other ∈ walk, other ∉ s.done) ∧
    (∀ walk, g.Loop walk →
      ∃ a b, [a, b] <:+: walk ∧ a ∈ g.filesInCycles ∧ b ∈ g.filesInCycles) ∧
    ∀ analyses skipped, ∀ a ∈ analyses, ∃ f ∈ (ProjectReport.of g analyses skipped).files,
      f.path = a.file ∧ f.cycles = g.cycles.filter (·.contains a.file) ∧
      (f.cycles ≠ [] ↔ a.file ∈ g.filesInCycles) ∧
      f.analysis.issues =
        a.issues ++ f.cycles.map fun r => ⟨.circularDependency r, ⟨a.file, none⟩⟩ := by
  intro g
  have hg : g.WellFormed := wellFormed_ofEdits maxDepth edits
  have hdepth' : g.files.length ≤ g.maxDepth := by
    rw [maxDepth_ofEdits]
    exact hdepth
  refine ⟨fun file => ⟨exists_loop_of_mem_filesInCycles hg, ?_⟩, fun walk h => ?_,
    fun analyses skipped a ha => ?_⟩
  · rintro ⟨walk, s, hloop, hfile, hs, hentering, hdone⟩
    exact mem_filesInCycles_of_loop hg hdepth' hloop hfile hs hentering hdone
  · obtain ⟨a, b, hab, r, hr, hsuffix⟩ := exists_closing_of_loop hg hdepth' h
    refine ⟨a, b, hab, mem_filesInCycles.mpr ⟨r, hr, hsuffix.subset List.mem_cons_self⟩, ?_⟩
    refine mem_filesInCycles.mpr ⟨r, hr, hsuffix.subset ?_⟩
    exact List.mem_cons_of_mem _ List.mem_cons_self
  · exact ⟨_, List.mem_map_of_mem ha, rfl, rfl, cycles_report_ne_nil_iff a, rfl⟩

theorem mem_filesInCycles_iff_loop_ahead_detour :
    (ofEdits 3 detour).files.length ≤ 3 ∧ "b" ∈ (ofEdits 3 detour).filesInCycles ∧
      ∃ walk s, (ofEdits 3 detour).Loop walk ∧ "b" ∈ walk ∧ (ofEdits 3 detour).Visits s ∧
        s.Entering (ofEdits 3 detour) "b" ∧ ∀ other ∈ walk, other ∉ s.done := by
  have hdepth : (ofEdits 3 detour).files.length ≤ 3 := by cbv
  have hfiles : (ofEdits 3 detour).filesInCycles = ["a", "b"] := by cbv
  have hb : "b" ∈ (ofEdits 3 detour).filesInCycles := by
    rw [hfiles]
    decide
  exact ⟨hdepth, hb, ((mem_filesInCycles_iff_loop_ahead 3 detour hdepth).1 "b").mp hb⟩

/-- The file that is only on the longer way is on a loop, but the search enters it when it has left
the file that the way leads to. -/
theorem not_forall_loop_mem_filesInCycles :
    ¬∀ maxDepth edits, (ofEdits maxDepth edits).files.length ≤ maxDepth →
      ∀ walk, (ofEdits maxDepth edits).Loop walk →
        ∀ file ∈ walk, file ∈ (ofEdits maxDepth edits).filesInCycles := by
  intro h
  have hdepth : (ofEdits 3 detour).files.length ≤ 3 := by cbv
  have hloop : (ofEdits 3 detour).Loop ["c", "b", "a", "c"] := by decide
  have hfiles : (ofEdits 3 detour).filesInCycles = ["a", "b"] := by cbv
  have hc := h 3 detour hdepth _ hloop "c" (by decide)
  rw [hfiles] at hc
  exact absurd hc (by decide)

end Graph

end CodeAtlas.Dependency
