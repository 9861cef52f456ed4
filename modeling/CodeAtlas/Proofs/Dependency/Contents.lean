import CodeAtlas.Proofs.Dependency.Answers
import CodeAtlas.Proofs.Dependency.Built
import CodeAtlas.Proofs.Source.Patterns

/-! What is in the graph of a set of files: a file for every path that is not left out, a package
for everything else that an import stands for, and between two nodes as many statements as the one
has imports that stand for the other. -/

namespace CodeAtlas.Dependency

/-- Whether a pattern that can be read leaves a path out. -/
def Excluded (s : Settings) (path : String) : Prop := Source.Matches s.excludePatterns path

/-- What a specifier stands for in a file: a file, else a package if packages are wanted. -/
def meaning? (s : Settings) (known : List String) (importer specifier : String) : Option String :=
  match resolve? known importer specifier with
  | some file => some file
  | none =>
    if s.includeExternal = true ∧ isPathSpecifier specifier = false then some specifier else none

theorem resolveImport_eq (s : Settings) (known : List String) (importer : String) (i : Import) :
    resolveImport s known importer i =
      { i with resolved := meaning? s known importer i.specifier } := by
  rw [resolveImport, meaning?]
  cases resolve? known importer i.specifier with
  | some file => rfl
  | none => simp

theorem resolve?_mem {known : List String} {importer specifier file : String}
    (h : resolve? known importer specifier = some file) : file ∈ known := by
  rw [resolve?] at h
  split at h
  · simpa using List.find?_some h
  · cases h

namespace Graph

variable {files : List (String × Facts)} {s : Settings} {f : String × Facts} {p : String}

/-- The node of a file whose imports have been looked up. -/
def fileNode (s : Settings) (known : List String) (f : String × Facts) : FileNode :=
  ⟨f.1, false, f.2.imports.map (resolveImport s known f.1), f.2.exports⟩

theorem fileNode_eq (s : Settings) (known : List String) (f : String × Facts) :
    fileNode s known f = ⟨f.1, false,
      f.2.imports.map fun i => { i with resolved := meaning? s known f.1 i.specifier },
      f.2.exports⟩ := by
  rw [fileNode, funext (resolveImport_eq s known f.1)]

theorem mem_kept_iff : f ∈ kept files s ↔ f ∈ files ∧ ¬Excluded s f.1 := by
  rw [kept, List.mem_filter, Excluded, ← Source.accepts_compile_iff]
  simp

theorem mem_keptPaths_iff :
    p ∈ keptPaths files s ↔ p ∈ files.map Prod.fst ∧ ¬Excluded s p := by
  constructor
  · intro hp
    obtain ⟨f, hf, rfl⟩ := List.mem_map.mp hp
    obtain ⟨hf, hexcluded⟩ := mem_kept_iff.mp hf
    exact ⟨List.mem_map_of_mem hf, hexcluded⟩
  · rintro ⟨hp, hexcluded⟩
    obtain ⟨f, hf, rfl⟩ := List.mem_map.mp hp
    exact List.mem_map_of_mem (mem_kept_iff.mpr ⟨hf, hexcluded⟩)

theorem nodup_keptPaths (h : (files.map Prod.fst).Nodup) : (keptPaths files s).Nodup :=
  h.sublist (List.filter_sublist.map Prod.fst)

theorem added_fileEdits : added (fileEdits files s) = keptPaths files s := by
  have hpath : Edit.path? ∘ fileEdit s (keptPaths files s) = some ∘ Prod.fst := rfl
  rw [added, fileEdits, List.filterMap_map, hpath, List.filterMap_eq_map, keptPaths]

theorem added_linkEdits (links : List (String × String)) :
    added (linkEdits links) = links.map Prod.snd := by
  induction links with
  | nil => rfl
  | cons l links ih =>
    rw [List.map_cons, ← ih]
    rfl

theorem recordedFrom_fileEdits (known paths : List String) (fs : List (String × Facts)) :
    recordedFrom paths (fs.map (fileEdit s known)) = [] := by
  induction fs generalizing paths with
  | nil => rfl
  | cons f fs ih => exact ih (paths ++ [f.1])

theorem recordedFrom_linkEdits {paths : List String} {links : List (String × String)}
    (h : ∀ l ∈ links, l.1 ∈ paths) : recordedFrom paths (linkEdits links) = links := by
  induction links generalizing paths with
  | nil => rfl
  | cons l links ih =>
    have hl : l.1 ∈ paths ++ [l.2] := List.mem_append_left _ (h l List.mem_cons_self)
    have hrest : recordedFrom (paths ++ [l.2]) (linkEdits links) = links :=
      ih fun m hm => List.mem_append_left _ (h m (List.mem_cons_of_mem _ hm))
    rw [linkEdits, List.flatMap_cons, ← linkEdits, List.cons_append, List.singleton_append,
      recordedFrom, recordedFrom, if_pos ⟨hl, List.mem_append_right _ List.mem_cons_self⟩, hrest]

/-- Behind the files themselves only packages and statements are added. -/
theorem not_file_mem_linkEdits {links : List (String × String)} {imports : List Import}
    {exports : List Export} : .file p imports exports ∉ linkEdits links := by
  simp [linkEdits]

theorem nodeAt_file (rest : List Edit) (h : (files.map Prod.fst).Nodup) (hf : f ∈ kept files s)
    (hrest : ∀ imports exports, .file f.1 imports exports ∉ rest) :
    nodeAt (fileEdits files s ++ rest) f.1 = fileNode s (keptPaths files s) f := by
  rcases nodeAt_cases (fileEdits files s ++ rest) f.1 with ⟨hno, -⟩ | ⟨imports, exports, hmem, heq⟩
  · exact absurd (List.mem_append_left _ (List.mem_map_of_mem hf)) (hno _ _)
  · rw [heq]
    rcases List.mem_append.mp hmem with hmem | hmem
    · obtain ⟨f', hf', hedit⟩ := List.mem_map.mp hmem
      obtain ⟨hpath, rfl, rfl⟩ := Edit.file.inj hedit
      obtain rfl := List.inj_on_of_nodup_map (nodup_keptPaths h) hf' hf hpath
      rfl
    · exact absurd hmem (hrest _ _)

theorem find?_unlinked (h : (files.map Prod.fst).Nodup) (hf : f ∈ kept files s) :
    (unlinked files s).find? f.1 = some (fileNode s (keptPaths files s) f) := by
  have hadded : f.1 ∈ added (fileEdits files s) := by
    rw [added_fileEdits]
    exact List.mem_map_of_mem hf
  have hnode := nodeAt_file [] h hf fun _ _ => List.not_mem_nil
  rw [List.append_nil] at hnode
  rw [unlinked_eq_ofEdits, ofEdits_eq_ofHistory, find?_ofHistory, if_pos hadded, hnode]

theorem links_eq (h : (files.map Prod.fst).Nodup) : links files s =
    (kept files s).flatMap fun f =>
      ((fileNode s (keptPaths files s) f).imports.filterMap Import.resolved).map (f.1, ·) := by
  rw [links, keptPaths, List.flatMap_map]
  refine List.flatMap_congr fun f hf => ?_
  rw [targets, find?_unlinked h hf]
  rfl

/-- With different first parts the pairs of one of them are found with it alone. -/
theorem count_flatMap_pairs {fs : List (String × Facts)} (targets : String × Facts → List String)
    (b : String) (h : (fs.map Prod.fst).Nodup) (hf : f ∈ fs) :
    (fs.flatMap fun f => (targets f).map (f.1, ·)).count (f.1, b) = (targets f).count b := by
  have hother (f' : String × Facts) (hne : f'.1 ≠ f.1) :
      ((targets f').map (f'.1, ·)).count (f.1, b) = 0 := by
    refine List.count_eq_zero_of_not_mem fun hmem => ?_
    obtain ⟨t, -, heq⟩ := List.mem_map.mp hmem
    exact hne (Prod.mk.inj heq).1
  have hself : ((targets f).map (f.1, ·)).count (f.1, b) = (targets f).count b :=
    List.count_map_of_injective _ _ (fun _ _ heq => (Prod.mk.inj heq).2) b
  induction fs with
  | nil => cases hf
  | cons f' fs ih =>
    obtain ⟨hnot, hrest⟩ := List.nodup_cons.mp h
    rw [List.flatMap_cons, List.count_append]
    rcases List.mem_cons.mp hf with rfl | hf
    · have hzero : (fs.flatMap fun f => (targets f).map (f.1, ·)).count (f.1, b) = 0 := by
        refine List.count_eq_zero_of_not_mem fun hmem => ?_
        obtain ⟨f', hf', hmem⟩ := List.mem_flatMap.mp hmem
        obtain ⟨t, -, heq⟩ := List.mem_map.mp hmem
        exact hnot ((Prod.mk.inj heq).1 ▸ List.mem_map_of_mem hf')
      rw [hself, hzero, Nat.add_zero]
    · have hne : f'.1 ≠ f.1 := fun heq => hnot (heq ▸ List.mem_map_of_mem hf)
      rw [hother f' hne, ih hrest hf, Nat.zero_add]

theorem count_links (b : String) (h : (files.map Prod.fst).Nodup) (hf : f ∈ kept files s) :
    (links files s).count (f.1, b) =
      (fileNode s (keptPaths files s) f).imports.countP fun i => i.resolved == some b := by
  rw [links_eq h, count_flatMap_pairs _ b (nodup_keptPaths h) hf, List.count_filterMap]

theorem added_build : added (fileEdits files s ++ linkEdits (links files s)) =
    keptPaths files s ++ (links files s).map Prod.snd := by
  rw [← added_fileEdits, ← added_linkEdits, added, added, added, List.filterMap_append]

theorem recorded_build :
    recorded (fileEdits files s ++ linkEdits (links files s)) = links files s := by
  rw [recorded, recordedFrom_append, fileEdits, recordedFrom_fileEdits, List.nil_append,
    ← fileEdits, List.nil_append, added_fileEdits]
  exact recordedFrom_linkEdits fun l hl => mem_keptPaths_of_mem_links hl

theorem edges_build : (build files s).edges = tally (links files s) := by
  rw [build_eq_ofEdits, edges_ofEdits, recorded_build]

theorem imports_build {a b : String} : (build files s).Imports a b ↔ (a, b) ∈ links files s := by
  rw [Imports, edges_build, ends_tally, List.mem_eraseDups]

theorem nodeAt_package (hp : p ∉ keptPaths files s) :
    nodeAt (fileEdits files s ++ linkEdits (links files s)) p = ⟨p, true, [], []⟩ := by
  rcases nodeAt_cases (fileEdits files s ++ linkEdits (links files s)) p with
    ⟨-, h⟩ | ⟨imports, exports, hmem, -⟩
  · exact h
  · rcases List.mem_append.mp hmem with hmem | hmem
    · have hadded : p ∈ added (fileEdits files s) := List.mem_filterMap.mpr ⟨_, hmem, rfl⟩
      rw [added_fileEdits] at hadded
      exact absurd hadded hp
    · exact absurd hmem not_file_mem_linkEdits

/-- The files come first, then the packages. -/
theorem nodes_build (h : (files.map Prod.fst).Nodup) : (build files s).nodes =
    (kept files s).map (fileNode s (keptPaths files s)) ++
      (((links files s).map Prod.snd).removeAll (keptPaths files s)).eraseDups.map
        fun name => ⟨name, true, [], []⟩ := by
  have hkept : (keptPaths files s).map (nodeAt (fileEdits files s ++ linkEdits (links files s))) =
      (kept files s).map (fileNode s (keptPaths files s)) := by
    rw [keptPaths, List.map_map]
    exact List.map_congr_left fun f hf => nodeAt_file _ h hf fun _ _ => not_file_mem_linkEdits
  rw [build_eq_ofEdits, ofEdits_eq_ofHistory, ofHistory]
  dsimp only
  rw [added_build, List.eraseDups_append, eraseDups_of_nodup (nodup_keptPaths h), List.map_append,
    hkept]
  refine congrArg _ (List.map_congr_left fun p hp => nodeAt_package ?_)
  simpa [List.removeAll] using (List.mem_filter.mp (List.mem_eraseDups.mp hp)).2

theorem mem_nodes_build (h : (files.map Prod.fst).Nodup) {n : FileNode} :
    n ∈ (build files s).nodes ↔ (∃ f ∈ kept files s, n = fileNode s (keptPaths files s) f) ∨
      ∃ name, name ∉ keptPaths files s ∧ name ∈ (links files s).map Prod.snd ∧
        n = ⟨name, true, [], []⟩ := by
  have hremoved (name : String) :
      name ∈ (((links files s).map Prod.snd).removeAll (keptPaths files s)).eraseDups ↔
        name ∉ keptPaths files s ∧ name ∈ (links files s).map Prod.snd := by
    rw [List.mem_eraseDups, List.removeAll, List.mem_filter, and_comm]
    simp
  rw [nodes_build h, List.mem_append, List.mem_map, List.mem_map]
  simp only [hremoved, and_assoc, eq_comm]

theorem mem_files_build (h : (files.map Prod.fst).Nodup) {n : FileNode} :
    n ∈ (build files s).nodes ∧ n.isExternal = false ↔
      ∃ f ∈ files, ¬Excluded s f.1 ∧ n = fileNode s (keptPaths files s) f := by
  rw [mem_nodes_build h]
  constructor
  · rintro ⟨⟨f, hf, rfl⟩ | ⟨name, -, -, rfl⟩, hinternal⟩
    · exact ⟨f, (mem_kept_iff.mp hf).1, (mem_kept_iff.mp hf).2, rfl⟩
    · cases hinternal
  · rintro ⟨f, hf, hexcluded, rfl⟩
    exact ⟨.inl ⟨f, mem_kept_iff.mpr ⟨hf, hexcluded⟩, rfl⟩, rfl⟩

def staticImport (file specifier : String) (resolved : Option String) : Import :=
  ⟨file, specifier, [], .static, 1, resolved⟩

/-- A file that imports another one twice and a package, and one that is left out. -/
def app : List (String × Facts) :=
  [("a.ts", ⟨[staticImport "a.ts" "./b" none, staticImport "a.ts" "react" none,
      staticImport "a.ts" "./b.ts" none], []⟩),
    ("b.ts", ⟨[], [⟨"b", .named, 1, none⟩]⟩), ("c.ts", ⟨[staticImport "c.ts" "./a" none], []⟩)]

end Graph

end CodeAtlas.Dependency
