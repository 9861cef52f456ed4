import CodeAtlas.Proofs.Dependency.Rankings
import CodeAtlas.Proofs.Search.Comparison
import Mathlib.Data.List.Permutation
import Mathlib.Data.List.Sort

/-! What becomes of the graph of a set of files when packages are wanted in it. A package counts as
the file of its name if there is one, so nothing changes between the files exactly if no file is
named like a package that one of them imports. -/

namespace CodeAtlas.Dependency

def Settings.withPackages (s : Settings) (wanted : Bool) : Settings :=
  { s with includeExternal := wanted }

section Meanings

variable {s : Settings} {known : List String} {importer specifier p : String}

theorem resolve?_of_package (h : isPathSpecifier specifier = false) :
    resolve? known importer specifier = none := by
  rw [resolve?, h]
  rfl

theorem meaning?_without : meaning? (s.withPackages false) known importer specifier =
    resolve? known importer specifier := by
  rw [meaning?]
  cases resolve? known importer specifier <;> rfl

theorem meaning?_with : meaning? (s.withPackages true) known importer specifier =
    if isPathSpecifier specifier then resolve? known importer specifier else some specifier := by
  rw [meaning?]
  cases hpath : isPathSpecifier specifier with
  | true => cases resolve? known importer specifier <;> simp
  | false => simp [resolve?_of_package hpath, Settings.withPackages]

/-- Of what a specifier stands for when packages are wanted, the files are what it stood for. -/
theorem meaning?_with_filter (h : isPathSpecifier specifier = false → specifier ∉ known) :
    (meaning? (s.withPackages true) known importer specifier).filter (· ∈ known) =
      resolve? known importer specifier := by
  rw [meaning?_with]
  cases hpath : isPathSpecifier specifier with
  | true =>
    cases hresolve : resolve? known importer specifier with
    | some file => simp [resolve?_mem hresolve]
    | none => simp
  | false => simp [h hpath, resolve?_of_package hpath]

theorem meaning?_with_beq :
    (meaning? (s.withPackages true) known importer specifier == some p) =
      (resolve? known importer specifier == some p ||
        (!isPathSpecifier specifier && specifier == p)) := by
  rw [meaning?_with]
  cases hpath : isPathSpecifier specifier with
  | true => simp
  | false => simp [resolve?_of_package hpath]

end Meanings

theorem countP_or_of_disjoint {α : Type} {p q : α → Bool} (l : List α)
    (h : ∀ a, p a = true → q a = false) :
    l.countP (fun a => p a || q a) = l.countP p + l.countP q := by
  induction l with
  | nil => rfl
  | cons a l ih =>
    rw [List.countP_cons, List.countP_cons, List.countP_cons, ih]
    cases hp : p a with
    | true => simp [h a hp]; omega
    | false => simp; omega

namespace Graph

variable {files : List (String × Facts)} {s : Settings} {f : String × Facts} {p target : String}
  {k : Nat}

/-- No file has the name of a package that is imported. -/
def Apart (files : List (String × Facts)) (s : Settings) : Prop :=
  ∀ f ∈ kept files s, ∀ i ∈ f.2.imports,
    isPathSpecifier i.specifier = false → i.specifier ∉ keptPaths files s

instance : Decidable (Apart files s) :=
  inferInstanceAs (Decidable (∀ f ∈ kept files s, ∀ i ∈ f.2.imports,
    isPathSpecifier i.specifier = false → i.specifier ∉ keptPaths files s))

/-- A node whose imports of packages stand for nothing. -/
def forgetPackages (n : FileNode) : FileNode :=
  { n with imports := n.imports.map fun i =>
      if isPathSpecifier i.specifier then i else { i with resolved := none } }

/-- How many imports of a file lead to a path among the known ones. -/
def pathImports (known : List String) (f : String × Facts) (target : String) : Nat :=
  f.2.imports.countP fun i => resolve? known f.1 i.specifier == some target

/-- How many imports of a file are of a package. -/
def packageImports (f : String × Facts) (name : String) : Nat :=
  f.2.imports.countP fun i => !isPathSpecifier i.specifier && i.specifier == name

theorem keptPaths_withPackages (wanted : Bool) :
    keptPaths files (s.withPackages wanted) = keptPaths files s :=
  rfl

theorem fileNode_withPackages (known : List String) (f : String × Facts) :
    fileNode (s.withPackages false) known f =
      forgetPackages (fileNode (s.withPackages true) known f) := by
  rw [fileNode_eq, fileNode_eq, forgetPackages, List.map_map, FileNode.mk.injEq]
  refine ⟨rfl, rfl, List.map_congr_left fun i _ => ?_, rfl⟩
  simp only [Function.comp_apply, meaning?_without, meaning?_with]
  cases hpath : isPathSpecifier i.specifier with
  | true => simp
  | false => simp [resolve?_of_package hpath]

theorem targets_kept_without (h : (files.map Prod.fst).Nodup) {l : String × String}
    (hl : l ∈ links files (s.withPackages false)) : l.2 ∈ keptPaths files s := by
  rw [links_eq h] at hl
  obtain ⟨f, -, hl⟩ := List.mem_flatMap.mp hl
  rw [fileNode_eq, List.mem_map] at hl
  obtain ⟨t, ht, rfl⟩ := hl
  obtain ⟨j, hj, hresolved⟩ := List.mem_filterMap.mp ht
  obtain ⟨i, -, rfl⟩ := List.mem_map.mp hj
  rw [meaning?_without] at hresolved
  exact resolve?_mem hresolved

theorem nodes_without (h : (files.map Prod.fst).Nodup) :
    (build files (s.withPackages false)).nodes =
      ((build files (s.withPackages true)).nodes.filter fun n => !n.isExternal).map
        forgetPackages := by
  have hnone : ((links files (s.withPackages false)).map Prod.snd).removeAll
      (keptPaths files (s.withPackages false)) = [] := by
    refine List.filter_eq_nil_iff.mpr fun name hname => ?_
    obtain ⟨l, hl, rfl⟩ := List.mem_map.mp hname
    have hkept := targets_kept_without h hl
    rw [← keptPaths_withPackages false] at hkept
    simpa using hkept
  rw [filter_nodes_build h, nodes_build h, hnone, List.eraseDups_nil, List.map_nil, List.append_nil,
    List.map_map]
  exact List.map_congr_left fun f _ => fileNode_withPackages _ f

theorem internal_withPackages (h : (files.map Prod.fst).Nodup) :
    (build files (s.withPackages false)).internal =
      (build files (s.withPackages true)).internal.map forgetPackages := by
  rw [internal_build h, internal_build h, List.map_map]
  exact List.map_congr_left fun f _ => fileNode_withPackages _ f

theorem links_of_apart (h : (files.map Prod.fst).Nodup) (hapart : Apart files s) :
    links files (s.withPackages false) =
      (links files (s.withPackages true)).filter fun l => l.2 ∈ keptPaths files s := by
  rw [links_eq h, links_eq h, List.filter_flatMap]
  refine List.flatMap_congr fun f hf => ?_
  rw [List.filter_map, fileNode_eq, fileNode_eq]
  refine congrArg (List.map _) ?_
  dsimp only
  rw [List.filter_filterMap, List.filterMap_map, List.filterMap_map]
  refine List.filterMap_congr fun i hi => ?_
  simp only [Function.comp_apply, meaning?_without]
  exact (meaning?_with_filter (hapart f hf i hi)).symm

theorem mem_edges_without (h : (files.map Prod.fst).Nodup) (hf : f ∈ kept files s) :
    ⟨f.1, target, k⟩ ∈ (build files (s.withPackages false)).edges ↔
      0 < k ∧ k = pathImports (keptPaths files s) f target := by
  have hcount := count_links target h (s := s.withPackages false) hf
  rw [fileNode_eq, List.countP_map] at hcount
  simp only [Function.comp_def, meaning?_without] at hcount
  rw [edges_build, mem_tally, Edge.ends, hcount]
  rfl

theorem mem_edges_with (h : (files.map Prod.fst).Nodup) (hf : f ∈ kept files s) :
    ⟨f.1, target, k⟩ ∈ (build files (s.withPackages true)).edges ↔
      0 < k ∧ k = pathImports (keptPaths files s) f target + packageImports f target := by
  -- No import counts twice: a package leads to no path.
  have hdisjoint (i : Import) (hi : (resolve? (keptPaths files s) f.1 i.specifier == some target)) :
      (!isPathSpecifier i.specifier && i.specifier == target) = false := by
    cases hpath : isPathSpecifier i.specifier with
    | true => rfl
    | false =>
      rw [resolve?_of_package hpath] at hi
      cases hi
  have hcount := count_links target h (s := s.withPackages true) hf
  rw [fileNode_eq, List.countP_map] at hcount
  simp only [Function.comp_def, meaning?_with_beq] at hcount
  rw [pathImports, packageImports, ← countP_or_of_disjoint _ hdisjoint, edges_build, mem_tally,
    Edge.ends, hcount]
  rfl

theorem edges_of_apart (h : (files.map Prod.fst).Nodup) (hapart : Apart files s) :
    (build files (s.withPackages false)).edges = (build files (s.withPackages true)).edges.filter
      fun e => (build files (s.withPackages true)).isFile e.target := by
  rw [edges_build, edges_build, links_of_apart h hapart, tally_filter]
  refine List.filter_congr fun e _ => ?_
  rw [Bool.eq_iff_iff, isFile_build h, decide_eq_true_eq]
  rfl

theorem searchedAlike_of_apart (h : (files.map Prod.fst).Nodup) (hapart : Apart files s) :
    (build files (s.withPackages true)).SearchedAlike (build files (s.withPackages false)) := by
  refine ⟨?_, funext fun a => ?_, ?_⟩
  · rw [files_build h, files_build h]
    rfl
  · -- Sorted lists are equal as soon as they have the same members.
    have hon := (wellFormed_build files (s.withPackages true)).sorted_successors (a := a)
    have hoff := (wellFormed_build files (s.withPackages false)).sorted_successors (a := a)
    refine hon.eq_of_mem_iff hoff fun b => ?_
    rw [mem_successors, mem_successors, isFile_build h, isFile_build h, imports_build,
      imports_build, links_of_apart h hapart, List.mem_filter, keptPaths_withPackages,
      keptPaths_withPackages, decide_eq_true_eq]
    tauto
  · rw [build_eq_ofEdits, build_eq_ofEdits, maxDepth_ofEdits, maxDepth_ofEdits]
    rfl

theorem importedBy_of_apart (h : (files.map Prod.fst).Nodup) (hapart : Apart files s)
    (hp : p ∈ keptPaths files s) : (build files (s.withPackages false)).importedBy p =
      (build files (s.withPackages true)).importedBy p := by
  rw [importedBy_build, importedBy_build, links_of_apart h hapart, List.countP_filter]
  refine List.countP_congr fun l _ => ?_
  rw [Bool.and_eq_true, and_iff_left_iff_imp, Bool.and_eq_true, decide_eq_true_eq]
  rintro ⟨htarget, -⟩
  rwa [eq_of_beq htarget]

theorem summary_of_apart (h : (files.map Prod.fst).Nodup) (hapart : Apart files s) :
    (build files (s.withPackages true)).summary = (build files (s.withPackages false)).summary := by
  refine (summary_congr (internal_withPackages h) (fun _ => rfl) (fun _ => rfl) (fun n => ?_)
    fun n hn => ?_).symm
  · exact List.length_map _
  · have hfile : n.path ∈ (build files (s.withPackages true)).files := List.mem_map_of_mem hn
    rw [(wellFormed_build _ _).mem_files_iff, isFile_build h] at hfile
    exact importedBy_of_apart h hapart hfile

/-- From a file to one that is named like a package that it imports there are more statements if
packages are wanted. -/
theorem apart_of_edges (h : (files.map Prod.fst).Nodup)
    (hedges : (build files (s.withPackages false)).edges =
      (build files (s.withPackages true)).edges.filter
        fun e => (build files (s.withPackages true)).isFile e.target) : Apart files s := by
  intro f hf i hi hpackage hkept
  let found := pathImports (keptPaths files s) f i.specifier
  let named := packageImports f i.specifier
  have hnamed : 0 < named := List.countP_pos_iff.mpr ⟨i, hi, by simp [hpackage]⟩
  have htarget : (build files (s.withPackages true)).isFile i.specifier = true :=
    (isFile_build h).mpr hkept
  have hon : ⟨f.1, i.specifier, found + named⟩ ∈ (build files (s.withPackages true)).edges :=
    (mem_edges_with h hf).mpr ⟨by omega, rfl⟩
  have hoff : ⟨f.1, i.specifier, found + named⟩ ∈ (build files (s.withPackages false)).edges := by
    rw [hedges]
    exact List.mem_filter.mpr ⟨hon, htarget⟩
  have hfewer : found + named = found := ((mem_edges_without h hf).mp hoff).2
  omega

/-- Without packages the graph of files with different paths is the part of the graph with packages
that is about files, but for what the imports of packages stand for, exactly if no file has the name
of a package that is imported. Where one has, an import of the package counts as one of the file. -/
theorem only_packages_added_iff_apart (files : List (String × Facts)) (s : Settings)
    (h : (files.map Prod.fst).Nodup) :
    let off := build files (s.withPackages false)
    let on := build files (s.withPackages true)
    let known := keptPaths files s
    off.nodes = (on.nodes.filter fun n => !n.isExternal).map forgetPackages ∧
    (∀ f ∈ kept files s, ∀ target k, ⟨f.1, target, k⟩ ∈ off.edges ↔
      0 < k ∧ k = pathImports known f target) ∧
    (∀ f ∈ kept files s, ∀ target k, ⟨f.1, target, k⟩ ∈ on.edges ↔
      0 < k ∧ k = pathImports known f target + packageImports f target) ∧
    (off.edges = (on.edges.filter fun e => on.isFile e.target) ∧ on.cycles = off.cycles ∧
      on.summary = off.summary ↔ Apart files s) := by
  intro off on known
  refine ⟨nodes_without h, fun f hf target k => mem_edges_without h hf,
    fun f hf target k => mem_edges_with h hf, fun hsame => apart_of_edges h hsame.1,
    fun hapart => ?_⟩
  exact ⟨edges_of_apart h hapart, (searchedAlike_of_apart h hapart).cycles,
    summary_of_apart h hapart⟩

/-- A file that imports another one by the given specifier; that one imports it, and a package. -/
def page (specifier : String) : List (String × Facts) :=
  [("app.js", ⟨[staticImport "app.js" specifier none], []⟩),
    ("chart.js",
      ⟨[staticImport "chart.js" "./app" none, staticImport "chart.js" "react" none], []⟩)]

theorem only_packages_added_iff_apart_page :
    let s : Settings := ⟨10, [], true, 0⟩
    let files := page "./chart.js"
    (files.map Prod.fst).Nodup ∧ Apart files s ∧
      (build files (s.withPackages true)).summary =
        (build files (s.withPackages false)).summary := by
  intro s files
  have h : (files.map Prod.fst).Nodup := by decide
  have hapart : Apart files s := by decide +kernel
  exact ⟨h, hapart, ((only_packages_added_iff_apart files s h).2.2.2.mpr hapart).2.2⟩

/-- A package that has the name of a file makes a ring of the file if packages are wanted. -/
theorem not_forall_only_packages_added :
    ¬∀ (files : List (String × Facts)) (s : Settings), (files.map Prod.fst).Nodup →
      let off := build files (s.withPackages false)
      let on := build files (s.withPackages true)
      off.nodes = (on.nodes.filter fun n => !n.isExternal).map forgetPackages ∧
      off.edges = (on.edges.filter fun e => on.isFile e.target) ∧
      on.cycles = off.cycles ∧ on.summary = off.summary := by
  intro h
  let on : Graph :=
    ⟨[⟨"app.js", false, [staticImport "app.js" "chart.js" "chart.js"], []⟩,
      ⟨"chart.js", false, [staticImport "chart.js" "./app" "app.js",
        staticImport "chart.js" "react" "react"], []⟩, ⟨"react", true, [], []⟩],
      [⟨"app.js", "chart.js", 1⟩, ⟨"chart.js", "app.js", 1⟩, ⟨"chart.js", "react", 1⟩], 10⟩
  let off : Graph :=
    ⟨[⟨"app.js", false, [staticImport "app.js" "chart.js" none], []⟩,
      ⟨"chart.js", false, [staticImport "chart.js" "./app" "app.js",
        staticImport "chart.js" "react" none], []⟩], [⟨"chart.js", "app.js", 1⟩], 10⟩
  have hon : build (page "chart.js") (Settings.withPackages ⟨10, [], true, 0⟩ true) = on := by
    decide +kernel
  have hoff : build (page "chart.js") (Settings.withPackages ⟨10, [], true, 0⟩ false) = off := by
    decide +kernel
  have hcycles := (h (page "chart.js") ⟨10, [], true, 0⟩ (by decide)).2.2.1
  rw [hon, hoff] at hcycles
  have hring : on.cycles = [⟨["app.js", "chart.js", "app.js"]⟩] := by cbv
  have hnone : off.cycles = [] := by cbv
  rw [hring, hnone] at hcycles
  cases hcycles

end Graph

end CodeAtlas.Dependency
