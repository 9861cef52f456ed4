import CodeAtlas.Source.Memory
import CodeAtlas.Proofs.Dependency.Agreement
import CodeAtlas.Proofs.Source.Trees

/-! A tree of directories and the same files held in memory answer a scan alike, but for the
directories that only the tree leaves out. -/

namespace CodeAtlas.Source

open FilePath

namespace Memory

/-- Whether files are held in the order of their paths, each path once. -/
def Sorted (files : List StoredFile) : Prop :=
  files.Pairwise fun f g => orderKey f.components < orderKey g.components

variable {path text : String} {files : List StoredFile}

theorem mem_insertInto {f : StoredFile} (hf : f ∈ insertInto path text files) :
    f.components = components path ∨ f ∈ files := by
  induction files with
  | nil =>
    rw [insertInto, List.mem_singleton] at hf
    exact .inl (congrArg StoredFile.components hf)
  | cons g files ih =>
    rw [insertInto] at hf
    split at hf
    next hsame =>
      rcases List.mem_cons.mp hf with rfl | hf
      · exact .inl hsame.symm
      · exact .inr (List.mem_cons_of_mem g hf)
    split at hf
    · rcases List.mem_cons.mp hf with rfl | hf
      · exact .inl rfl
      · exact .inr hf
    · rcases List.mem_cons.mp hf with rfl | hf
      · exact .inr List.mem_cons_self
      · exact (ih hf).imp_right (List.mem_cons_of_mem g)

theorem sorted_insertInto (h : Sorted files) : Sorted (insertInto path text files) := by
  unfold Sorted at h ⊢
  induction files with
  | nil => exact List.pairwise_singleton _ _
  | cons g files ih =>
    obtain ⟨hfirst, hrest⟩ := List.pairwise_cons.mp h
    rw [insertInto]
    split
    · exact List.pairwise_cons.mpr ⟨hfirst, hrest⟩
    next hne =>
      split
      next hbefore =>
        rw [before_iff] at hbefore
        apply List.pairwise_cons.mpr ⟨?_, h⟩
        intro f hf
        rcases List.mem_cons.mp hf with rfl | hf
        · exact hbefore
        · exact hbefore.trans (hfirst f hf)
      next hnot =>
        rw [Bool.not_eq_true, before_eq_false_iff] at hnot
        -- Equal keys are equal components, so the file would have been replaced.
        have hlt : orderKey g.components < orderKey (components path) :=
          lt_of_le_of_ne hnot fun heq => hne (orderKey_injective heq).symm
        apply List.pairwise_cons.mpr ⟨?_, ih hrest⟩
        intro f hf
        rcases mem_insertInto hf with heq | hf
        · rwa [heq]
        · exact hfirst f hf

theorem insertInto_perm (text : String) (h : ∀ f ∈ files, f.components ≠ components path) :
    (insertInto path text files).Perm (⟨path, text⟩ :: files) := by
  induction files with
  | nil => exact List.Perm.refl _
  | cons g files ih =>
    rw [List.forall_mem_cons] at h
    rw [insertInto, if_neg (Ne.symm h.1)]
    split
    · exact List.Perm.refl _
    · exact ((ih h.2).cons g).trans (List.Perm.swap _ _ _)

/-- A file elsewhere leaves what is held here. -/
theorem filter_insertInto {p : List Component → Bool} (h : p (components path) = false) :
    (insertInto path text files).filter (fun f => p f.components) =
      files.filter fun f => p f.components := by
  induction files with
  | nil => simp [insertInto, StoredFile.components, h]
  | cons g files ih =>
    rw [insertInto]
    split
    next hsame =>
      have hg : p g.components = false := hsame ▸ h
      have hnew : p (StoredFile.components { g with text := text }) = false := hg
      rw [List.filter_cons, List.filter_cons, hnew, hg]
      rfl
    split
    · rw [List.filter_cons_of_neg]
      simp [StoredFile.components, h]
    · rw [List.filter_cons, List.filter_cons, ih]

theorem ofFiles_concat (given : List (String × String)) (f : String × String) :
    (ofFiles (given ++ [f])).files = insertInto f.1 f.2 (ofFiles given).files := by
  unfold ofFiles
  rw [List.foldl_append]
  rfl

theorem sorted_ofFiles (given : List (String × String)) : Sorted (ofFiles given).files := by
  induction given using List.reverseRecOn with
  | nil => exact List.Pairwise.nil
  | append_singleton given f ih =>
    rw [ofFiles_concat]
    exact sorted_insertInto ih

/-- Files that are given under paths of their own are held as they are given. -/
theorem filter_ofFiles_perm (p : List Component → Bool) {given : List (String × String)}
    (h : ((given.filter fun f => p (components f.1)).map fun f => components f.1).Nodup) :
    ((ofFiles given).files.filter fun f => p f.components).Perm
      ((given.filter fun f => p (components f.1)).map fun f => ⟨f.1, f.2⟩) := by
  induction given using List.reverseRecOn with
  | nil => exact List.Perm.nil
  | append_singleton given f ih =>
    rw [ofFiles_concat]
    rw [List.filter_append] at h ⊢
    have hgiven := ih (h.sublist ((List.sublist_append_left _ _).map _))
    cases hp : p (components f.1) with
    | false =>
      rw [filter_insertInto hp, List.filter_singleton, hp]
      simpa using hgiven
    | true =>
      rw [List.filter_singleton, hp, cond_true] at h ⊢
      have hfresh : ∀ g ∈ (ofFiles given).files, g.components ≠ components f.1 := by
        intro g hg hsame
        have hkept : g ∈ (ofFiles given).files.filter fun f => p f.components := by
          apply List.mem_filter.mpr ⟨hg, _⟩
          rw [hsame, hp]
        obtain ⟨e, he, rfl⟩ := List.mem_map.mp (hgiven.mem_iff.mp hkept)
        rw [List.map_append, List.nodup_append'] at h
        exact h.2.2 (List.mem_map_of_mem he) (List.mem_singleton.mpr hsame)
      have hinserted := (insertInto_perm f.2 hfresh).filter fun f => p f.components
      rw [List.filter_cons_of_pos (by exact hp)] at hinserted
      rw [List.map_append, List.map_singleton]
      exact hinserted.trans ((hgiven.cons _).trans (List.perm_append_singleton _ _).symm)

end Memory

section Agreement

variable {root : String} {o : ScanOptions}

/-- Whether a scan of files held in memory lists a path. -/
def selects (root : String) (o : ScanOptions) (path : String) : Bool :=
  ((below? (components root) (components path)).any fun rest => rest.length ≤ o.maxDepth) &&
    o.selection.keeps (relativeText (components root) (components path))

def isBelow (root path : String) : Bool := (below? (components root) (components path)).isSome

/-- Whether a path leads from a directory through one that is not looked into. -/
def belowIgnored (root path : String) : Bool :=
  ((below? (components root) (components path)).getD []).dropLast.any fun c =>
    Entry.isIgnored c.text (.directory [])

theorem Memory.scan_eq (m : Memory) :
    m.scan root o = (m.files.map StoredFile.path).filter (selects root o) := by
  rw [List.filter_map]
  rfl

/-- Whether files are, below a directory, those of a tree, under paths joined to the directory's. -/
def Holds (root : String) (entries : List (String × Entry))
    (files : List (String × String)) : Prop :=
  ((files.filter fun f => isBelow root f.1).map fun f => (f.1, some f.2)).Perm
    ((Entry.directory entries).contents.map fun f => (f.1.foldl join root, f.2))

instance (root : String) (entries : List (String × Entry)) (files : List (String × String)) :
    Decidable (Holds root entries files) :=
  inferInstanceAs (Decidable (List.Perm _ _))

variable {entries : List (String × Entry)}

section Tree

variable {f : List String × Option String}
variable (hroot : root ≠ "") (hnamed : (Entry.directory entries).isNamed = true)

include hroot hnamed

theorem below?_foldl_join (hf : f ∈ (Entry.directory entries).contents) :
    below? (components root) (components (f.1.foldl join root)) = some (f.1.map .name) := by
  rw [components_foldl_join hroot (Entry.isName_of_mem_contents _ hnamed f hf), below?_append]

theorem belowIgnored_foldl_join (hf : f ∈ (Entry.directory entries).contents) :
    belowIgnored root (f.1.foldl join root) = Entry.entersIgnored f.1 := by
  unfold belowIgnored Entry.entersIgnored
  rw [below?_foldl_join hroot hnamed hf, Option.getD_some, ← List.map_dropLast, List.any_map]
  rfl

theorem reaches_and_keeps (hf : f ∈ (Entry.directory entries).contents) :
    (Entry.reaches o.maxDepth f.1 && o.selection.keeps (relativeText (components root)
        (components (f.1.foldl join root)))) =
      (selects root o (f.1.foldl join root) && !belowIgnored root (f.1.foldl join root)) := by
  unfold selects Entry.reaches
  rw [belowIgnored_foldl_join hroot hnamed hf, below?_foldl_join hroot hnamed hf, Option.any_some,
    List.length_map, Bool.and_right_comm]

theorem nodup_orderKey : ((Entry.directory entries).contents.map fun f =>
    orderKey (components (f.1.foldl join root))).Nodup := by
  have hkey : (Entry.directory entries).contents.map
        (fun f => orderKey (components (f.1.foldl join root))) =
      ((Entry.directory entries).contents.map Prod.fst).map
        fun names => orderKey (components root ++ names.map .name) := by
    rw [List.map_map]
    apply List.map_congr_left
    intro f hf
    rw [components_foldl_join hroot (Entry.isName_of_mem_contents _ hnamed f hf)]
    rfl
  have hname : Function.Injective Component.name := fun a b h => Component.name.inj h
  rw [hkey]
  apply (Entry.nodup_contents _ hnamed).map
  intro names others h
  exact hname.list_map (List.append_cancel_left (orderKey_injective h))

theorem Memory.filter_paths_perm {files : List (String × String)}
    (hfiles : Holds root entries files) :
    (((ofFiles files).files.map StoredFile.path).filter (isBelow root)).Perm
      ((Entry.directory entries).contents.map fun f => f.1.foldl join root) := by
  have hpaths := hfiles.map Prod.fst
  rw [List.map_map, List.map_map] at hpaths
  have hnodup : ((files.filter fun f => isBelow root f.1).map fun f => components f.1).Nodup := by
    have hkeys := (hpaths.map fun path => orderKey (components path)).nodup_iff.mpr
    rw [List.map_map, List.map_map] at hkeys
    apply List.Nodup.of_map orderKey
    rw [List.map_map]
    exact hkeys (nodup_orderKey hroot hnamed)
  have hheld := filter_ofFiles_perm (fun path => (below? (components root) path).isSome) hnodup
  have hheldPaths := hheld.map StoredFile.path
  rw [List.map_map] at hheldPaths
  rw [List.filter_map]
  exact hheldPaths.trans hpaths

end Tree

theorem ne_empty_of_find {d : Disk} {e : Entry} (h : d.find root = .ok e) : root ≠ "" := by
  rintro rfl
  cases h

/-- Whether one path is listed before another one, or is the same. -/
def isListedBefore (a b : String) : Bool := !before (components b) (components a)

theorem isListedBefore_iff (a b : String) :
    isListedBefore a b = true ↔ orderKey (components a) ≤ orderKey (components b) := by
  unfold isListedBefore
  rw [Bool.not_eq_true', before_eq_false_iff]

theorem Disk.scan_eq {d : Disk} (hroot : d.find root = .ok (.directory entries))
    (hnamed : (Entry.directory entries).isNamed = true) :
    d.scan root o = (((Entry.directory entries).contents.map fun f => f.1.foldl join root).filter
      fun path => selects root o path && !belowIgnored root path).mergeSort isListedBefore := by
  have hne : root ≠ "" := ne_empty_of_find hroot
  unfold Disk.scan
  rw [hroot]
  dsimp only
  rw [Entry.walk_eq, List.filter_map, List.filter_filter, List.filter_map]
  congr 2
  apply List.filter_congr
  intro f hf
  rw [Bool.and_comm]
  exact reaches_and_keeps hne hnamed hf

theorem Memory.sorted_scan (given : List (String × String)) :
    ((ofFiles given).scan root o).Pairwise fun a b => isListedBefore a b = true := by
  rw [Memory.scan_eq]
  apply List.Pairwise.filter
  apply List.pairwise_map.mpr
  apply (sorted_ofFiles given).imp
  intro f g hlt
  exact (isListedBefore_iff f.path g.path).mpr hlt.le

/-- A scan of a tree leaves out what is below an ignored directory, and otherwise lists what a scan
of the same files in memory lists. -/
theorem scan_eq_filter_scan {d : Disk} (o : ScanOptions) {files : List (String × String)}
    (hroot : d.find root = .ok (.directory entries))
    (hnamed : (Entry.directory entries).isNamed = true) (hfiles : Holds root entries files) :
    d.scan root o =
        ((Memory.ofFiles files).scan root o).filter (fun path => !belowIgnored root path) ∧
      (d.scan root o = (Memory.ofFiles files).scan root o ↔
        ∀ path ∈ (Memory.ofFiles files).scan root o, belowIgnored root path = false) := by
  have hne : root ≠ "" := ne_empty_of_find hroot
  have heq : d.scan root o =
      ((Memory.ofFiles files).scan root o).filter fun path => !belowIgnored root path := by
    have hselected := (Memory.filter_paths_perm hne hnamed hfiles).filter fun path =>
      selects root o path && !belowIgnored root path
    -- What is listed is below the directory, so the tree holds all of it.
    have hbelow (path) : (selects root o path && !belowIgnored root path &&
        isBelow root path) = (!belowIgnored root path && selects root o path) := by
      unfold selects isBelow
      cases below? (components root) (components path) <;> simp [Bool.and_comm]
    rw [List.filter_filter, List.filter_congr fun path _ => hbelow path, ← List.filter_filter,
      ← Memory.scan_eq] at hselected
    have hkeys : (((((Entry.directory entries).contents.map fun f => f.1.foldl join root).filter
        fun path => selects root o path && !belowIgnored root path)).map fun path =>
          orderKey (components path)).Nodup := by
      apply List.Nodup.sublist (List.filter_sublist.map _)
      rw [List.map_map]
      exact nodup_orderKey hne hnamed
    rw [Disk.scan_eq hroot hnamed,
      Dependency.mergeSort_eq_of_perm _ isListedBefore_iff hkeys hselected.symm]
    exact List.mergeSort_of_pairwise ((Memory.sorted_scan files).filter _)
  refine ⟨heq, ?_⟩
  rw [heq, List.filter_eq_self]
  simp only [Bool.not_eq_true']

end Agreement

section Witnesses

/-- A directory in which one file is below a directory that is not looked into. -/
def sampleEntries : List (String × Entry) :=
  [("src", .directory [("a.ts", .file (some "")), (".git", .file (some ""))]),
    ("node_modules", .directory [("b.ts", .file (some ""))])]

def sampleDisk : Disk := ⟨.directory [("p", .directory sampleEntries)], ["p"]⟩

def sampleFiles : List (String × String) :=
  [("x.ts", ""), ("./node_modules/b.ts", ""), ("./src/.git", ""), ("./src/a.ts", "")]

example : (Memory.ofFiles sampleFiles).scan "." ⟨[], [], 32⟩ =
    ["./node_modules/b.ts", "./src/.git", "./src/a.ts"] := by decide +kernel

theorem scan_eq_filter_scan_sample :
    sampleDisk.scan "." ⟨[], ["**/*.js"], 2⟩ = ["./src/.git", "./src/a.ts"] := by
  have hroot : sampleDisk.find "." = .ok (.directory sampleEntries) := by rfl
  have hnamed : (Entry.directory sampleEntries).isNamed = true := by decide +kernel
  have hfiles : Holds "." sampleEntries sampleFiles := by decide +kernel
  rw [(scan_eq_filter_scan ⟨[], ["**/*.js"], 2⟩ hroot hnamed hfiles).1]
  decide +kernel

theorem not_forall_scan_eq_scan :
    ¬ ∀ (d : Disk) (root : String) (o : ScanOptions) (entries : List (String × Entry))
      (files : List (String × String)), d.find root = .ok (.directory entries) →
        (Entry.directory entries).isNamed = true → Holds root entries files →
          d.scan root o = (Memory.ofFiles files).scan root o := by
  intro h
  have hroot : sampleDisk.find "." = .ok (.directory sampleEntries) := by rfl
  have hnamed : (Entry.directory sampleEntries).isNamed = true := by decide +kernel
  have hlisted : "./node_modules/b.ts" ∈ (Memory.ofFiles sampleFiles).scan "." ⟨[], [], 32⟩ := by
    decide +kernel
  rw [← h sampleDisk "." ⟨[], [], 32⟩ sampleEntries sampleFiles hroot hnamed (by decide +kernel),
    Disk.scan_eq hroot hnamed, List.mem_mergeSort] at hlisted
  revert hlisted
  decide +kernel

end Witnesses

end CodeAtlas.Source
