import CodeAtlas.Program
import CodeAtlas.Size.Splits
import Mathlib.Data.List.Nodup
import Mathlib.Data.List.TakeWhile

/-! The files that a split creates. They are told apart, and from the file that is split, by what
stands before their last dot; where they are named after declarations, that is as good as the names
of these. -/

namespace CodeAtlas

namespace FilePath

section Names

variable {name front behind : List Char}

theorem splitName_append (hbehind : '.' ∉ behind) : splitName (front ++ '.' :: behind) =
    if front = [] then (front ++ '.' :: behind, none) else (front, some behind) := by
  have hreverse : (front ++ '.' :: behind).reverse = behind.reverse ++ '.' :: front.reverse := by
    rw [List.reverse_append, List.reverse_cons, List.append_assoc, List.singleton_append]
  have hletters : ∀ c ∈ behind.reverse, (c != '.') = true := fun c hc =>
    bne_iff_ne.mpr fun hdot => hbehind (hdot ▸ List.mem_reverse.mp hc)
  have hdrop : ('.' :: front.reverse).dropWhile (· != '.') = '.' :: front.reverse := rfl
  have htake : ('.' :: front.reverse).takeWhile (· != '.') = [] := rfl
  unfold splitName
  rw [hreverse, List.dropWhile_append_of_pos hletters, List.takeWhile_append_of_pos hletters,
    hdrop, htake, List.append_nil]
  cases hlast : front.reverse with
  | nil => rw [if_pos (List.reverse_eq_nil_iff.mp hlast)]
  | cons c cs =>
    have hne : front ≠ [] := by
      rintro rfl
      cases hlast
    dsimp only
    rw [← hlast, List.reverse_reverse, List.reverse_reverse, if_neg hne]

theorem splitName_of_not_mem (h : '.' ∉ name) : splitName name = (name, none) := by
  have hdrop : name.reverse.dropWhile (· != '.') = [] :=
    List.dropWhile_eq_nil_iff.mpr fun c hc =>
      bne_iff_ne.mpr fun hdot => h (hdot ▸ List.mem_reverse.mp hc)
  unfold splitName
  rw [hdrop]

theorem splitName_eq_some_iff : splitName name = (front, some behind) ↔
    name = front ++ '.' :: behind ∧ front ≠ [] ∧ '.' ∉ behind := by
  constructor
  · intro h
    by_cases hdot : '.' ∈ name
    · obtain ⟨after, before, hsplit, hafter⟩ :=
        List.eq_append_cons_of_mem (List.mem_reverse.mpr hdot)
      have hname : name = before.reverse ++ '.' :: after.reverse := by
        rw [← List.reverse_reverse name, hsplit, List.reverse_append, List.reverse_cons,
          List.append_assoc, List.singleton_append]
      have hafter : '.' ∉ after.reverse := fun hmem => hafter (List.mem_reverse.mp hmem)
      rw [hname, splitName_append hafter] at h
      split at h
      · cases h
      next hne =>
        cases h
        exact ⟨hname, hne, hafter⟩
    · rw [splitName_of_not_mem hdot] at h
      cases h
  · rintro ⟨rfl, hfront, hbehind⟩
    rw [splitName_append hbehind, if_neg hfront]

end Names

variable {file name stem extension : String}

theorem toList_dotted :
    (stem ++ "." ++ extension).toList = stem.toList ++ '.' :: extension.toList := by
  rw [String.toList_append, String.toList_append, List.append_assoc]
  rfl

theorem fileName?_eq_of_extension? (hstem : stem? file = some stem)
    (hextension : extension? file = some extension) :
    fileName? file = some (stem ++ "." ++ extension) := by
  obtain ⟨name, hname, hextension⟩ := Option.bind_eq_some_iff.mp hextension
  unfold stem? at hstem
  rw [hname, Option.map_some, Option.some_inj] at hstem
  obtain ⟨behind, hbehind, rfl⟩ := Option.map_eq_some_iff.mp hextension
  have hsplit : splitName name.toList = ((splitName name.toList).1, some behind) := by
    rw [← hbehind]
  rw [hname, ← hstem, Option.some_inj, ← String.toList_inj, toList_dotted, String.toList_ofList,
    String.toList_ofList]
  exact (splitName_eq_some_iff.mp hsplit).1

/-- A file name with a dot behind its first character is its stem, the last dot and its
extension. -/
theorem fileName?_eq_some_iff (hstem : stem ≠ "") (hextension : '.' ∉ extension.toList) :
    fileName? file = some (stem ++ "." ++ extension) ↔
      stem? file = some stem ∧ extension? file = some extension := by
  refine ⟨fun hname => ?_, fun h => fileName?_eq_of_extension? h.1 h.2⟩
  have hsplit : splitName (stem ++ "." ++ extension).toList =
      (stem.toList, some extension.toList) := by
    refine splitName_eq_some_iff.mpr ⟨toList_dotted, fun hnil => hstem ?_, hextension⟩
    exact String.toList_eq_nil_iff.mp hnil
  unfold stem? extension?
  rw [hname, Option.map_some, Option.bind_some, hsplit, Option.map_some, String.ofList_toList,
    String.ofList_toList]
  exact ⟨rfl, rfl⟩

theorem dot_not_mem_extension (h : extension? file = some extension) :
    '.' ∉ extension.toList := by
  obtain ⟨name, -, hextension⟩ := Option.bind_eq_some_iff.mp h
  obtain ⟨behind, hbehind, rfl⟩ := Option.map_eq_some_iff.mp hextension
  have hsplit : splitName name.toList = ((splitName name.toList).1, some behind) := by
    rw [← hbehind]
  rw [String.toList_ofList]
  exact (splitName_eq_some_iff.mp hsplit).2.2

end FilePath

namespace Size

/-- The names of files with the given stems. -/
def filesOf (extension : String) (stems : List String) : List String :=
  stems.map (· ++ "." ++ extension)

section Files

variable {file extension : String} {stems : List String}

theorem nodup_filesOf : (filesOf extension stems).Nodup ↔ stems.Nodup := by
  refine List.nodup_map_iff fun s t h => ?_
  exact (String.append_left_inj ".").mp ((String.append_left_inj extension).mp h)

theorem mem_filesOf {name : String} (hstems : ∀ s ∈ stems, s ≠ "")
    (hextension : '.' ∉ extension.toList) (hname : FilePath.fileName? file = some name) :
    name ∈ filesOf extension stems ↔
      ∃ s ∈ stems, FilePath.stem? file = some s ∧ FilePath.extension? file = some extension := by
  rw [filesOf, List.mem_map]
  refine exists_congr fun s => and_congr_right fun hs => ?_
  rw [← FilePath.fileName?_eq_some_iff (hstems s hs) hextension, hname, Option.some_inj, eq_comm]

end Files

namespace FileNaming

variable {file : String}

theorem dot_not_mem_extension (file : String) : '.' ∉ (of file).extension.toList := by
  unfold of
  cases hextension : FilePath.extension? file with
  | none =>
    change '.' ∉ "ts".toList
    decide
  | some extension => exact FilePath.dot_not_mem_extension hextension

theorem stem_of_stem? {stem : String} (h : FilePath.stem? file = some stem) :
    (of file).stem = stem := congrArg (Option.getD · "module") h

theorem stem?_of_fileName? {name : String} (h : FilePath.fileName? file = some name) :
    FilePath.stem? file = some (of file).stem := by
  have hsome : (FilePath.stem? file).isSome = true := by
    unfold FilePath.stem?
    rw [h]
    rfl
  obtain ⟨stem, hstem⟩ := Option.isSome_iff_exists.mp hsome
  rw [stem_of_stem? hstem, hstem]

theorem extension_of_extension? {extension : String}
    (h : FilePath.extension? file = some extension) : (of file).extension = extension :=
  congrArg (Option.getD · "ts") h

/-- A file has no other stem that begins with its own one. -/
theorem stem?_ne_append {more : String} (hmore : more ≠ "") :
    FilePath.stem? file ≠ some ((of file).stem ++ more) := by
  intro h
  have hstem : (of file).stem ++ "" = (of file).stem ++ more :=
    String.append_empty.trans (stem_of_stem? h)
  exact hmore ((String.append_right_inj _).mp hstem).symm

end FileNaming

section Splits

variable {f : FileNaming} {d : Declarations} {split : Split}

theorem mem_componentSplit (h : split ∈ componentSplit f d) : split.kind = .component ∧
    split.targets = filesOf f.extension (d.names.filter isComponentName) := by
  unfold componentSplit at h
  dsimp only at h
  split at h
  · rw [List.mem_singleton.mp h]
    exact ⟨rfl, rfl⟩
  · exact absurd h List.not_mem_nil

theorem mem_hookSplit (h : split ∈ hookSplit f d) : split.kind = .hook ∧
    split.targets = filesOf f.extension
      (d.names.filter fun name => isHookName name && name != f.stem) := by
  unfold hookSplit at h
  dsimp only at h
  split at h
  · exact absurd h List.not_mem_nil
  · rw [List.mem_singleton.mp h]
    exact ⟨rfl, rfl⟩

theorem mem_utilitySplit (h : split ∈ utilitySplit f d) : split.kind = .utility ∧
    split.targets = filesOf f.extension ([".core", ".helpers"].map (f.stem ++ ·)) := by
  unfold utilitySplit at h
  split at h
  · have hcore : ".core." = ".core" ++ "." := by decide
    have hhelpers : ".helpers." = ".helpers" ++ "." := by decide
    rw [List.mem_singleton.mp h, hcore, hhelpers]
    refine ⟨rfl, ?_⟩
    simp only [filesOf, List.map_cons, List.map_nil, String.append_assoc]
  · exact absurd h List.not_mem_nil

theorem mem_typeSplit (h : split ∈ typeSplit f d) : split.kind = .typeExtraction ∧
    split.targets = filesOf "ts" ([".types"].map (f.stem ++ ·)) := by
  unfold typeSplit at h
  split at h
  · have htypes : ".types.ts" = ".types" ++ "." ++ "ts" := by decide
    rw [List.mem_singleton.mp h, htypes]
    refine ⟨rfl, ?_⟩
    simp only [filesOf, List.map_cons, List.map_nil, String.append_assoc]
  · exact absurd h List.not_mem_nil

theorem targets_genericSplit (f : FileNaming) (lines threshold : Nat) :
    (genericSplit f lines threshold).targets = filesOf f.extension
      (((List.range (partCount lines threshold)).map fun i => ".part" ++ toString (i + 1)).map
        (f.stem ++ ·)) := by
  rw [genericSplit, filesOf, List.map_map, List.map_map]
  refine List.map_congr_left fun i _ => ?_
  simp only [Function.comp_apply, String.append_assoc]

/-- Whether the names of files are told apart, and none of them is the name of the given file. -/
def Usable (file : String) (targets : List String) : Prop :=
  targets.Nodup ∧ ∀ name, FilePath.fileName? file = some name → name ∉ targets

theorem usable_of_suffixes {file extension : String} {suffixes : List String}
    (hnodup : suffixes.Nodup) (hne : ∀ s ∈ suffixes, s ≠ "") (hextension : '.' ∉ extension.toList) :
    Usable file (filesOf extension (suffixes.map ((FileNaming.of file).stem ++ ·))) := by
  constructor
  · rw [nodup_filesOf]
    exact hnodup.map fun s t h => (String.append_right_inj _).mp h
  · intro name hname hmem
    have hstems : ∀ s ∈ suffixes.map ((FileNaming.of file).stem ++ ·), s ≠ "" := by
      intro s hs hnil
      obtain ⟨more, hmore, rfl⟩ := List.mem_map.mp hs
      exact hne more hmore (String.append_eq_empty_iff.mp hnil).2
    obtain ⟨s, hs, hstem, -⟩ := (mem_filesOf hstems hextension hname).mp hmem
    obtain ⟨more, hmore, rfl⟩ := List.mem_map.mp hs
    exact FileNaming.stem?_ne_append (hne more hmore) hstem

theorem toString_injective : Function.Injective fun n : Nat => toString n := by
  intro m n h
  have hdigits : Nat.toDigits 10 m = Nat.toDigits 10 n := by
    rw [← String.ofList_inj, ← Nat.repr_eq_ofList_toDigits, ← Nat.repr_eq_ofList_toDigits]
    exact h
  rw [← @Nat.ofDigitChars_ten_toDigits m, hdigits, Nat.ofDigitChars_ten_toDigits]

theorem usable_genericSplit (file : String) (lines threshold : Nat) :
    Usable file (genericSplit (.of file) lines threshold).targets := by
  rw [targets_genericSplit]
  refine usable_of_suffixes ?_ ?_ (FileNaming.dot_not_mem_extension file)
  · refine List.nodup_range.map fun i j h => ?_
    exact Nat.succ_inj.mp (toString_injective ((String.append_right_inj ".part").mp h))
  · intro s hs
    obtain ⟨i, -, rfl⟩ := List.mem_map.mp hs
    intro hnil
    exact absurd (String.append_eq_empty_iff.mp hnil).1 (by decide)

end Splits

section Suggestions

variable {tree : Option Node} {file : String} {lines threshold : Nat} {split : Split}

theorem mem_suggestSplits (h : split ∈ suggestSplits tree file lines threshold) :
    let d := (tree.map Declarations.ofTree).getD .empty
    (split ∈ componentSplit (.of file) d ∨ split ∈ hookSplit (.of file) d ∨
      split ∈ utilitySplit (.of file) d ∨ split ∈ typeSplit (.of file) d) ∨
      split = genericSplit (.of file) lines threshold := by
  intro d
  unfold suggestSplits at h
  dsimp only at h
  split at h
  · exact .inr (List.mem_singleton.mp h)
  · left
    simpa [or_assoc] using h

theorem ne_empty_of_isComponentName {name : String} (h : isComponentName name = true) :
    name ≠ "" := by
  rintro rfl
  exact absurd h (by decide)

theorem ne_empty_of_isHookName {name : String} (h : isHookName name = true) : name ≠ "" := by
  rintro rfl
  exact absurd h (by decide)

section Kept

variable {d : Declarations}

theorem nodup_targets_componentSplit (h : split ∈ componentSplit (.of file) d) :
    split.targets.Nodup ↔ (d.names.filter isComponentName).Nodup := by
  rw [(mem_componentSplit h).2, nodup_filesOf]

theorem nodup_targets_hookSplit (h : split ∈ hookSplit (.of file) d) : split.targets.Nodup ↔
    (d.names.filter fun name => isHookName name && name != (FileNaming.of file).stem).Nodup := by
  rw [(mem_hookSplit h).2, nodup_filesOf]

variable {name : String} (hname : FilePath.fileName? file = some name)

include hname

theorem mem_targets_componentSplit (h : split ∈ componentSplit (.of file) d) :
    name ∈ split.targets ↔ (FilePath.extension? file).isSome = true ∧
      (FileNaming.of file).stem ∈ d.names ∧ isComponentName (FileNaming.of file).stem = true := by
  have hnames : ∀ s ∈ d.names.filter isComponentName, s ≠ "" := fun s hs =>
    ne_empty_of_isComponentName (List.mem_filter.mp hs).2
  rw [(mem_componentSplit h).2,
    mem_filesOf hnames (FileNaming.dot_not_mem_extension file) hname]
  constructor
  · rintro ⟨s, hs, hstem, hextension⟩
    rw [FileNaming.stem_of_stem? hstem, hextension]
    exact ⟨rfl, List.mem_filter.mp hs⟩
  · rintro ⟨hextension, hstem⟩
    obtain ⟨extension, hextension⟩ := Option.isSome_iff_exists.mp hextension
    refine ⟨_, List.mem_filter.mpr hstem, FileNaming.stem?_of_fileName? hname, ?_⟩
    rw [FileNaming.extension_of_extension? hextension, hextension]

theorem not_mem_targets_hookSplit (h : split ∈ hookSplit (.of file) d) : name ∉ split.targets := by
  have hhook : ∀ s ∈ d.names.filter fun name =>
      isHookName name && name != (FileNaming.of file).stem,
      isHookName s = true ∧ s ≠ (FileNaming.of file).stem := fun s hs =>
    (Bool.and_eq_true_iff.mp (List.mem_filter.mp hs).2).imp id bne_iff_ne.mp
  rw [(mem_hookSplit h).2, mem_filesOf (fun s hs => ne_empty_of_isHookName (hhook s hs).1)
    (FileNaming.dot_not_mem_extension file) hname]
  rintro ⟨s, hs, hstem, -⟩
  exact (hhook s hs).2 (FileNaming.stem_of_stem? hstem).symm

end Kept

theorem usable_utilitySplit {d : Declarations} (h : split ∈ utilitySplit (.of file) d) :
    Usable file split.targets := by
  rw [(mem_utilitySplit h).2]
  exact usable_of_suffixes (by decide) (by decide) (FileNaming.dot_not_mem_extension file)

theorem usable_typeSplit {d : Declarations} (h : split ∈ typeSplit (.of file) d) :
    Usable file split.targets := by
  rw [(mem_typeSplit h).2]
  exact usable_of_suffixes (by decide) (by decide) (by decide)

/-- A split that is not for the components or the hooks of a file creates files that it can name. -/
theorem usable_of_mem_suggestSplits (h : split ∈ suggestSplits tree file lines threshold) :
    let d := (tree.map Declarations.ofTree).getD .empty
    split ∈ componentSplit (.of file) d ∨ split ∈ hookSplit (.of file) d ∨
      split.kind ≠ .component ∧ split.kind ≠ .hook ∧ Usable file split.targets := by
  obtain (h | h | h | h) | rfl := mem_suggestSplits h
  · exact .inl h
  · exact .inr (.inl h)
  · have hkind : split.kind = .utility := (mem_utilitySplit h).1
    exact .inr (.inr ⟨by rw [hkind]; decide, by rw [hkind]; decide, usable_utilitySplit h⟩)
  · have hkind : split.kind = .typeExtraction := (mem_typeSplit h).1
    exact .inr (.inr ⟨by rw [hkind]; decide, by rw [hkind]; decide, usable_typeSplit h⟩)
  · have hkind : (genericSplit (.of file) lines threshold).kind = .generic := rfl
    refine .inr (.inr ⟨by rw [hkind]; decide, by rw [hkind]; decide, ?_⟩)
    exact usable_genericSplit file lines threshold

/-- The files of a split have different names if and only if the components or hooks that they are
for have. A split names the file that is split if and only if it moves the component away that the
file is named after. -/
theorem targets_of_suggestSplits (tree : Option Node) (file : String) (lines threshold : Nat) :
    let d := (tree.map Declarations.ofTree).getD .empty
    let stem := (FileNaming.of file).stem
    ∀ split ∈ suggestSplits tree file lines threshold,
      (split.targets.Nodup ↔
        (split.kind = .component → (d.names.filter isComponentName).Nodup) ∧
        (split.kind = .hook →
          (d.names.filter fun name => isHookName name && name != stem).Nodup)) ∧
      ∀ name, FilePath.fileName? file = some name →
        (name ∈ split.targets ↔ split.kind = .component ∧ (FilePath.extension? file).isSome = true ∧
          stem ∈ d.names ∧ isComponentName stem = true) := by
  intro d stem split hsplit
  obtain h | h | ⟨hcomponent, hhook, hnodup, hnames⟩ := usable_of_mem_suggestSplits hsplit
  · have hkind : split.kind = .component := (mem_componentSplit h).1
    rw [hkind, nodup_targets_componentSplit h]
    refine ⟨by simp [d], fun name hname => ?_⟩
    rw [mem_targets_componentSplit hname h, and_iff_right rfl]
  · have hkind : split.kind = .hook := (mem_hookSplit h).1
    rw [hkind, nodup_targets_hookSplit h]
    refine ⟨by simp [d, stem], fun name hname => ?_⟩
    exact iff_of_false (not_mem_targets_hookSplit hname h) fun h => by cases h.1
  · refine ⟨iff_of_true hnodup ⟨fun h => absurd h hcomponent, fun h => absurd h hhook⟩, ?_⟩
    exact fun name hname => iff_of_false (hnames name hname) fun h => hcomponent h.1

example :
    let root := (Program.read .javaScript "function useAb(){}function useCd(){}").root
    (suggestSplits (some root) "src/useAb.js" 500 400).map Split.targets = [["useCd.js"]] := by
  decide +kernel

theorem targets_of_suggestSplits_redeclared :
    let read := Program.read .javaScript "function Ab(){}function Ab(){}"
    ∃ split ∈ suggestSplits (some read.root) "src/Ab.js" 500 400,
      ¬ split.targets.Nodup ∧ "Ab.js" ∈ split.targets := by
  intro read
  have hnames : Declarations.ofTree read.root = ⟨["Ab", "Ab"], 0, 0⟩ := by decide +kernel
  clear_value read
  obtain ⟨split, hsplit, hkind⟩ : ∃ split ∈ suggestSplits (some read.root) "src/Ab.js" 500 400,
      split.kind = .component := by
    rw [suggestSplits, Option.map_some, hnames]
    decide
  obtain ⟨hnodup, hown⟩ :=
    targets_of_suggestSplits (some read.root) "src/Ab.js" 500 400 split hsplit
  rw [Option.map_some, hnames] at hnodup hown
  refine ⟨split, hsplit, fun h => ?_, (hown "Ab.js" (by decide)).mpr ⟨hkind, by decide⟩⟩
  exact absurd ((hnodup.mp h).1 hkind) (by decide)

theorem not_forall_usable_targets :
    ¬ ∀ (d : Dialect) (text file : String) (lines threshold : Nat),
      ∀ split ∈ suggestSplits (some (Program.read d text).root) file lines threshold,
        Usable file split.targets := by
  intro hall
  have hread : Declarations.ofTree (Program.read .javaScript "class Ab{}class Cd{}").root =
      ⟨["Ab", "Cd"], 0, 0⟩ := by decide +kernel
  have hsplits := hall .javaScript "class Ab{}class Cd{}" "src/Ab.js" 500 400
  rw [suggestSplits, Option.map_some, hread] at hsplits
  exact (hsplits _ List.mem_cons_self).2 "Ab.js" (by decide) (by decide)

end Suggestions

end Size

end CodeAtlas
