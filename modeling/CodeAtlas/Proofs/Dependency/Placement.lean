import CodeAtlas.Dependency.Resolve
import CodeAtlas.Proofs.Source.NormalPaths
import Mathlib.Data.List.TakeWhile

/-! What a specifier stands for, by where the project lies. The same files below another directory
are found by the same specifiers, as long as a specifier does not lead to the project itself: with
paths that start in the project its directory has no name to put an extension or a file behind. -/

namespace CodeAtlas.Dependency

open FilePath NormalPath

/-- A path below a directory. -/
def place (directory path : String) : String := directory ++ "/" ++ path

/-- Whether a specifier is a path that starts where the importing file is. -/
def IsRelative (specifier : String) : Prop :=
  Text.hasPrefix "./" specifier = true ∨ Text.hasPrefix "../" specifier = true ∨
    specifier = "." ∨ specifier = ".."

/-- Whether a text is the key of a file below the directory that paths start in. -/
structure IsLocal (path : String) : Prop where
  key : FilePath.key path = path
  unrooted : isRooted path = false
  inside : (normal path).ups = 0
  ne_empty : path ≠ ""

/-- Whether a text is the key of a directory by a rooted path, and not of the root. -/
structure IsBase (directory : String) : Prop where
  key : FilePath.key directory = directory
  rooted : isRooted directory = true
  ne_root : directory ≠ "/"

variable {directory path importer specifier k : String} {names files : List String}

theorem IsRelative.isPathSpecifier (h : IsRelative specifier) :
    isPathSpecifier specifier = true := by
  unfold Dependency.isPathSpecifier
  rcases h with h | h | h | h <;> simp [h]

theorem IsRelative.unrooted (h : IsRelative specifier) : isRooted specifier = false := by
  have hdot : ∀ start : List Char, ('.' :: start).isPrefixOf specifier.toList = true →
      isRooted specifier = false := by
    intro start hprefix
    obtain ⟨rest, hrest⟩ := List.isPrefixOf_iff_prefix.mp hprefix
    rw [isRooted, ← hrest]
    rfl
  rcases h with h | h | rfl | rfl
  · exact hdot ['/'] h
  · exact hdot ['.', '/'] h
  · rfl
  · rfl

theorem place_injective (directory : String) : Function.Injective (place directory) :=
  fun _ _ h => (String.append_right_inj _).mp h

section Places

theorem components_text_down {p : NormalPath} (hp : p.Spelled)
    (hnames : ∀ name ∈ names, isName name = true) :
    FilePath.components (p.down names).text = p.components ++ names.map .name := by
  have hdown : (p.down names).Spelled := List.forall_mem_append.mpr ⟨hp, hnames⟩
  rw [hdown.components_text, NormalPath.components, NormalPath.components, down, List.map_append,
    ← List.append_assoc]

/-- A local file is known by names, with none of them missing. -/
theorem IsLocal.exists_names (h : IsLocal path) : ∃ names, names ≠ [] ∧
    (∀ name ∈ names, isName name = true) ∧ path = (NormalPath.empty.down names).text := by
  have htext := text_normal h.key
  have hnormal : normal path = NormalPath.empty.down (normal path).names := by
    rw [down, NormalPath.empty, List.nil_append, ← h.unrooted, ← rooted_normal h.key, ← h.inside]
  refine ⟨(normal path).names, fun hnames => h.ne_empty ?_, spelled_normal path, ?_⟩
  · rw [← htext, hnormal, hnames]
    rfl
  · rw [← hnormal, htext]

theorem IsBase.rooted_normal (h : IsBase directory) : (normal directory).rooted = true :=
  (FilePath.rooted_normal h.key).trans h.rooted

theorem IsBase.steps_ne_nil (h : IsBase directory) : (normal directory).steps ≠ [] := by
  intro hsteps
  have htext := text_normal h.key
  rw [text_eq (spelled_normal directory), hsteps, if_pos h.rooted_normal] at htext
  exact h.ne_root htext.symm

theorem IsBase.place_text (h : IsBase directory) (hnames : ∀ name ∈ names, isName name = true)
    (hne : names ≠ []) : place directory (NormalPath.empty.down names).text =
      ((normal directory).down names).text := by
  rw [text_down (spelled_normal directory) hnames h.rooted_normal h.steps_ne_nil hne,
    text_normal h.key, place]

theorem IsBase.place_key (h : IsBase directory) (hnames : ∀ name ∈ names, isName name = true)
    (hne : names ≠ []) : place directory (NormalPath.empty.down names).key =
      ((normal directory).down names).key := by
  have hkey : (normal directory).key = directory := h.key
  conv => rhs; rw [NormalPath.key, text_down (spelled_normal directory) hnames h.rooted_normal
    h.steps_ne_nil hne]
  rw [String.toList_append, String.toList_append, List.map_append, List.map_append,
    String.ofList_append, String.ofList_append, ← NormalPath.key, ← NormalPath.key, hkey]
  rfl

theorem parent?_of_components {front : List Component} {name : String}
    (h : FilePath.components path = front ++ [.name name]) : parent? path = some front := by
  rw [parent?, h, List.reverse_append, List.reverse_singleton, List.singleton_append]
  exact congrArg some (List.reverse_reverse front)

/-- Below a directory a specifier leads down from it by the names that it leads down by without. -/
theorem target_place (hbase : IsBase directory) (himporter : IsLocal importer)
    (hspecifier : isRooted specifier = false) (hups : (target importer specifier).ups = 0) :
    target importer specifier = NormalPath.empty.down (target importer specifier).names ∧
    (target importer specifier).Spelled ∧
    target (place directory importer) specifier =
      (normal directory).down (target importer specifier).names := by
  obtain ⟨names, hne, hnames, rfl⟩ := himporter.exists_names
  have hplace := hbase.place_text hnames hne
  obtain ⟨front, last, rfl⟩ := (List.eq_nil_or_concat' names).resolve_left hne
  have hlocal := components_text_down (p := .empty) (fun _ h => absurd h List.not_mem_nil) hnames
  have hplaced := components_text_down (spelled_normal directory) hnames
  rw [List.map_append, List.map_singleton, ← List.append_assoc] at hlocal hplaced
  let way := front.map Component.name ++ FilePath.components specifier
  have htarget : target (NormalPath.empty.down (front ++ [last])).text specifier =
      ofComponents way := by
    rw [target, parent?_of_components hlocal]
    rfl
  have hroot : .root ∉ way := by
    rw [List.mem_append, not_or]
    exact ⟨by simp, root_not_mem_components hspecifier⟩
  rw [htarget] at hups ⊢
  refine ⟨foldl_push_eq_down .empty hroot hups, spelled_ofComponents fun name hname => ?_, ?_⟩
  · rcases List.mem_append.mp hname with hname | hname
    · obtain ⟨name', hname', heq⟩ := List.mem_map.mp hname
      exact Component.name.inj heq ▸ hnames name' (List.mem_append_left _ hname')
    · exact isName_of_mem_components hname
  · rw [hplace, target, parent?_of_components hplaced, Option.getD_some, List.append_assoc,
      ofComponents, List.foldl_append, ← ofComponents, ofComponents_components]
    exact foldl_push_eq_down _ hroot hups

end Places

section Candidates

theorem isRooted_of_trimSlashes (h : trimSlashes k = "") (hne : k ≠ "") : isRooted k = true := by
  have hslashes : ∀ c ∈ k.toList, c = '/' := by
    have hdrop : k.toList.reverse.dropWhile (· = '/') = [] := by
      simpa [trimSlashes] using h
    rw [List.dropWhile_eq_nil_iff] at hdrop
    intro c hc
    simpa using hdrop c (List.mem_reverse.mpr hc)
  have hchars : k.toList ≠ [] := fun hnil => hne (String.toList_eq_nil_iff.mp hnil)
  obtain ⟨c, cs, hcs⟩ := List.exists_cons_of_ne_nil hchars
  rw [isRooted, hcs, hslashes c (hcs ▸ List.mem_cons_self)]
  rfl

theorem trimSlashes_append (front : String) {back : String} (h : trimSlashes back ≠ "") :
    trimSlashes (front ++ back) = front ++ trimSlashes back := by
  have hne : (back.toList.reverse.dropWhile (· = '/')).isEmpty = false := by
    rw [Bool.eq_false_iff, Ne, List.isEmpty_iff]
    intro hnil
    exact h (by rw [trimSlashes, hnil]; rfl)
  rw [trimSlashes, trimSlashes, String.toList_append, List.reverse_append, List.dropWhile_append,
    hne, if_neg Bool.false_ne_true, List.reverse_append, List.reverse_reverse, String.ofList_append,
    String.ofList_toList]

theorem trimSlashes_append_of_eq_empty (front : String) {back : String}
    (h : trimSlashes back = "") : trimSlashes (front ++ back) = trimSlashes front := by
  have hnil : back.toList.reverse.dropWhile (· = '/') = [] := by simpa [trimSlashes] using h
  rw [trimSlashes, trimSlashes, String.toList_append, List.reverse_append, List.dropWhile_append,
    hnil, List.isEmpty_nil, if_pos rfl]

theorem trimSlashes_of_not_mem (h : '/' ∉ k.toList) : trimSlashes k = k := by
  have hdrop : k.toList.reverse.dropWhile (· = '/') = k.toList.reverse := by
    rw [List.dropWhile_eq_self_iff]
    intro hlength hslash
    have hlast : k.toList.reverse[0] = '/' := by simpa using hslash
    exact h (List.mem_reverse.mp (hlast ▸ List.getElem_mem hlength))
  rw [trimSlashes, hdrop, List.reverse_reverse, String.ofList_toList]

theorem IsBase.trimSlashes_eq (h : IsBase directory) : trimSlashes directory = directory := by
  obtain ⟨front, last, hlast, htext⟩ :=
    exists_text_eq_append (spelled_normal directory) h.steps_ne_nil
  have htrim : trimSlashes last.text = last.text := trimSlashes_of_not_mem hlast.1
  have hne : trimSlashes last.text ≠ "" := by
    rw [htrim]
    exact fun hempty => hlast.text_ne_nil (congrArg String.toList hempty)
  rw [← text_normal h.key, htext, trimSlashes_append front hne, htrim]

theorem find?_place (directory : String) (files tries : List String) :
    (tries.map (place directory)).find? (files.map (place directory)).contains =
      (tries.find? files.contains).map (place directory) := by
  rw [List.find?_map]
  refine congrArg _ (congrArg (List.find? · tries) (funext fun path => ?_))
  rw [Function.comp_apply, Bool.eq_iff_iff, List.contains_iff_mem, List.contains_iff_mem,
    List.mem_map_of_injective (place_injective directory)]

theorem candidates_place (directory : String) (h : trimSlashes k ≠ "") :
    candidates (place directory k) = (candidates k).map (place directory) := by
  have htrim : trimSlashes (place directory k) = place directory (trimSlashes k) :=
    trimSlashes_append _ h
  rw [candidates, candidates, htrim]
  simp [place, String.append_assoc, Function.comp_def]

/-- Where a path is no file and none with an extension, only the index files in it are left. -/
theorem find?_candidates (h : path ∉ files)
    (hextended : ∀ ext ∈ impliedExtensions, path ++ "." ++ ext ∉ files) :
    (candidates path).find? files.contains =
      (impliedExtensions.map (trimSlashes path ++ "/index." ++ ·)).find? files.contains := by
  have hfirst : (path :: impliedExtensions.map (path ++ "." ++ ·)).find? files.contains = none := by
    rw [List.find?_eq_none, List.forall_mem_cons, List.forall_mem_map]
    simp only [List.contains_iff_mem]
    exact ⟨h, hextended⟩
  rw [candidates, List.find?_append, hfirst, Option.none_or]

theorem not_mem_of_isRooted (hfiles : ∀ f ∈ files, IsLocal f) (h : isRooted path = true) :
    path ∉ files := by
  intro hmem
  rw [(hfiles path hmem).unrooted] at h
  cases h

theorem isRooted_append (h : isRooted path = true) (rest : String) :
    isRooted (path ++ rest) = true := by
  obtain ⟨cs, hcs⟩ := List.head?_eq_some_iff.mp (beq_iff_eq.mp h)
  rw [isRooted, String.toList_append, hcs]
  rfl

/-- Nothing is found under a path of slashes only. -/
theorem find?_candidates_rooted (hfiles : ∀ f ∈ files, IsLocal f) (hrooted : isRooted k = true)
    (htrim : trimSlashes k = "") : (candidates k).find? files.contains = none := by
  have hmissing : ∀ path, isRooted path = true → path ∉ files :=
    fun path => not_mem_of_isRooted hfiles
  rw [find?_candidates (hmissing k hrooted) fun ext _ =>
    hmissing _ (isRooted_append (isRooted_append hrooted _) _), htrim, List.find?_eq_none,
    List.forall_mem_map]
  intro ext _
  rw [List.contains_iff_mem]
  exact hmissing _ (isRooted_append (by decide) ext)

/-- Files that are called by an extension only are found where a specifier leads to the directory
that paths start in. -/
theorem find?_candidates_empty (hfiles : ∀ f ∈ files, IsLocal f) :
    (candidates "").find? files.contains =
      (impliedExtensions.map ("." ++ ·)).find? files.contains := by
  have hempty : files.contains "" = false := by
    rw [Bool.eq_false_iff, Ne, List.contains_iff_mem]
    exact fun hmem => (hfiles "" hmem).ne_empty rfl
  have hindex : (impliedExtensions.map ("/index." ++ ·)).find? files.contains = none := by
    rw [List.find?_eq_none, List.forall_mem_map]
    intro ext _
    rw [List.contains_iff_mem]
    exact not_mem_of_isRooted hfiles (isRooted_append (by decide) ext)
  have hcandidates : candidates "" = "" :: (impliedExtensions.map ("." ++ ·) ++
      impliedExtensions.map ("/index." ++ ·)) := by decide
  rw [hcandidates, List.find?_cons_of_neg (by rw [hempty]; decide), List.find?_append, hindex,
    Option.or_none]

theorem directory_not_mem_places : directory ∉ files.map (place directory) := by
  intro hmem
  obtain ⟨f, -, hf⟩ := List.mem_map.mp hmem
  have hlength := congrArg String.length hf
  rw [place, String.length_append, String.length_append] at hlength
  have hslash : "/".length = 1 := rfl
  omega

theorem extended_not_mem_places (ext : String) :
    directory ++ "." ++ ext ∉ files.map (place directory) := by
  intro hmem
  obtain ⟨f, -, hf⟩ := List.mem_map.mp hmem
  rw [place, String.append_assoc, String.append_assoc, String.append_right_inj] at hf
  have hhead := congrArg (fun s : String => s.toList.head?) hf
  simp at hhead

/-- Below a directory, index files are found there. -/
theorem find?_candidates_base (htrim : trimSlashes path = directory)
    (h : path ∉ files.map (place directory))
    (hextended : ∀ ext ∈ impliedExtensions, path ++ "." ++ ext ∉ files.map (place directory)) :
    (candidates path).find? (files.map (place directory)).contains =
      ((impliedExtensions.map ("index." ++ ·)).find? files.contains).map (place directory) := by
  rw [find?_candidates h hextended, htrim, ← find?_place, List.map_map]
  refine congrArg (List.find? _) (List.map_congr_left fun ext _ => ?_)
  rw [Function.comp_apply, place, String.append_assoc, String.append_assoc]
  rfl

end Candidates

theorem key_ne_empty (hnames : ∀ name ∈ names, isName name = true) (hne : names ≠ []) :
    (NormalPath.empty.down names).key ≠ "" := by
  have hspelled : (NormalPath.empty.down names).Spelled := hnames
  have hsteps : (NormalPath.empty.down names).steps ≠ [] := by
    rw [steps_down]
    simpa using fun _ => hne
  obtain ⟨front, last, hlast, htext⟩ := exists_text_eq_append hspelled hsteps
  intro hkey
  have hchars : (NormalPath.empty.down names).text.toList = [] := by
    have htoList := congrArg String.toList hkey
    rw [NormalPath.key, String.toList_ofList] at htoList
    exact List.map_eq_nil_iff.mp htoList
  rw [htext, String.toList_append] at hchars
  exact hlast.text_ne_nil (List.append_eq_nil_iff.mp hchars).2

theorem resolve?_eq (h : IsRelative specifier) (files : List String) (importer : String) :
    resolve? files importer specifier =
      (candidates (target importer specifier).key).find? files.contains :=
  if_pos h.isPathSpecifier

section Resolution

variable (hbase : IsBase directory) (hfiles : ∀ f ∈ files, IsLocal f)
  (himporter : importer ∈ files) (hspecifier : IsRelative specifier)
  (hinside : (target importer specifier).ups = 0)

include hbase hfiles himporter hspecifier hinside

theorem key_target_place : (target (place directory importer) specifier).key =
    if (target importer specifier).names = [] then directory
    else place directory (target importer specifier).key := by
  obtain ⟨hdown, hspelled, hplaced⟩ :=
    target_place hbase (hfiles importer himporter) hspecifier.unrooted hinside
  rw [hplaced]
  split
  · rename_i hnames
    rw [hnames, down, List.append_nil]
    exact hbase.key
  · rename_i hnames
    rw [← hbase.place_key hspelled hnames, ← hdown]

/-- A specifier that leads to a name leads to the same file wherever the project lies. -/
theorem resolve?_place (htrim : trimSlashes (target importer specifier).key ≠ "") :
    resolve? (files.map (place directory)) (place directory importer) specifier =
      (resolve? files importer specifier).map (place directory) := by
  obtain ⟨hdown, -⟩ := target_place hbase (hfiles importer himporter) hspecifier.unrooted hinside
  have hnames : (target importer specifier).names ≠ [] := by
    intro hnames
    rw [hdown, hnames] at htrim
    exact htrim rfl
  rw [resolve?_eq hspecifier, resolve?_eq hspecifier,
    key_target_place hbase hfiles himporter hspecifier hinside, if_neg hnames,
    candidates_place directory htrim, find?_place]

theorem isRooted_key_target (htrim : trimSlashes (target importer specifier).key = "")
    (hnames : (target importer specifier).names ≠ []) :
    isRooted (target importer specifier).key = true := by
  obtain ⟨hdown, hspelled, -⟩ :=
    target_place hbase (hfiles importer himporter) hspecifier.unrooted hinside
  refine isRooted_of_trimSlashes htrim ?_
  rw [hdown]
  exact key_ne_empty hspelled hnames

theorem resolve?_place_root (htrim : trimSlashes (target importer specifier).key = "") :
    resolve? (files.map (place directory)) (place directory importer) specifier =
      ((impliedExtensions.map ("index." ++ ·)).find? files.contains).map (place directory) := by
  rw [resolve?_eq hspecifier, key_target_place hbase hfiles himporter hspecifier hinside]
  split
  · exact find?_candidates_base hbase.trimSlashes_eq directory_not_mem_places
      fun ext _ => extended_not_mem_places ext
  · rename_i hnames
    have hrooted := isRooted_key_target hbase hfiles himporter hspecifier hinside htrim hnames
    have hmissing : ∀ path, isRooted path = true →
        place directory path ∉ files.map (place directory) := by
      intro path hpath
      rw [List.mem_map_of_injective (place_injective directory)]
      exact not_mem_of_isRooted hfiles hpath
    refine find?_candidates_base ?_ (hmissing _ hrooted) fun ext _ => ?_
    · rw [place, trimSlashes_append_of_eq_empty _ htrim,
        trimSlashes_append_of_eq_empty _ (by decide), hbase.trimSlashes_eq]
    · have hextended : place directory (target importer specifier).key ++ "." ++ ext =
          place directory ((target importer specifier).key ++ "." ++ ext) := by
        simp only [place, String.append_assoc]
      rw [hextended]
      exact hmissing _ (isRooted_append (isRooted_append hrooted _) _)

theorem resolve?_root (htrim : trimSlashes (target importer specifier).key = "") :
    resolve? files importer specifier = if (target importer specifier).names = [] then
      (impliedExtensions.map ("." ++ ·)).find? files.contains else none := by
  rw [resolve?_eq hspecifier]
  split
  · rename_i hnames
    obtain ⟨hdown, -⟩ := target_place hbase (hfiles importer himporter) hspecifier.unrooted hinside
    have hkey : (target importer specifier).key = "" := by
      rw [hdown, hnames]
      decide
    rw [hkey, find?_candidates_empty hfiles]
  · rename_i hnames
    exact find?_candidates_rooted hfiles
      (isRooted_key_target hbase hfiles himporter hspecifier hinside htrim hnames) htrim

end Resolution

theorem find?_implied_eq_none_iff (start : String) (files : List String) :
    (impliedExtensions.map (start ++ ·)).find? files.contains = none ↔
      ∀ ext ∈ impliedExtensions, start ++ ext ∉ files := by
  rw [List.find?_eq_none, List.forall_mem_map]
  simp only [List.contains_iff_mem]

/-- No file is both an index file and one that is called by an extension only. -/
theorem find?_index_eq_find?_bare_iff (files : List String) :
    (impliedExtensions.map ("index." ++ ·)).find? files.contains =
        (impliedExtensions.map ("." ++ ·)).find? files.contains ↔
      ∀ ext ∈ impliedExtensions, "index." ++ ext ∉ files ∧ "." ++ ext ∉ files := by
  have hdisjoint : ∀ path ∈ impliedExtensions.map ("index." ++ ·),
      path ∉ impliedExtensions.map ("." ++ ·) := by decide
  rw [forall₂_and, ← find?_implied_eq_none_iff, ← find?_implied_eq_none_iff]
  constructor
  · intro heq
    have hnone : (impliedExtensions.map ("index." ++ ·)).find? files.contains = none := by
      rw [Option.eq_none_iff_forall_ne_some]
      intro path hpath
      exact hdisjoint path (List.mem_of_find?_eq_some hpath)
        (List.mem_of_find?_eq_some (heq ▸ hpath))
    exact ⟨hnone, heq ▸ hnone⟩
  · rintro ⟨hindex, hbare⟩
    rw [hindex, hbare]

/-- A relative specifier that does not lead out of the project stands for the same file wherever
the project lies, unless it leads to the project itself, or to a name of nothing but backslashes in
it. Then an index file of the project is found only below a directory, and a file that is called by
an extension only is found without one if the specifier leads to the project itself. -/
theorem resolve?_place_iff (hbase : IsBase directory) (hfiles : ∀ f ∈ files, IsLocal f)
    (himporter : importer ∈ files) (hspecifier : IsRelative specifier)
    (hinside : (target importer specifier).ups = 0) :
    resolve? (files.map (place directory)) (place directory importer) specifier =
        (resolve? files importer specifier).map (place directory) ↔
      (trimSlashes (target importer specifier).key = "" → ∀ ext ∈ impliedExtensions,
        "index." ++ ext ∉ files ∧
          ((target importer specifier).names = [] → "." ++ ext ∉ files)) := by
  by_cases htrim : trimSlashes (target importer specifier).key = ""
  · have hinjective := Option.map_injective (place_injective directory)
    rw [resolve?_place_root hbase hfiles himporter hspecifier hinside htrim,
      resolve?_root hbase hfiles himporter hspecifier hinside htrim, hinjective.eq_iff,
      imp_iff_right htrim]
    by_cases hnames : (target importer specifier).names = []
    · simp only [hnames, if_true, forall_const]
      exact find?_index_eq_find?_bare_iff files
    · simp only [hnames, if_false, false_implies, and_true]
      exact find?_implied_eq_none_iff "index." files
  · refine iff_of_true ?_ fun h => absurd h htrim
    exact resolve?_place hbase hfiles himporter hspecifier hinside htrim

theorem isLocal_of_mem_sample : ∀ f ∈ ["a.ts", "index.ts", "src/b.ts"], IsLocal f := by
  have hfields : ∀ f ∈ ["a.ts", "index.ts", "src/b.ts"], FilePath.key f = f ∧
      isRooted f = false ∧ (normal f).ups = 0 ∧ f ≠ "" := by decide +kernel
  intro f hf
  obtain ⟨hkey, hunrooted, hinside, hne⟩ := hfields f hf
  exact ⟨hkey, hunrooted, hinside, hne⟩

theorem isBase_sample : IsBase "/p" := ⟨by decide +kernel, by decide, by decide⟩

theorem resolve?_place_iff_sample :
    let files := ["a.ts", "index.ts", "src/b.ts"]
    IsBase "/p" ∧ (∀ f ∈ files, IsLocal f) ∧ "src/b.ts" ∈ files ∧ IsRelative "../a" ∧
      (target "src/b.ts" "../a").ups = 0 ∧
      resolve? (files.map (place "/p")) (place "/p" "src/b.ts") "../a" = some "/p/a.ts" := by
  intro files
  have himporter : "src/b.ts" ∈ files := by decide
  have hspecifier : IsRelative "../a" := .inr (.inl (by decide))
  have hinside : (target "src/b.ts" "../a").ups = 0 := by decide +kernel
  have htrim : trimSlashes (target "src/b.ts" "../a").key ≠ "" := by decide +kernel
  have hlocal : resolve? files "src/b.ts" "../a" = some "a.ts" := by decide +kernel
  refine ⟨isBase_sample, isLocal_of_mem_sample, himporter, hspecifier, hinside, ?_⟩
  rw [(resolve?_place_iff isBase_sample isLocal_of_mem_sample himporter hspecifier hinside).mpr
    fun h => absurd h htrim, hlocal]
  decide

/-- The index file of a project is found below a directory and not without one. -/
theorem not_forall_resolve?_place :
    ¬∀ (directory : String) (files : List String) (importer specifier : String),
      IsBase directory → (∀ f ∈ files, IsLocal f) → importer ∈ files → IsRelative specifier →
      (target importer specifier).ups = 0 →
      resolve? (files.map (place directory)) (place directory importer) specifier =
        (resolve? files importer specifier).map (place directory) := by
  intro h
  have hsame := h "/p" ["a.ts", "index.ts", "src/b.ts"] "a.ts" "." isBase_sample
    isLocal_of_mem_sample (by decide) (.inr (.inr (.inl rfl))) (by decide +kernel)
  exact absurd hsame (by decide +kernel)

end CodeAtlas.Dependency
