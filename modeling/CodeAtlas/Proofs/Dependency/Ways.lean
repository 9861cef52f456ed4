import CodeAtlas.Proofs.Dependency.Placement

/-! The relative way from one file to another one. It leads up to the deepest directory that both
are in and from there down, and it stands for the file that it leads to. Without an extension that a
specifier may leave out it stands for the first file that there is under the rest of the path. -/

namespace CodeAtlas.Dependency

open FilePath NormalPath

/-- Whether a text is the key of a file, rooted or not, which lies above no directory that paths
start in. -/
structure IsFileKey (rooted : Bool) (path : String) : Prop where
  key : FilePath.key path = path
  isRooted : FilePath.isRooted path = rooted
  inside : (normal path).ups = 0
  ne_nil : (normal path).names ≠ []

/-- What two lists begin with alike. -/
def common : List String → List String → List String
  | [], _ => []
  | _ :: _, [] => []
  | a :: as, b :: bs => if a = b then a :: common as bs else []

/-- The names of the directories that a file is in, the outermost first. -/
def directories (path : String) : List String := (normal path).names.dropLast

/-- So many steps up, or the directory itself. -/
def climb : Nat → List String
  | 0 => ["."]
  | n + 1 => List.replicate (n + 1) ".."

/-- The way from a file to another one: up from its directory to the deepest one that both files are
in, and then down. -/
def wayTo (importer target : String) : String :=
  let shared := (common (directories importer) (directories target)).length
  "/".intercalate
    (climb ((directories importer).length - shared) ++ (normal target).names.drop shared)

variable {rooted : Bool} {path importer target stem ext base : String}
  {as bs shared below names : List String} {files : List String}

theorem prefix_common_iff {start : List String} :
    start <+: common as bs ↔ start <+: as ∧ start <+: bs := by
  fun_induction common as bs generalizing start with
  | case1 bs =>
    rw [List.prefix_nil]
    exact ⟨fun h => ⟨h, h ▸ List.nil_prefix⟩, And.left⟩
  | case2 a as =>
    rw [List.prefix_nil]
    exact ⟨fun h => ⟨h ▸ List.nil_prefix, h⟩, And.right⟩
  | case3 as a bs ih =>
    cases start with
    | nil => simp only [List.nil_prefix, and_self]
    | cons c start =>
      rw [List.cons_prefix_cons, List.cons_prefix_cons, List.cons_prefix_cons, ih]
      tauto
  | case4 a as b bs hab =>
    cases start with
    | nil => simp only [List.nil_prefix, and_self]
    | cons c start =>
      rw [List.cons_prefix_cons, List.cons_prefix_cons, List.prefix_nil]
      refine iff_of_false (List.cons_ne_nil _ _) ?_
      rintro ⟨⟨rfl, -⟩, rfl, -⟩
      exact hab rfl

theorem climb_eq_cons (n : Nat) : ∃ first more, climb n = first :: more ∧
    (first = "." ∨ first = "..") := by
  cases n with
  | zero => exact ⟨_, _, rfl, .inl rfl⟩
  | succ n => exact ⟨_, _, List.replicate_succ, .inr rfl⟩

theorem isRelative_climb (n : Nat) (hne : names ≠ []) :
    IsRelative ("/".intercalate (climb n ++ names)) := by
  obtain ⟨first, more, hclimb, hfirst⟩ := climb_eq_cons n
  obtain ⟨next, rest, hrest⟩ :=
    List.exists_cons_of_ne_nil (List.append_ne_nil_of_right_ne_nil more hne)
  rw [hclimb, List.cons_append, hrest, String.intercalate_cons_cons]
  rcases hfirst with rfl | rfl
  · exact .inl (by simp [Text.hasPrefix])
  · exact .inr (.inl (by simp [Text.hasPrefix]))

/-- A way up and down has a component for every part that it is written with. -/
theorem components_climb (n : Nat) (hnames : ∀ name ∈ names, isName name = true) :
    FilePath.components ("/".intercalate (climb n ++ names)) =
      (if n = 0 then [.here] else List.replicate n .up) ++ names.map .name := by
  have hinner : ∀ c ∈ names.map Component.name, IsInner c := by
    intro c hc
    obtain ⟨name, hname, rfl⟩ := List.mem_map.mp hc
    exact isInner_name_iff.mpr (hnames name hname)
  cases n with
  | zero =>
    have hsegments : segments ("/".intercalate ("." :: names)).toList =
        ['.'] :: (names.map Component.name).map fun c => c.text.toList := by
      rw [String.toList_intercalate, List.map_cons, List.map_map]
      refine segments_intercalate (List.cons_ne_nil _ _) (List.forall_mem_cons.mpr ⟨by decide, ?_⟩)
      intro part hpart
      obtain ⟨name, hname, rfl⟩ := List.mem_map.mp hpart
      exact (isName_iff.mp (hnames name hname)).1
    rw [climb, List.singleton_append, FilePath.components,
      componentsOf_of_segments hsegments fun h => absurd h (List.cons_ne_nil _ _),
      filterMap_innerComponent? hinner]
    rfl
  | succ n =>
    have hall : ∀ c ∈ List.replicate (n + 1) Component.up ++ names.map .name, IsInner c := by
      intro c hc
      rcases List.mem_append.mp hc with hc | hc
      · rw [List.eq_of_mem_replicate hc]
        exact isInner_up
      · exact hinner c hc
    have htexts := components_textOf hall
    rw [textOf_of_isInner hall, List.map_append, List.map_replicate, List.map_map] at htexts
    exact (congrArg _ (congrArg _ (congrArg _ (List.map_id names).symm))).trans htexts

namespace IsFileKey

theorem normal_eq (h : IsFileKey rooted path) : normal path = ⟨rooted, 0, (normal path).names⟩ := by
  rw [← h.isRooted, ← rooted_normal h.key, ← h.inside]

theorem exists_names (h : IsFileKey rooted path) :
    ∃ name, (normal path).names = directories path ++ [name] :=
  ⟨_, (List.dropLast_append_getLast h.ne_nil).symm⟩

theorem components_eq (h : IsFileKey rooted path) : FilePath.components path =
    NormalPath.components ⟨rooted, 0, (normal path).names⟩ := by
  rw [← h.normal_eq, ← (spelled_normal path).components_text, text_normal h.key]

/-- Where a way leads from the directory of a file. -/
theorem ofComponents_parent (h : IsFileKey rooted path) :
    ofComponents ((parent? path).getD []) = ⟨rooted, 0, directories path⟩ := by
  obtain ⟨name, hnames⟩ := h.exists_names
  have hcomponents : FilePath.components path =
      NormalPath.components ⟨rooted, 0, directories path⟩ ++ [.name name] := by
    rw [h.components_eq, hnames, NormalPath.components, NormalPath.components, List.map_append,
      ← List.append_assoc]
    rfl
  rw [parent?_of_components hcomponents, Option.getD_some, ofComponents_components]

end IsFileKey

/-- Steps up from a directory undo as many of its names. -/
theorem foldl_push_replicate_up (above names : List String) :
    (List.replicate names.length Component.up).foldl push ⟨rooted, 0, above ++ names⟩ =
      ⟨rooted, 0, above⟩ := by
  induction names using List.reverseRecOn with
  | nil => rw [List.append_nil]; rfl
  | append_singleton names name ih =>
    have hup : push ⟨rooted, 0, above ++ (names ++ [name])⟩ .up = ⟨rooted, 0, above ++ names⟩ := by
      simp [push, ← List.append_assoc]
    rw [List.length_append, List.length_singleton, List.replicate_succ, List.foldl_cons, hup, ih]

/-- A way that climbs out of some directories of a file leads down from the ones that are left. -/
theorem target_climb (h : IsFileKey rooted importer)
    (hdirectories : directories importer = shared ++ below)
    (hnames : ∀ name ∈ names, isName name = true) :
    Dependency.target importer ("/".intercalate (climb below.length ++ names)) =
      ⟨rooted, 0, shared ++ names⟩ := by
  have hclimb : (if below.length = 0 then [Component.here] else .replicate below.length .up).foldl
      push ⟨rooted, 0, shared ++ below⟩ = ⟨rooted, 0, shared⟩ := by
    split
    · rename_i hempty
      rw [List.length_eq_zero_iff.mp hempty, List.append_nil]
      rfl
    · exact foldl_push_replicate_up shared below
  rw [Dependency.target, components_climb _ hnames, ofComponents, List.foldl_append,
    List.foldl_append, ← ofComponents, h.ofComponents_parent, hdirectories, hclimb,
    foldl_push_names]

theorem wayTo_eq (importer : String) (h : IsFileKey rooted target) : ∃ shared below between name,
    directories importer = shared ++ below ∧
      (normal target).names = shared ++ (between ++ [name]) ∧
      wayTo importer target = "/".intercalate (climb below.length ++ (between ++ [name])) := by
  obtain ⟨hup, hdown⟩ := prefix_common_iff.mp
    (List.prefix_refl (common (directories importer) (directories target)))
  obtain ⟨below, hbelow⟩ := hup
  obtain ⟨between, hbetween⟩ := hdown
  obtain ⟨name, hnames⟩ := h.exists_names
  have hsplit : (normal target).names =
      common (directories importer) (directories target) ++ (between ++ [name]) := by
    rw [hnames, ← List.append_assoc, hbetween]
  have hlength : (directories importer).length -
      (common (directories importer) (directories target)).length = below.length := by
    rw [← congrArg List.length hbelow, List.length_append, Nat.add_sub_cancel_left]
  exact ⟨_, below, between, name, hbelow.symm, hsplit, by
    rw [wayTo, hlength, hsplit, List.drop_left]⟩

theorem key_names (h : IsFileKey rooted path) :
    NormalPath.key ⟨rooted, 0, (normal path).names⟩ = path := by
  rw [← h.normal_eq]
  exact h.key

theorem intercalate_concat_append (front : List String) (a b : String) :
    "/".intercalate (front ++ [a ++ b]) = "/".intercalate (front ++ [a]) ++ b := by
  by_cases hfront : front = []
  · rw [hfront, List.nil_append, List.nil_append, String.intercalate_singleton,
      String.intercalate_singleton]
  · rw [String.intercalate_append_of_ne_nil hfront (List.cons_ne_nil _ _),
      String.intercalate_append_of_ne_nil hfront (List.cons_ne_nil _ _),
      String.intercalate_singleton, String.intercalate_singleton, String.append_assoc,
      String.append_assoc, String.append_assoc]

theorem text_concat_append (rooted : Bool) {front : List String} {a b : String}
    (hfront : ∀ name ∈ front, isName name = true) (ha : isName a = true)
    (hab : isName (a ++ b) = true) : NormalPath.text ⟨rooted, 0, front ++ [a ++ b]⟩ =
      NormalPath.text ⟨rooted, 0, front ++ [a]⟩ ++ b := by
  have hspelled {name : String} (hname : isName name = true) :
      (NormalPath.mk rooted 0 (front ++ [name])).Spelled :=
    List.forall_mem_append.mpr ⟨hfront, List.forall_mem_singleton.mpr hname⟩
  have htexts (names : List String) :
      (NormalPath.mk rooted 0 names).steps.map Component.text = names := by
    rw [steps, List.replicate_zero, List.nil_append, List.map_map]
    exact List.map_id _
  rw [text_eq (hspelled hab), text_eq (hspelled ha), htexts, htexts, intercalate_concat_append]
  split
  · rw [String.append_assoc]
  · rfl

/-- A part of a name is a name if it is none of the three texts that stand for no name. -/
theorem isName_of_append {a b : String} (hab : isName (a ++ b) = true)
    (ha : a ∉ ["", ".", ".."]) : isName a = true := by
  have hslash : '/' ∉ a.toList := by
    have hall := (isName_iff.mp hab).1
    rw [String.toList_append, List.mem_append, not_or] at hall
    exact hall.1
  have htext (text : String) (h : a.toList = text.toList) (hmem : text ∈ ["", ".", ".."]) :
      False := ha (String.toList_injective h ▸ hmem)
  refine isName_iff.mpr ⟨hslash, ?_⟩
  unfold innerComponent?
  split
  · exact (htext "" ‹_› (by decide)).elim
  · exact (htext "." ‹_› (by decide)).elim
  · exact (htext ".." ‹_› (by decide)).elim
  · rw [String.ofList_toList]

theorem fileName?_of_names {front : List String} {name : String} (h : IsFileKey rooted path)
    (hnames : (normal path).names = front ++ [name]) : fileName? path = some name := by
  rw [fileName?, h.components_eq, hnames, NormalPath.components, List.map_append,
    List.map_singleton, ← List.append_assoc, List.getLast?_concat]

/-- The first file that there is under a path, with an extension that a specifier may leave out or
with none. -/
def firstUnder? (files : List String) (base : String) : Option String :=
  (base :: impliedExtensions.map (base ++ "." ++ ·)).find? files.contains

theorem find?_candidates_of_firstUnder? {file : String} (h : firstUnder? files base = some file) :
    (candidates base).find? files.contains = firstUnder? files base := by
  rw [candidates, List.find?_append, ← firstUnder?, h]
  rfl

theorem isSome_firstUnder? (hext : ext ∈ impliedExtensions) (hmem : base ++ "." ++ ext ∈ files) :
    (firstUnder? files base).isSome = true := by
  refine List.find?_isSome.mpr ⟨base ++ "." ++ ext, ?_, List.contains_iff_mem.mpr hmem⟩
  exact List.mem_cons_of_mem _ (List.mem_map_of_mem hext)

theorem resolve?_wayTo (himporter : IsFileKey rooted importer) (htarget : IsFileKey rooted target)
    (hmem : target ∈ files) : resolve? files importer (wayTo importer target) = some target := by
  obtain ⟨shared, below, between, name, hdirectories, hnames, hway⟩ :=
    wayTo_eq importer htarget
  have hall : ∀ n ∈ between ++ [name], isName n = true := fun n hn =>
    spelled_normal target n (hnames ▸ List.mem_append_right _ hn)
  have hkey : (Dependency.target importer (wayTo importer target)).key = target := by
    rw [hway, target_climb himporter hdirectories hall, ← hnames]
    exact key_names htarget
  have hrelative : IsRelative (wayTo importer target) :=
    hway ▸ isRelative_climb _ (List.append_ne_nil_of_right_ne_nil _ (List.cons_ne_nil _ _))
  rw [resolve?_eq hrelative, hkey, candidates, List.cons_append,
    List.find?_cons_of_pos (List.contains_iff_mem.mpr hmem)]

/-- The key of a file without an extension is the key that the file would have without it. -/
theorem key_without {front : List String} (h : IsFileKey rooted target)
    (hnames : (normal target).names = front ++ [stem ++ ("." ++ ext)])
    (hbase : target = base ++ ("." ++ ext)) (hstem : isName stem = true) :
    NormalPath.key ⟨rooted, 0, front ++ [stem]⟩ = base := by
  have hspelled : ∀ n ∈ front ++ [stem ++ ("." ++ ext)], isName n = true :=
    hnames ▸ spelled_normal target
  obtain ⟨hfront, hlast⟩ := List.forall_mem_append.mp hspelled
  have htext : NormalPath.text ⟨rooted, 0, front ++ [stem]⟩ = base := by
    have hboth := text_concat_append rooted hfront hstem
      (hlast _ (List.mem_singleton_self _))
    rw [← hnames, ← h.normal_eq, text_normal h.key] at hboth
    exact (String.append_left_inj _).mp (hboth.symm.trans hbase)
  have hslash : '\\' ∉ target.toList := h.key ▸ backslash_not_mem_key (normal target)
  rw [hbase, String.toList_append, List.mem_append, not_or] at hslash
  rw [key_eq_text (htext.symm ▸ hslash.1), htext]

theorem resolve?_wayTo_without (himporter : IsFileKey rooted importer)
    (htarget : IsFileKey rooted target) (hmem : target ∈ files) (hext : ext ∈ impliedExtensions)
    (hbase : target = base ++ "." ++ ext) (hname : fileName? target = some (stem ++ "." ++ ext))
    (hstem : stem ∉ ["", ".", ".."]) : ∃ specifier,
      wayTo importer target = specifier ++ "." ++ ext ∧
        resolve? files importer specifier = firstUnder? files base := by
  obtain ⟨shared, below, between, name, hdirectories, hnames, hway⟩ :=
    wayTo_eq importer htarget
  have hfirst := isSome_firstUnder? hext (hbase ▸ hmem)
  rw [String.append_assoc] at hbase hname
  rw [← List.append_assoc] at hnames
  obtain rfl : name = stem ++ ("." ++ ext) :=
    Option.some.inj ((fileName?_of_names htarget hnames).symm.trans hname)
  have hspelled : ∀ n ∈ shared ++ between ++ [stem ++ ("." ++ ext)], isName n = true :=
    hnames ▸ spelled_normal target
  have hisName : isName stem = true :=
    isName_of_append (hspelled _ (List.mem_append_right _ List.mem_cons_self)) hstem
  have hall : ∀ n ∈ between ++ [stem], isName n = true := by
    intro n hn
    rcases List.mem_append.mp hn with hn | hn
    · exact hspelled n (List.mem_append_left _ (List.mem_append_right _ hn))
    · exact List.mem_singleton.mp hn ▸ hisName
  let specifier := "/".intercalate (climb below.length ++ (between ++ [stem]))
  have hkey : (Dependency.target importer specifier).key = base := by
    rw [target_climb himporter hdirectories hall, ← List.append_assoc]
    exact key_without htarget hnames hbase hisName
  have hrelative : IsRelative specifier :=
    isRelative_climb _ (List.append_ne_nil_of_right_ne_nil _ (List.cons_ne_nil _ _))
  obtain ⟨file, hfile⟩ := Option.isSome_iff_exists.mp hfirst
  refine ⟨specifier, ?_, ?_⟩
  · rw [hway, ← List.append_assoc, intercalate_concat_append, List.append_assoc,
      String.append_assoc]
  · rw [resolve?_eq hrelative, hkey, find?_candidates_of_firstUnder? hfile]

/-- Among files that are all known by rooted keys, or all by others, the way from one to another
stands for that one. Without an extension that may be left out it stands for the first file that
there is under what is left of the path. -/
theorem resolve?_way (hfiles : ∀ f ∈ files, IsFileKey rooted f) (himporter : importer ∈ files)
    (htarget : target ∈ files) :
    resolve? files importer (wayTo importer target) = some target ∧
    ∀ base stem ext, ext ∈ impliedExtensions → target = base ++ "." ++ ext →
      fileName? target = some (stem ++ "." ++ ext) → stem ∉ ["", ".", ".."] →
      ∃ specifier, wayTo importer target = specifier ++ "." ++ ext ∧
        resolve? files importer specifier = firstUnder? files base ∧
        (firstUnder? files base).isSome = true := by
  have himporter := hfiles importer himporter
  refine ⟨resolve?_wayTo himporter (hfiles target htarget) htarget, ?_⟩
  intro base stem ext hext hbase hname hstem
  obtain ⟨specifier, hway, hresolve⟩ :=
    resolve?_wayTo_without himporter (hfiles target htarget) htarget hext hbase hname hstem
  exact ⟨specifier, hway, hresolve, isSome_firstUnder? hext (hbase ▸ htarget)⟩

theorem resolve?_way_sample :
    let files := ["src/app/a.ts", "src/lib/b.tsx", "src/lib/b.ts"]
    (∀ f ∈ files, IsFileKey false f) ∧ wayTo "src/app/a.ts" "src/lib/b.tsx" = "../lib/b.tsx" ∧
      resolve? files "src/app/a.ts" "../lib/b.tsx" = some "src/lib/b.tsx" ∧
      resolve? files "src/app/a.ts" "../lib/b" = some "src/lib/b.ts" := by
  intro files
  have hfields : ∀ f ∈ files, FilePath.key f = f ∧ FilePath.isRooted f = false ∧
      (normal f).ups = 0 ∧ (normal f).names ≠ [] := by decide +kernel
  have hfiles : ∀ f ∈ files, IsFileKey false f := by
    intro f hf
    obtain ⟨hkey, hunrooted, hinside, hne⟩ := hfields f hf
    exact ⟨hkey, hunrooted, hinside, hne⟩
  have hway : wayTo "src/app/a.ts" "src/lib/b.tsx" = "../lib/b.tsx" := by decide +kernel
  have himporter : "src/app/a.ts" ∈ files := by decide
  have htarget : "src/lib/b.tsx" ∈ files := by decide
  obtain ⟨hexact, hwithout⟩ := resolve?_way hfiles himporter htarget
  obtain ⟨specifier, hspecifier, hresolve, -⟩ := hwithout "src/lib/b" "b" "tsx" (by decide) rfl
    (by decide +kernel) (by decide)
  have hwritten : "../lib/b" ++ "." ++ "tsx" = "../lib/b.tsx" := by decide
  have hrest := hwritten.trans (hway.symm.trans hspecifier)
  obtain rfl : "../lib/b" = specifier :=
    (String.append_left_inj _).mp ((String.append_left_inj _).mp hrest)
  have hfirst : firstUnder? files "src/lib/b" = some "src/lib/b.ts" := by decide
  exact ⟨hfiles, hway, hway ▸ hexact, hresolve.trans hfirst⟩

end CodeAtlas.Dependency
