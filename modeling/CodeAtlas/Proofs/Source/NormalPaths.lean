import CodeAtlas.Proofs.Source.Paths
import Mathlib.Data.List.Induction

/-! Normal paths and the texts they are written as. A path that is written out and taken apart again
is the same path, and a text that is its own key is its normal path written out. -/

namespace CodeAtlas

namespace FilePath

theorem slash_not_mem_of_mem_segments {path part : List Char} (h : part ∈ segments path) :
    '/' ∉ part := by
  induction path generalizing part with
  | nil =>
    obtain rfl := List.mem_singleton.mp h
    exact List.not_mem_nil
  | cons c cs ih =>
    obtain ⟨first, more, hcs⟩ := List.exists_cons_of_ne_nil (segments_ne_nil cs)
    rw [segments_cons] at h
    split at h
    · rcases List.mem_cons.mp h with rfl | h
      · exact List.not_mem_nil
      · exact ih h
    · rename_i hc
      rw [hcs, List.headD_cons, List.tail_cons] at h
      rcases List.mem_cons.mp h with rfl | h
      · rw [List.mem_cons, not_or]
        exact ⟨Ne.symm hc, ih (hcs ▸ List.mem_cons_self)⟩
      · exact ih (hcs ▸ List.mem_cons_of_mem _ h)

theorem subset_of_mem_segments {path part : List Char} (h : part ∈ segments path) :
    part ⊆ path := by
  induction path generalizing part with
  | nil =>
    obtain rfl := List.mem_singleton.mp h
    exact List.Subset.refl _
  | cons c cs ih =>
    obtain ⟨first, more, hcs⟩ := List.exists_cons_of_ne_nil (segments_ne_nil cs)
    rw [segments_cons] at h
    split at h
    · rcases List.mem_cons.mp h with rfl | h
      · exact List.nil_subset _
      · exact List.Subset.trans (ih h) (List.subset_cons_self _ _)
    · rw [hcs, List.headD_cons, List.tail_cons] at h
      rcases List.mem_cons.mp h with rfl | h
      · exact List.cons_subset_cons _ (ih (hcs ▸ List.mem_cons_self))
      · exact List.Subset.trans (ih (hcs ▸ List.mem_cons_of_mem _ h)) (List.subset_cons_self _ _)

/-- Parts with slashes between them are taken apart at these slashes. -/
theorem segments_intercalate {parts : List (List Char)} (hne : parts ≠ [])
    (h : ∀ part ∈ parts, '/' ∉ part) : segments (['/'].intercalate parts) = parts := by
  induction parts with
  | nil => exact absurd rfl hne
  | cons part more ih =>
    rw [List.forall_mem_cons] at h
    cases more with
    | nil =>
      rw [List.intercalate_singleton]
      exact segments_of_not_mem h.1
    | cons next more =>
      rw [List.intercalate_cons_cons, List.append_assoc, List.singleton_append,
        segments_append_slash, segments_of_not_mem h.1, ih (List.cons_ne_nil next more) h.2]
      rfl

/-- Whether a component stands for itself wherever it stands. -/
def IsInner (c : Component) : Prop :=
  '/' ∉ c.text.toList ∧ innerComponent? c.text.toList = some c

theorem isInner_up : IsInner .up := ⟨by decide, rfl⟩

theorem isInner_name_iff {name : String} : IsInner (.name name) ↔ isName name = true :=
  isName_iff.symm

theorem text_of_innerComponent? {part : List Char} {c : Component}
    (h : innerComponent? part = some c) : c.text.toList = part := by
  unfold innerComponent? at h
  split at h
  · cases h
  · cases h
  · cases h
    rfl
  · cases h
    exact String.toList_ofList

theorem isInner_of_innerComponent? {path part : List Char} {c : Component}
    (hpart : part ∈ segments path) (h : innerComponent? part = some c) : IsInner c := by
  rw [IsInner, text_of_innerComponent? h]
  exact ⟨slash_not_mem_of_mem_segments hpart, h⟩

theorem IsInner.text_ne_nil {c : Component} (h : IsInner c) : c.text.toList ≠ [] := by
  intro hnil
  have hinner := h.2
  rw [hnil] at hinner
  cases hinner

theorem mem_components {path : String} {c : Component} (h : c ∈ components path) :
    c = .root ∨ c = .here ∨
      ∃ part ∈ segments path.toList, innerComponent? part = some c := by
  obtain ⟨first, more, hsegments⟩ := List.exists_cons_of_ne_nil (segments_ne_nil path.toList)
  have hinner : ∀ parts ⊆ segments path.toList, c ∈ parts.filterMap innerComponent? →
      ∃ part ∈ segments path.toList, innerComponent? part = some c := by
    intro parts hparts hc
    obtain ⟨part, hpart, hsome⟩ := List.mem_filterMap.mp hc
    exact ⟨part, hparts hpart, hsome⟩
  have hmore : more ⊆ segments path.toList := hsegments ▸ List.subset_cons_self first more
  by_cases hempty : path.toList = []
  · rw [components, hempty] at h
    cases h
  · rw [components, componentsOf_of_segments hsegments (ne_nil_of_segments hsegments hempty),
      List.mem_append] at h
    rcases h with h | h
    · unfold lead at h
      split at h
      · exact .inl (List.mem_singleton.mp h)
      · exact .inr (.inl (List.mem_singleton.mp h))
      · exact .inr (.inr ⟨_, hsegments ▸ List.mem_cons_self, Option.mem_toList.mp h⟩)
    · exact .inr (.inr (hinner more hmore h))

theorem isInner_of_mem_components {path : String} {c : Component} (h : c ∈ components path)
    (hroot : c ≠ .root) (hhere : c ≠ .here) : IsInner c := by
  obtain ⟨part, hpart, hsome⟩ := ((mem_components h).resolve_left hroot).resolve_left hhere
  exact isInner_of_innerComponent? hpart hsome

theorem root_not_mem_components {path : String} (h : isRooted path = false) :
    .root ∉ components path := by
  intro hroot
  obtain ⟨first, more, hsegments⟩ := List.exists_cons_of_ne_nil (segments_ne_nil path.toList)
  unfold isRooted at h
  unfold components at hroot
  cases hpath : path.toList with
  | nil =>
    rw [hpath] at hroot
    cases hroot
  | cons c cs =>
    rw [hpath] at h hroot hsegments
    have hc : c ≠ '/' := by simpa using h
    rw [segments_cons, if_neg hc] at hsegments
    obtain ⟨rfl, -⟩ := List.cons.inj hsegments
    rw [componentsOf_of_segments (segments_cons c cs ▸ if_neg hc) (by simp), List.mem_append]
      at hroot
    have hinner (part : List Char) : innerComponent? part ≠ some .root := by
      unfold innerComponent?
      split <;> simp
    rcases hroot with hroot | hroot
    · unfold lead at hroot
      split at hroot
      · rename_i hnil
        cases hnil
      · cases List.mem_singleton.mp hroot
      · exact hinner _ (Option.mem_toList.mp hroot)
    · obtain ⟨part, -, hsome⟩ := List.mem_filterMap.mp hroot
      exact hinner part hsome

theorem componentsOf_cons_slash (cs : List Char) :
    componentsOf ('/' :: cs) = .root :: (segments cs).filterMap innerComponent? := by
  have hsegments : segments ('/' :: cs) = [] :: segments cs := segments_cons '/' cs
  exact componentsOf_of_segments hsegments fun _ => segments_ne_nil cs

theorem root_mem_components_iff {path : String} :
    .root ∈ components path ↔ isRooted path = true := by
  constructor
  · intro hroot
    by_contra h
    exact root_not_mem_components (Bool.eq_false_iff.mpr h) hroot
  · intro h
    obtain ⟨cs, hcs⟩ := List.head?_eq_some_iff.mp (beq_iff_eq.mp h)
    rw [components, hcs, componentsOf_cons_slash]
    exact List.mem_cons_self

theorem segments_texts {cs : List Component} (hne : cs ≠ []) (h : ∀ c ∈ cs, IsInner c) :
    segments ("/".intercalate (cs.map Component.text)).toList =
      cs.map fun c => c.text.toList := by
  rw [String.toList_intercalate, List.map_map]
  refine segments_intercalate (by simpa using hne) fun part hpart => ?_
  obtain ⟨c, hc, rfl⟩ := List.mem_map.mp hpart
  exact (h c hc).1

theorem filterMap_innerComponent? {cs : List Component} (h : ∀ c ∈ cs, IsInner c) :
    (cs.map fun c => c.text.toList).filterMap innerComponent? = cs := by
  rw [List.filterMap_map]
  exact (List.filterMap_congr fun c hc => (h c hc).2).trans List.filterMap_some

theorem lead_of_isInner {c : Component} (h : IsInner c) : lead c.text.toList = [c] := by
  have hinner := h.2
  unfold lead
  split
  · rename_i hnil
    exact absurd hnil h.text_ne_nil
  · rename_i hdot
    rw [hdot] at hinner
    cases hinner
  · rw [hinner]
    rfl

theorem components_textOf_root {cs : List Component} (h : ∀ c ∈ cs, IsInner c) :
    components (textOf (.root :: cs)) = .root :: cs := by
  have htext : (textOf (.root :: cs)).toList =
      '/' :: ("/".intercalate (cs.map Component.text)).toList := by
    rw [textOf, String.toList_append]
    rfl
  rw [components, htext, componentsOf_cons_slash]
  cases cs with
  | nil => rfl
  | cons c cs => rw [segments_texts (List.cons_ne_nil c cs) h, filterMap_innerComponent? h]

theorem textOf_of_isInner {cs : List Component} (h : ∀ c ∈ cs, IsInner c) :
    textOf cs = "/".intercalate (cs.map Component.text) := by
  unfold textOf
  split
  · exact absurd (List.mem_singleton.mpr rfl) (h .root List.mem_cons_self).1
  · rfl

theorem components_textOf {cs : List Component} (h : ∀ c ∈ cs, IsInner c) :
    components (textOf cs) = cs := by
  rw [textOf_of_isInner h]
  cases cs with
  | nil => rfl
  | cons c cs =>
    have hsegments := segments_texts (List.cons_ne_nil c cs) h
    rw [List.forall_mem_cons] at h
    have hne : c.text.toList = [] → (cs.map fun c => c.text.toList) ≠ [] :=
      fun hnil => absurd hnil h.1.text_ne_nil
    rw [components, componentsOf_of_segments hsegments hne, lead_of_isInner h.1,
      filterMap_innerComponent? h.2]
    rfl

end FilePath

namespace NormalPath

open FilePath

/-- Whether all names of a path may be names of files. -/
def Spelled (p : NormalPath) : Prop := ∀ name ∈ p.names, isName name = true

theorem ofComponents_concat (cs : List Component) (c : Component) :
    ofComponents (cs ++ [c]) = (ofComponents cs).push c := List.foldl_append

theorem mem_names_ofComponents {cs : List Component} {name : String}
    (h : name ∈ (ofComponents cs).names) : .name name ∈ cs := by
  induction cs using List.reverseRecOn with
  | nil => cases h
  | append_singleton cs c ih =>
    rw [ofComponents_concat] at h
    rw [List.mem_append, List.mem_singleton]
    cases c with
    | root => cases h
    | here => exact .inl (ih h)
    | up =>
      rw [push] at h
      split at h
      · exact .inl (ih h)
      · exact .inl (ih (List.dropLast_subset _ h))
    | name text =>
      rcases List.mem_append.mp h with h | h
      · exact .inl (ih h)
      · exact .inr (congrArg Component.name (List.mem_singleton.mp h))

theorem spelled_ofComponents {cs : List Component} (h : ∀ name, .name name ∈ cs → isName name) :
    (ofComponents cs).Spelled := fun name hname => h name (mem_names_ofComponents hname)

theorem isName_of_mem_components {path name : String} (h : .name name ∈ FilePath.components path) :
    isName name = true :=
  isInner_name_iff.mp (isInner_of_mem_components h Component.noConfusion Component.noConfusion)

theorem spelled_normal (path : String) : (normal path).Spelled :=
  spelled_ofComponents fun _ => isName_of_mem_components

/-- The steps up and the names of a path. -/
def steps (p : NormalPath) : List Component := List.replicate p.ups .up ++ p.names.map .name

theorem components_eq (p : NormalPath) :
    p.components = if p.rooted then .root :: p.steps else p.steps := by
  rw [components, List.append_assoc, ← steps]
  split <;> rfl

theorem Spelled.isInner {p : NormalPath} (h : p.Spelled) : ∀ c ∈ p.steps, IsInner c := by
  intro c hc
  rcases List.mem_append.mp hc with hc | hc
  · rw [List.eq_of_mem_replicate hc]
    exact isInner_up
  · obtain ⟨name, hname, rfl⟩ := List.mem_map.mp hc
    exact isInner_name_iff.mpr (h name hname)

theorem Spelled.root_mem_components_iff {p : NormalPath} (h : p.Spelled) :
    .root ∈ p.components ↔ p.rooted = true := by
  have hsteps : .root ∉ p.steps :=
    fun hroot => absurd (List.mem_singleton.mpr rfl) (h.isInner .root hroot).1
  rw [components_eq]
  split <;> simp [*]

theorem Spelled.components_text {p : NormalPath} (h : p.Spelled) :
    FilePath.components p.text = p.components := by
  rw [text, components_eq]
  split
  · exact components_textOf_root h.isInner
  · exact components_textOf h.isInner

theorem text_eq {p : NormalPath} (h : p.Spelled) : p.text =
    if p.rooted then "/" ++ "/".intercalate (p.steps.map Component.text)
    else "/".intercalate (p.steps.map Component.text) := by
  rw [text, components_eq]
  split
  · rfl
  · exact textOf_of_isInner h.isInner

theorem exists_text_eq_append {p : NormalPath} (h : p.Spelled) (hsteps : p.steps ≠ []) :
    ∃ front last, IsInner last ∧ p.text = front ++ last.text := by
  obtain ⟨front, last, heq⟩ := (List.eq_nil_or_concat' p.steps).resolve_left hsteps
  have hlast : IsInner last := h.isInner last (heq ▸ List.mem_append_right _ List.mem_cons_self)
  have hjoined : ∃ front', "/".intercalate (p.steps.map Component.text) = front' ++ last.text := by
    rw [heq, List.map_append, List.map_singleton]
    by_cases hfront : front = []
    · exact ⟨"", by rw [hfront]; rfl⟩
    · refine ⟨_, String.intercalate_append_of_ne_nil (by simpa using hfront) (List.cons_ne_nil _ _)⟩
  obtain ⟨front', hfront'⟩ := hjoined
  rw [text_eq h, hfront']
  split
  · exact ⟨"/" ++ front', last, hlast, String.append_assoc.symm⟩
  · exact ⟨front', last, hlast, rfl⟩

theorem foldl_push_names (p : NormalPath) (names : List String) :
    (names.map Component.name).foldl push p = { p with names := p.names ++ names } := by
  induction names generalizing p with
  | nil => rw [List.append_nil]; rfl
  | cons name names ih =>
    rw [List.map_cons, List.foldl_cons, ih, push, List.append_assoc, List.singleton_append]

theorem foldl_push_ups (rooted : Bool) (ups n : Nat) :
    (List.replicate n Component.up).foldl push ⟨rooted, ups, []⟩ = ⟨rooted, ups + n, []⟩ := by
  induction n generalizing ups with
  | zero => rfl
  | succ n ih =>
    rw [List.replicate_succ, List.foldl_cons]
    change List.foldl push ⟨rooted, ups + 1, []⟩ (List.replicate n Component.up) = _
    rw [ih, Nat.add_assoc, Nat.add_comm 1 n]

theorem ofComponents_components (p : NormalPath) : ofComponents p.components = p := by
  have hsteps (rooted : Bool) :
      p.steps.foldl push ⟨rooted, 0, []⟩ = ⟨rooted, p.ups, p.names⟩ := by
    rw [steps, List.foldl_append, foldl_push_ups, foldl_push_names, Nat.zero_add, List.nil_append]
  rw [components_eq, ofComponents]
  split
  · rename_i hrooted
    rw [List.foldl_cons]
    exact (hsteps true).trans (by rw [← hrooted])
  · rename_i hrooted
    exact (hsteps false).trans (by rw [← Bool.eq_false_iff.mpr hrooted])

theorem Spelled.normal_text {p : NormalPath} (h : p.Spelled) : normal p.text = p := by
  rw [normal, h.components_text, ofComponents_components]

end NormalPath

namespace FilePath

theorem backslash_not_mem_key (p : NormalPath) : '\\' ∉ p.key.toList := by
  rw [NormalPath.key, String.toList_ofList]
  intro h
  obtain ⟨c, -, hc⟩ := List.mem_map.mp h
  split at hc
  · exact absurd hc (by decide)
  · rename_i hne
    exact hne hc

theorem key_eq_text {p : NormalPath} (h : '\\' ∉ p.text.toList) : p.key = p.text := by
  rw [NormalPath.key]
  have hsame : (p.text.toList.map fun c => if c = '\\' then '/' else c) = p.text.toList := by
    refine (List.map_congr_left fun c hc => if_neg ?_).trans (List.map_id _)
    rintro rfl
    exact h hc
  rw [hsame, String.ofList_toList]

theorem mem_intercalate {c : Char} {parts : List String}
    (h : c ∈ ("/".intercalate parts).toList) : c = '/' ∨ ∃ part ∈ parts, c ∈ part.toList := by
  induction parts with
  | nil =>
    rw [String.intercalate_nil] at h
    cases h
  | cons part more ih =>
    cases more with
    | nil =>
      rw [String.intercalate_singleton] at h
      exact .inr ⟨part, List.mem_cons_self, h⟩
    | cons next more =>
      rw [String.intercalate_cons_cons, String.toList_append, String.toList_append,
        List.mem_append, List.mem_append] at h
      rcases h with (h | h) | h
      · exact .inr ⟨part, List.mem_cons_self, h⟩
      · exact .inl (List.mem_singleton.mp h)
      · refine (ih h).imp_right fun ⟨p, hp, hc⟩ => ⟨p, List.mem_cons_of_mem _ hp, hc⟩

theorem subset_of_mem_names {path name : String} (h : name ∈ (normal path).names) :
    name.toList ⊆ path.toList := by
  have hname := mem_components (NormalPath.mem_names_ofComponents h)
  obtain ⟨part, hpart, hsome⟩ :=
    (hname.resolve_left Component.noConfusion).resolve_left Component.noConfusion
  have htext : name.toList = part := text_of_innerComponent? hsome
  rw [htext]
  exact subset_of_mem_segments hpart

theorem backslash_not_mem_text {path : String} (h : '\\' ∉ path.toList) :
    '\\' ∉ (normal path).text.toList := by
  have hsteps : '\\' ∉ ("/".intercalate ((normal path).steps.map Component.text)).toList := by
    intro hmem
    obtain ⟨part, hpart, hc⟩ := (mem_intercalate hmem).resolve_left (by decide)
    obtain ⟨step, hstep, rfl⟩ := List.mem_map.mp hpart
    rcases List.mem_append.mp hstep with hstep | hstep
    · rw [List.eq_of_mem_replicate hstep] at hc
      exact absurd hc (by decide)
    · obtain ⟨name, hname, rfl⟩ := List.mem_map.mp hstep
      exact h (subset_of_mem_names hname hc)
  rw [NormalPath.text_eq (NormalPath.spelled_normal path)]
  split
  · rw [String.toList_append, List.mem_append, not_or]
    exact ⟨by decide, hsteps⟩
  · exact hsteps

/-- A text that is its own key is its normal path written out. -/
theorem text_normal {path : String} (h : key path = path) : (normal path).text = path := by
  have hpath : '\\' ∉ path.toList := h ▸ backslash_not_mem_key (normal path)
  rw [← key_eq_text (backslash_not_mem_text hpath), ← key, h]

theorem rooted_normal {path : String} (h : key path = path) :
    (normal path).rooted = isRooted path := by
  have hspelled := NormalPath.spelled_normal path
  rw [Bool.eq_iff_iff, ← hspelled.root_mem_components_iff, ← root_mem_components_iff,
    ← hspelled.components_text, text_normal h]

end FilePath

namespace NormalPath

open FilePath

/-- Names below a path. -/
def down (p : NormalPath) (names : List String) : NormalPath :=
  { p with names := p.names ++ names }

theorem steps_down (p : NormalPath) (names : List String) :
    (p.down names).steps = p.steps ++ names.map .name := by
  rw [steps, steps, down, List.map_append, List.append_assoc]

/-- A way that never leads above its start leads below any other start alike. -/
theorem foldl_push_eq_down {cs : List Component} (p : NormalPath) (hroot : .root ∉ cs)
    (hups : (ofComponents cs).ups = 0) : cs.foldl push p = p.down (ofComponents cs).names := by
  induction cs using List.reverseRecOn with
  | nil => rw [down, ofComponents, List.foldl_nil, List.foldl_nil, empty, List.append_nil]
  | append_singleton cs c ih =>
    rw [List.mem_append, not_or] at hroot
    rw [ofComponents_concat] at hups ⊢
    rw [List.foldl_append, List.foldl_cons, List.foldl_nil]
    cases c with
    | root => exact absurd (List.mem_singleton.mpr rfl) hroot.2
    | here => exact ih hroot.1 hups
    | up =>
      by_cases hnames : (ofComponents cs).names = []
      · rw [push, hnames] at hups
        cases hups
      · have hempty : (ofComponents cs).names.isEmpty = false :=
          Bool.eq_false_iff.mpr (mt List.isEmpty_iff.mp hnames)
        have hdown : (p.names ++ (ofComponents cs).names).isEmpty = false := by simp [hnames]
        rw [push, hempty, if_neg Bool.false_ne_true] at hups
        rw [ih hroot.1 hups, push, push, hempty, down, hdown, if_neg Bool.false_ne_true,
          if_neg Bool.false_ne_true, List.dropLast_append_of_ne_nil hnames]
        rfl
    | name text =>
      rw [ih hroot.1 hups, push, push, down, List.append_assoc]
      rfl

theorem text_down {p : NormalPath} {names : List String} (hp : p.Spelled)
    (hnames : ∀ name ∈ names, isName name) (hrooted : p.rooted = true) (hsteps : p.steps ≠ [])
    (hne : names ≠ []) : (p.down names).text = p.text ++ "/" ++ (empty.down names).text := by
  have hdown : (p.down names).Spelled := List.forall_mem_append.mpr ⟨hp, hnames⟩
  have hbelow : (empty.down names).Spelled := hnames
  rw [text_eq hdown, text_eq hp, text_eq hbelow, steps_down, steps_down, List.map_append,
    String.intercalate_append_of_ne_nil (by simpa using hsteps) (by simpa using hne)]
  change (if p.rooted = true then _ else _) = _
  rw [if_pos hrooted, if_pos hrooted, String.append_assoc, String.append_assoc,
    String.append_assoc]
  rfl

end NormalPath

end CodeAtlas
