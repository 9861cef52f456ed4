import CodeAtlas.Proofs.Source.NormalPaths
import Mathlib.Logic.Relation

/-! The normal form of a path is canonical. What stands between the slashes of a path is a list of
segments, in which steps nowhere can be dropped and names can be cancelled with a step up behind
them. Following the segments leads to the same place before and after, and what is left when
nothing more can be cancelled is the normal form, so it does not depend on the order of the
cancellations. -/

namespace CodeAtlas

namespace FilePath

variable {p q x : String} {segs rest : List String}

/-- What stands between the slashes of a path, behind the one at the front of a rooted path. -/
def slices (path : String) : List String :=
  if path = "" then []
  else ((segments path.toList).drop (isRooted path).toNat).map String.ofList

/-- The segments of a path. Between two slashes side by side there is none. -/
def parts (path : String) : List String := (slices path).filter (· ≠ "")

/-- A path with given texts between its slashes. -/
def spell (rooted : Bool) (slices : List String) : String :=
  (if rooted then "/" else "") ++ "/".intercalate slices

/-- Whether a segment is the name of an entry, and not a step to the directory itself or up. -/
def Ordinary (x : String) : Prop := x ≠ "" ∧ x ≠ "." ∧ x ≠ ".." ∧ '/' ∉ x.toList

instance (x : String) : Decidable (Ordinary x) := inferInstanceAs (Decidable (_ ∧ _))

/-- One cancellation: a step nowhere, or an ordinary segment with a step up behind it. -/
inductive Cancels : List String → List String → Prop where
  | here (front back : List String) : Cancels (front ++ "." :: back) (front ++ back)
  | up (front back : List String) {x : String} (hx : Ordinary x) :
      Cancels (front ++ x :: ".." :: back) (front ++ back)

/-- What cancellations, as many as there can be, leave of segments. -/
def Exhausts (segs rest : List String) : Prop :=
  Relation.ReflTransGen Cancels segs rest ∧ ∀ more, ¬Cancels rest more

theorem ordinary_iff : Ordinary x ↔ isName x = true := by
  rw [isName_iff]
  constructor
  · rintro ⟨hempty, hhere, hup, hslash⟩
    refine ⟨hslash, ?_⟩
    unfold innerComponent?
    split
    · next hx => exact absurd (String.toList_injective hx) hempty
    · next hx => exact absurd (String.toList_injective hx) hhere
    · next hx => exact absurd (String.toList_injective hx) hup
    · rw [String.ofList_toList]
  · rintro ⟨hslash, hname⟩
    refine ⟨?_, ?_, ?_, hslash⟩ <;> rintro rfl <;> cases hname

theorem segment_cases (h : '/' ∉ x.toList) : x = "" ∨ x = "." ∨ x = ".." ∨ Ordinary x := by
  by_cases hempty : x = ""
  · exact .inl hempty
  by_cases hhere : x = "."
  · exact .inr (.inl hhere)
  by_cases hup : x = ".."
  · exact .inr (.inr (.inl hup))
  · exact .inr (.inr (.inr ⟨hempty, hhere, hup, h⟩))

end FilePath

namespace NormalPath

open FilePath

variable {p : NormalPath} {x : String} {segs rest : List String}

/-- One segment further. -/
def follow (p : NormalPath) (segment : String) : NormalPath :=
  ((innerComponent? segment.toList).map p.push).getD p

theorem follow_empty (p : NormalPath) : p.follow "" = p := rfl

theorem follow_here (p : NormalPath) : p.follow "." = p := rfl

theorem follow_up (p : NormalPath) : p.follow ".." = p.push .up := rfl

theorem follow_ordinary (p : NormalPath) (hx : Ordinary x) : p.follow x = p.push (.name x) := by
  rw [follow, (isName_iff.mp (ordinary_iff.mp hx)).2]
  rfl

theorem foldl_follow (p : NormalPath) (segs : List (List Char)) :
    (segs.map String.ofList).foldl follow p = (segs.filterMap innerComponent?).foldl push p := by
  induction segs generalizing p with
  | nil => rfl
  | cons seg segs ih =>
    rw [List.map_cons, List.foldl_cons, ih, follow, String.toList_ofList, List.filterMap_cons]
    cases innerComponent? seg <;> rfl

theorem foldl_follow_filter (p : NormalPath) (segs : List String) :
    (segs.filter (· ≠ "")).foldl follow p = segs.foldl follow p := by
  induction segs generalizing p with
  | nil => rfl
  | cons seg segs ih =>
    rw [List.filter_cons, List.foldl_cons, ← ih]
    split
    · rfl
    · next hempty =>
      have hseg : seg = "" := by simpa using hempty
      rw [hseg, follow_empty]

/-- A cancellation leads to the same place. -/
theorem foldl_follow_cancels (p : NormalPath) (h : Cancels segs rest) :
    segs.foldl follow p = rest.foldl follow p := by
  cases h with
  | here front back => rw [List.foldl_append, List.foldl_append, List.foldl_cons, follow_here]
  | up front back hx =>
    rw [List.foldl_append, List.foldl_append, List.foldl_cons, List.foldl_cons, follow_up,
      follow_ordinary _ hx, push, push]
    simp

theorem foldl_follow_exhausts (p : NormalPath) (h : Relation.ReflTransGen Cancels segs rest) :
    segs.foldl follow p = rest.foldl follow p := by
  induction h with
  | refl => rfl
  | tail _ hcancels ih => exact ih.trans (foldl_follow_cancels p hcancels)

/-- The segments of a normal path: steps up, then names. -/
def trail (p : NormalPath) : List String := List.replicate p.ups ".." ++ p.names

theorem map_text_steps (p : NormalPath) : p.steps.map Component.text = p.trail := by
  rw [steps, List.map_append, List.map_replicate, List.map_map, trail]
  congr 1
  exact List.map_id _

theorem text_eq_spell (h : p.Spelled) : p.text = spell p.rooted p.trail := by
  rw [text_eq h, map_text_steps, spell]
  split
  · rfl
  · exact (String.empty_append).symm

theorem Spelled.ordinary (h : p.Spelled) {name : String} (hname : name ∈ p.names) :
    Ordinary name := ordinary_iff.mpr (h name hname)

theorem Spelled.follow (h : p.Spelled) (hslash : '/' ∉ x.toList) : (p.follow x).Spelled := by
  rcases segment_cases hslash with rfl | rfl | rfl | hx
  · exact h
  · exact h
  · rw [follow_up, push]
    split
    · exact h
    · exact fun name hname => h name (List.dropLast_subset _ hname)
  · rw [follow_ordinary p hx]
    exact List.forall_mem_append.mpr ⟨h, List.forall_mem_singleton.mpr (ordinary_iff.mp hx)⟩

theorem rooted_follow (p : NormalPath) (x : String) : (p.follow x).rooted = p.rooted := by
  unfold NormalPath.follow innerComponent?
  split
  · rfl
  · rfl
  · rw [Option.map_some, Option.getD_some, push]
    split <;> rfl
  · rfl

theorem rooted_foldl_follow (p : NormalPath) (segs : List String) :
    (segs.foldl NormalPath.follow p).rooted = p.rooted := by
  induction segs generalizing p with
  | nil => rfl
  | cons seg segs ih => rw [List.foldl_cons, ih, rooted_follow]

/-- Nothing can be cancelled in the segments of a normal path. -/
theorem Spelled.not_cancels (h : p.Spelled) : ¬Cancels p.trail rest := by
  intro hcancels
  generalize htrail : p.trail = segs at hcancels
  rw [trail] at htrail
  cases hcancels with
  | here front back =>
    have hmem : "." ∈ List.replicate p.ups ".." ++ p.names :=
      htrail ▸ List.mem_append_right _ List.mem_cons_self
    rcases List.mem_append.mp hmem with hup | hname
    · exact absurd (List.eq_of_mem_replicate hup) (by decide)
    · exact (h.ordinary hname).2.1 rfl
  | @up front back x hx =>
    have hname : ".." ∉ p.names := fun hup => (h.ordinary hup).2.2.1 rfl
    -- The step up is not among the names, and in front of the others there is no name.
    rcases List.append_eq_append_iff.mp htrail with ⟨mid, -, hnames⟩ | ⟨mid, hups, hmid⟩
    · refine hname (hnames ▸ List.mem_append_right mid ?_)
      exact List.mem_cons_of_mem x List.mem_cons_self
    · cases mid with
      | nil =>
        rw [List.nil_append] at hmid
        exact hname (hmid ▸ List.mem_cons_of_mem x List.mem_cons_self)
      | cons y mid =>
        obtain ⟨rfl, -⟩ := List.cons.inj hmid
        have hmem : x ∈ List.replicate p.ups ".." :=
          hups ▸ List.mem_append_right front List.mem_cons_self
        exact hx.2.2.1 (List.eq_of_mem_replicate hmem)

theorem Spelled.cancels_follow (h : p.Spelled) (hx : x ≠ "") (hslash : '/' ∉ x.toList) :
    Relation.ReflTransGen Cancels (p.trail ++ x :: rest) ((p.follow x).trail ++ rest) := by
  rcases segment_cases hslash with hempty | rfl | rfl | hordinary
  · exact absurd hempty hx
  · exact .single (.here p.trail rest)
  · rw [follow_up, push]
    rcases List.eq_nil_or_concat' p.names with hnames | ⟨front, name, hnames⟩
    · have hsame : p.trail ++ ".." :: rest =
          ({ p with ups := p.ups + 1 } : NormalPath).trail ++ rest := by
        rw [trail, trail, hnames, List.replicate_succ']
        simp
      rw [if_pos (List.isEmpty_iff.mpr hnames), hsame]
    · have hlast : name ∈ p.names := hnames ▸ List.mem_append_right front List.mem_cons_self
      have hcancels := Cancels.up (List.replicate p.ups ".." ++ front) rest (h.ordinary hlast)
      rw [if_neg (by simp [hnames]), trail, trail, hnames, List.dropLast_concat]
      simpa using Relation.ReflTransGen.single hcancels
  · rw [follow_ordinary p hordinary, push, trail, trail]
    simp only [List.append_assoc, List.singleton_append]
    exact .refl

theorem Spelled.cancels_foldl_follow (h : p.Spelled)
    (hsegs : ∀ x ∈ segs, x ≠ "" ∧ '/' ∉ x.toList) :
    Relation.ReflTransGen Cancels (p.trail ++ segs) (segs.foldl NormalPath.follow p).trail := by
  induction segs generalizing p with
  | nil =>
    rw [List.append_nil, List.foldl_nil]
  | cons x segs ih =>
    rw [List.forall_mem_cons] at hsegs
    exact (h.cancels_follow hsegs.1.1 hsegs.1.2).trans (ih (h.follow hsegs.1.2) hsegs.2)

end NormalPath

namespace FilePath

variable {p q x : String} {segs rest : List String} {rooted : Bool}

/-- Where the segments of a path lead from. -/
def origin (rooted : Bool) : NormalPath := ⟨rooted, 0, []⟩

theorem spelled_origin (rooted : Bool) : (origin rooted).Spelled := List.forall_mem_nil _

theorem isRooted_of_slash {cs : List Char} (h : p.toList = '/' :: cs) : isRooted p = true := by
  rw [isRooted, h]
  rfl

theorem isRooted_of_ne {c : Char} {cs : List Char} (h : p.toList = c :: cs) (hc : c ≠ '/') :
    isRooted p = false := by
  rw [isRooted, h]
  simpa using hc

theorem path_cases (p : String) : p = "" ∨ (∃ cs, p.toList = '/' :: cs) ∨
    ∃ c cs, p.toList = c :: cs ∧ c ≠ '/' := by
  cases h : p.toList with
  | nil => exact .inl (String.toList_injective h)
  | cons c cs =>
    by_cases hc : c = '/'
    · exact .inr (.inl ⟨cs, by rw [hc]⟩)
    · exact .inr (.inr ⟨c, cs, rfl, hc⟩)

theorem slices_of_cons {c : Char} {cs : List Char} (h : p.toList = c :: cs) :
    slices p = ((segments (c :: cs)).drop (isRooted p).toNat).map String.ofList := by
  have hne : p ≠ "" := by
    rintro rfl
    cases h
  rw [slices, if_neg hne, h]

theorem slices_of_slash {cs : List Char} (h : p.toList = '/' :: cs) :
    slices p = (segments cs).map String.ofList := by
  rw [slices_of_cons h, isRooted_of_slash h, segments_cons, if_pos rfl]
  rfl

theorem slices_of_ne {c : Char} {cs : List Char} (h : p.toList = c :: cs) (hc : c ≠ '/') :
    slices p = (segments (c :: cs)).map String.ofList := by
  rw [slices_of_cons h, isRooted_of_ne h hc]
  rfl

/-- The normal form of a path is where its segments lead. -/
theorem normal_eq_foldl (p : String) :
    normal p = (slices p).foldl NormalPath.follow (origin (isRooted p)) := by
  rw [normal, components, NormalPath.ofComponents]
  rcases path_cases p with rfl | ⟨cs, h⟩ | ⟨c, cs, h, hc⟩
  · rfl
  · rw [slices_of_slash h, isRooted_of_slash h, NormalPath.foldl_follow, h,
      componentsOf_cons_slash, List.foldl_cons]
    rfl
  · obtain ⟨first, more, hsegments⟩ := List.exists_cons_of_ne_nil (segments_ne_nil (c :: cs))
    have hfirst : first ≠ [] := by
      rintro rfl
      rw [segments_cons, if_neg hc] at hsegments
      cases hsegments
    rw [slices_of_ne h hc, isRooted_of_ne h hc, h, hsegments, NormalPath.foldl_follow,
      componentsOf_of_segments hsegments fun hnil => absurd hnil hfirst, List.foldl_append,
      List.filterMap_cons]
    -- A dot at the front is a component of its own, which leads nowhere.
    unfold lead
    split
    · exact absurd rfl hfirst
    · rfl
    · cases innerComponent? first <;> rfl

theorem segments_eq_splitOn (cs : List Char) : segments cs = cs.splitOn '/' := by
  induction cs with
  | nil => rfl
  | cons c cs ih =>
    rw [segments_cons, List.splitOn_cons_eq_if_modifyHead, ← ih]
    by_cases hc : c = '/'
    · rw [hc]
      rfl
    · obtain ⟨first, more, hsegments⟩ := List.exists_cons_of_ne_nil (segments_ne_nil cs)
      rw [if_neg hc, beq_false_of_ne hc, hsegments]
      rfl

theorem intercalate_segments (cs : List Char) : ['/'].intercalate (segments cs) = cs := by
  rw [segments_eq_splitOn, List.intercalate_splitOn]

theorem toList_intercalate_ofList (segs : List (List Char)) :
    ("/".intercalate (segs.map String.ofList)).toList = ['/'].intercalate segs := by
  rw [String.toList_intercalate, List.map_map]
  congr 1
  refine (List.map_congr_left fun seg _ => ?_).trans (List.map_id segs)
  exact String.toList_ofList

/-- Every path is written with what stands between its slashes. -/
theorem spell_slices (p : String) : spell (isRooted p) (slices p) = p := by
  apply String.toList_injective
  rcases path_cases p with rfl | ⟨cs, h⟩ | ⟨c, cs, h, hc⟩
  · rfl
  · rw [slices_of_slash h, isRooted_of_slash h, spell, String.toList_append,
      toList_intercalate_ofList, intercalate_segments, h]
    rfl
  · rw [slices_of_ne h hc, isRooted_of_ne h hc, spell, String.toList_append,
      toList_intercalate_ofList, intercalate_segments, h]
    rfl

theorem slash_not_mem_slices (hx : x ∈ slices p) : '/' ∉ x.toList := by
  rw [slices] at hx
  split at hx
  · cases hx
  · obtain ⟨seg, hseg, rfl⟩ := List.mem_map.mp hx
    rw [String.toList_ofList]
    exact slash_not_mem_of_mem_segments (List.mem_of_mem_drop hseg)

section Spelling

variable (hfirst : rooted = false → segs.head? ≠ some "") (hslash : ∀ x ∈ segs, '/' ∉ x.toList)

include hslash in
theorem segments_intercalate_texts (hne : segs ≠ []) :
    (segments ("/".intercalate segs).toList).map String.ofList = segs := by
  have hparts : ∀ part ∈ segs.map String.toList, '/' ∉ part := by
    intro part hpart
    obtain ⟨x, hx, rfl⟩ := List.mem_map.mp hpart
    exact hslash x hx
  have hnil : segs.map String.toList ≠ [] := by simpa using hne
  have hsegments : segments (['/'].intercalate (segs.map String.toList)) =
      segs.map String.toList := segments_intercalate hnil hparts
  have hslashes : ("/" : String).toList = ['/'] := rfl
  rw [String.toList_intercalate, hslashes, hsegments, List.map_map]
  refine (List.map_congr_left fun x _ => ?_).trans (List.map_id segs)
  exact String.ofList_toList

include hfirst hslash in
/-- A path that is written without a root starts with a letter of its first segment. -/
theorem toList_spell_cons (hne : segs ≠ []) (hrooted : rooted = false) :
    ∃ c cs, (spell rooted segs).toList = c :: cs ∧ c ≠ '/' := by
  obtain ⟨x, more, rfl⟩ := List.exists_cons_of_ne_nil hne
  have hx : x ≠ "" := by simpa using hfirst hrooted
  have hspell : ∃ cs, (spell rooted (x :: more)).toList = x.toList ++ cs := by
    rw [spell, hrooted, if_neg Bool.false_ne_true, String.empty_append]
    cases more with
    | nil => exact ⟨[], by rw [String.intercalate_singleton, List.append_nil]⟩
    | cons next more =>
      rw [String.intercalate_cons_cons, String.append_assoc, String.toList_append]
      exact ⟨_, rfl⟩
  obtain ⟨cs, hcs⟩ := hspell
  cases hletters : x.toList with
  | nil => exact absurd (String.toList_injective hletters) hx
  | cons c letters =>
    rw [hletters] at hcs
    refine ⟨c, letters ++ cs, hcs, ?_⟩
    rintro rfl
    exact hslash x List.mem_cons_self (hletters ▸ List.mem_cons_self)

theorem toList_spell_true (segs : List String) :
    (spell true segs).toList = '/' :: ("/".intercalate segs).toList := by
  rw [spell, if_pos rfl, String.toList_append]
  rfl

include hfirst hslash in
theorem isRooted_spell : isRooted (spell rooted segs) = rooted := by
  cases hrooted : rooted with
  | true => exact isRooted_of_slash (toList_spell_true segs)
  | false =>
    by_cases hne : segs = []
    · rw [hne]
      rfl
    · obtain ⟨c, cs, hspell, hc⟩ := toList_spell_cons hfirst hslash hne hrooted
      exact hrooted ▸ isRooted_of_ne hspell hc

include hfirst hslash in
theorem slices_spell (hne : segs ≠ []) : slices (spell rooted segs) = segs := by
  cases hrooted : rooted with
  | true => rw [slices_of_slash (toList_spell_true segs), segments_intercalate_texts hslash hne]
  | false =>
    obtain ⟨c, cs, hspell, hc⟩ := toList_spell_cons hfirst hslash hne hrooted
    rw [← hrooted, slices_of_ne hspell hc, ← hspell, hrooted, spell, if_neg Bool.false_ne_true,
      String.empty_append, segments_intercalate_texts hslash hne]

include hfirst hslash in
theorem normal_spell :
    normal (spell rooted segs) = segs.foldl NormalPath.follow (origin rooted) := by
  by_cases hne : segs = []
  · rw [hne]
    cases rooted <;> decide +kernel
  · rw [normal_eq_foldl, isRooted_spell hfirst hslash, slices_spell hfirst hslash hne]

include hslash in
/-- The segments of a path that is written with segments, none of them empty. -/
theorem parts_spell (hempty : "" ∉ segs) : parts (spell rooted segs) = segs := by
  have hfirst : rooted = false → segs.head? ≠ some "" :=
    fun _ h => hempty (List.mem_of_mem_head? h)
  by_cases hne : segs = []
  · rw [hne]
    cases rooted <;> decide +kernel
  · rw [parts, slices_spell hfirst hslash hne, List.filter_eq_self]
    intro x hx
    exact decide_eq_true fun h => hempty (h ▸ hx)

end Spelling

theorem normal_eq_foldl_parts (p : String) :
    normal p = (parts p).foldl NormalPath.follow (origin (isRooted p)) := by
  rw [parts, NormalPath.foldl_follow_filter, normal_eq_foldl]

theorem normal_rooted (p : String) : (normal p).rooted = isRooted p := by
  rw [normal_eq_foldl, NormalPath.rooted_foldl_follow]
  rfl

theorem ne_empty_of_mem_parts (hx : x ∈ parts p) : x ≠ "" ∧ '/' ∉ x.toList := by
  obtain ⟨hx, hne⟩ := List.mem_filter.mp hx
  exact ⟨of_decide_eq_true hne, slash_not_mem_slices hx⟩

theorem subset_of_cancels (h : Cancels segs rest) : rest ⊆ segs := by
  cases h with
  | here front back => exact (List.sublist_cons_self _ _).append_left front |>.subset
  | @up front back x =>
    have hback : back.Sublist (x :: ".." :: back) :=
      (List.sublist_cons_self ".." back).trans (List.sublist_cons_self x _)
    exact (hback.append_left front).subset

theorem subset_of_exhausts (h : Relation.ReflTransGen Cancels segs rest) : rest ⊆ segs := by
  induction h with
  | refl => exact List.Subset.refl segs
  | tail _ hcancels ih => exact List.Subset.trans (subset_of_cancels hcancels) ih

theorem cancels_foldl_origin (rooted : Bool) (hsegs : ∀ x ∈ segs, x ≠ "" ∧ '/' ∉ x.toList) :
    Relation.ReflTransGen Cancels segs (segs.foldl NormalPath.follow (origin rooted)).trail :=
  (spelled_origin rooted).cancels_foldl_follow hsegs

/-- What cancellations leave of a path are the segments of its normal form, whatever their order. -/
theorem exhausts_parts_iff : Exhausts (parts p) segs ↔ segs = (normal p).trail := by
  constructor
  · rintro ⟨hcancels, hsettled⟩
    have hsegs : ∀ x ∈ segs, x ≠ "" ∧ '/' ∉ x.toList := fun x hx =>
      ne_empty_of_mem_parts (subset_of_exhausts hcancels hx)
    have htrail := cancels_foldl_origin (isRooted p) hsegs
    rw [← NormalPath.foldl_follow_exhausts _ hcancels, ← normal_eq_foldl_parts] at htrail
    rcases htrail.cases_head with heq | ⟨more, hmore, -⟩
    · exact heq
    · exact absurd hmore (hsettled more)
  · rintro rfl
    have hcancels := cancels_foldl_origin (isRooted p) fun x hx => ne_empty_of_mem_parts (p := p) hx
    rw [← normal_eq_foldl_parts] at hcancels
    exact ⟨hcancels, fun more => (NormalPath.spelled_normal p).not_cancels⟩

theorem ne_empty_of_mem_trail (hx : x ∈ (normal p).trail) : x ≠ "" ∧ '/' ∉ x.toList := by
  rcases List.mem_append.mp hx with hx | hx
  · rw [List.eq_of_mem_replicate hx]
    decide
  · have hordinary := (NormalPath.spelled_normal p).ordinary hx
    exact ⟨hordinary.1, hordinary.2.2.2⟩

theorem text_normal_eq_spell (p : String) :
    (normal p).text = spell (isRooted p) (normal p).trail := by
  rw [NormalPath.text_eq_spell (NormalPath.spelled_normal p), normal_rooted]

theorem parts_text_normal (p : String) : parts (normal p).text = (normal p).trail := by
  rw [text_normal_eq_spell]
  exact parts_spell (fun x hx => (ne_empty_of_mem_trail hx).2)
    fun hempty => (ne_empty_of_mem_trail hempty).1 rfl

theorem isRooted_text_normal (p : String) : isRooted (normal p).text = isRooted p := by
  rw [text_normal_eq_spell]
  exact isRooted_spell (fun _ h => (ne_empty_of_mem_trail (List.mem_of_mem_head? h)).1 rfl)
    fun x hx => (ne_empty_of_mem_trail hx).2

theorem head?_slices (h : isRooted p = false) : (slices p).head? ≠ some "" := by
  rcases path_cases p with rfl | ⟨cs, hslash⟩ | ⟨c, cs, hletters, hc⟩
  · decide
  · rw [isRooted_of_slash hslash] at h
    cases h
  · rw [slices_of_ne hletters hc, segments_cons, if_neg hc, List.map_cons, List.head?_cons]
    intro hempty
    have hnil := congrArg String.toList (Option.some.inj hempty)
    rw [String.toList_ofList] at hnil
    cases hnil

/-- Segments that lead nowhere may stand anywhere in a path. -/
theorem normal_insert {first : String} {mid : List String} (hfirst : first ≠ "")
    (hslash : ∀ x ∈ first :: mid, '/' ∉ x.toList)
    (hmid : ∀ n : NormalPath, (first :: mid).foldl NormalPath.follow n = n) (i : Nat) :
    normal (spell (isRooted p) ((slices p).take i ++ first :: mid ++ (slices p).drop i)) =
      normal p := by
  have hall : ∀ x ∈ (slices p).take i ++ first :: mid ++ (slices p).drop i, '/' ∉ x.toList := by
    intro x hx
    rw [List.mem_append, List.mem_append] at hx
    rcases hx with (hx | hx) | hx
    · exact slash_not_mem_slices (List.mem_of_mem_take hx)
    · exact hslash x hx
    · exact slash_not_mem_slices (List.mem_of_mem_drop hx)
  have hhead : isRooted p = false →
      ((slices p).take i ++ first :: mid ++ (slices p).drop i).head? ≠ some "" := by
    intro hrooted hhead
    cases htake : (slices p).take i with
    | nil =>
      rw [htake] at hhead
      exact hfirst (Option.some.inj hhead)
    | cons x xs =>
      have hx : (slices p).head? = some x := by
        rw [← List.take_append_drop i (slices p), htake]
        rfl
      rw [htake] at hhead
      exact head?_slices hrooted (hx.trans hhead)
  rw [normal_spell hhead hall, List.foldl_append, List.foldl_append, hmid, ← List.foldl_append,
    List.take_append_drop, normal_eq_foldl]

/-- How the normal form of a path is written. -/
def normalized (path : String) : String := (normal path).text

/-- The normal form of a path is its own normal form. It starts at the root if the path does, and
its segments are steps up with names behind them. It stays the same wherever a step nowhere, or an
ordinary segment with a step up behind it, is put between the segments of the path. Cancellations
leave its segments of those of the path in whatever order they are made, so paths have the same
normal form if and only if they start alike and cancellations leave the same of their segments. -/
theorem normal_canonical (p : String) :
    normalized (normalized p) = normalized p ∧ isRooted (normalized p) = isRooted p ∧
    "." ∉ parts (normalized p) ∧
    (∃ k names, parts (normalized p) = List.replicate k ".." ++ names ∧ ".." ∉ names) ∧
    spell (isRooted p) (slices p) = p ∧
    (∀ i, normalized (spell (isRooted p)
      ((slices p).take i ++ ["."] ++ (slices p).drop i)) = normalized p) ∧
    (∀ i x, Ordinary x → normalized (spell (isRooted p)
      ((slices p).take i ++ [x, ".."] ++ (slices p).drop i)) = normalized p) ∧
    (∀ segs, Exhausts (parts p) segs ↔ segs = parts (normalized p)) ∧
    ∀ q, normalized p = normalized q ↔
      isRooted p = isRooted q ∧ ∃ segs, Exhausts (parts p) segs ∧ Exhausts (parts q) segs := by
  have hspelled := NormalPath.spelled_normal p
  have hparts : parts (normalized p) = (normal p).trail := parts_text_normal p
  refine ⟨congrArg NormalPath.text hspelled.normal_text, isRooted_text_normal p, fun hhere => ?_,
    ⟨(normal p).ups, (normal p).names, hparts, fun hup => (hspelled.ordinary hup).2.2.1 rfl⟩,
    spell_slices p, fun i => ?_, fun i x hx => ?_, fun segs => ?_, fun q => ?_⟩
  · rw [hparts] at hhere
    rcases List.mem_append.mp hhere with hhere | hhere
    · exact absurd (List.eq_of_mem_replicate hhere) (by decide)
    · exact (hspelled.ordinary hhere).2.1 rfl
  · exact congrArg NormalPath.text (normal_insert (by decide) (by decide) (fun n => rfl) i)
  · have hslash : ∀ y ∈ [x, ".."], '/' ∉ y.toList :=
      List.forall_mem_cons.mpr ⟨hx.2.2.2, by decide⟩
    have hmid (n : NormalPath) : [x, ".."].foldl NormalPath.follow n = n :=
      NormalPath.foldl_follow_cancels n (.up [] [] hx)
    exact congrArg NormalPath.text (normal_insert hx.1 hslash hmid i)
  · rw [exhausts_parts_iff, hparts]
  · constructor
    · intro h
      refine ⟨?_, parts (normalized p), exhausts_parts_iff.mpr hparts, exhausts_parts_iff.mpr ?_⟩
      · rw [← isRooted_text_normal p, ← isRooted_text_normal q]
        exact congrArg isRooted h
      · rw [h]
        exact parts_text_normal q
    · rintro ⟨hrooted, segs, hp, hq⟩
      have htrail := (exhausts_parts_iff.mp hp).symm.trans (exhausts_parts_iff.mp hq)
      rw [normalized, normalized, text_normal_eq_spell, text_normal_eq_spell, hrooted, htrail]

/-- A path that leads up from where it starts, with a detour through another directory. -/
theorem normal_canonical_detour :
    Ordinary "x" ∧ normalized "a/./b/../../../c//d" = "../c/d" ∧
    normalized "a/./x/../b/../../../c//d" = "../c/d" ∧
    Exhausts (parts "a/./b/../../../c//d") ["..", "c", "d"] ∧
    normalized "/../c/d" ≠ normalized "a/./b/../../../c//d" := by
  have hx : Ordinary "x" := by decide
  have htext : normalized "a/./b/../../../c//d" = "../c/d" := by decide +kernel
  obtain ⟨-, -, -, -, -, -, hpair, hexhausts, heq⟩ := normal_canonical "a/./b/../../../c//d"
  have hdetour : spell (isRooted "a/./b/../../../c//d")
      ((slices "a/./b/../../../c//d").take 2 ++ ["x", ".."] ++
        (slices "a/./b/../../../c//d").drop 2) = "a/./x/../b/../../../c//d" := by decide +kernel
  have hinserted := hpair 2 "x" hx
  rw [hdetour, htext] at hinserted
  refine ⟨hx, htext, hinserted, (hexhausts _).mpr ?_, fun h => ?_⟩
  · rw [htext]
    decide +kernel
  · exact absurd ((heq "/../c/d").mp h.symm).1 (by decide +kernel)

end FilePath

end CodeAtlas
