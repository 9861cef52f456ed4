import CodeAtlas.FilePath
import Mathlib.Data.Prod.Lex
import Mathlib.Data.List.Lex
import Mathlib.Data.String.Basic

/-! Paths as lists of components: the order in which they are listed is the lexicographic order of a
key, and a valid name that is joined to a path becomes its last component. -/

namespace CodeAtlas

def Component.key (c : Component) : ℕ ×ₗ String :=
  toLex (c.rank, match c with | .name text => text | _ => "")

theorem Component.key_injective : Function.Injective Component.key := by
  intro a b h
  have hkey := (Prod.ext_iff.mp (toLex.injective h))
  cases a <;> cases b <;> simp_all [rank]

theorem Component.lt_iff (a b : Component) : a.lt b = true ↔ a.key < b.key := by
  unfold key
  rw [Prod.Lex.toLex_lt_toLex]
  cases a <;> cases b <;> simp [Component.lt, rank]

namespace FilePath

/-- What the order of paths compares. -/
def orderKey (path : List Component) : List (ℕ ×ₗ String) := path.map Component.key

theorem orderKey_injective : Function.Injective orderKey :=
  List.map_injective_iff.mpr Component.key_injective

theorem before_iff (as bs : List Component) :
    before as bs = true ↔ orderKey as < orderKey bs := by
  induction as generalizing bs with
  | nil => cases bs <;> simp [before, orderKey]
  | cons a as ih =>
    cases bs with
    | nil => simp [before, orderKey]
    | cons b bs =>
      unfold orderKey at ih ⊢
      rw [before, Bool.or_eq_true, Bool.and_eq_true, Component.lt_iff, ih, List.map_cons,
        List.map_cons, List.cons_lt_cons_iff, beq_iff_eq, Component.key_injective.eq_iff]

theorem before_eq_false_iff (as bs : List Component) :
    before as bs = false ↔ orderKey bs ≤ orderKey as := by
  rw [← Bool.not_eq_true, before_iff, not_lt]

theorem below?_append (directory rest : List Component) :
    below? directory (directory ++ rest) = some rest := by
  induction directory with
  | nil => rfl
  | cons d ds ih => simp [below?, ih]

theorem segments_ne_nil (path : List Char) : segments path ≠ [] := by
  cases path with
  | nil => simp [segments]
  | cons c cs =>
    unfold segments
    rw [List.foldr_cons]
    split
    · exact List.cons_ne_nil _ _
    · split <;> exact List.cons_ne_nil _ _

theorem segments_cons (c : Char) (cs : List Char) : segments (c :: cs) =
    if c = '/' then [] :: segments cs else
      (c :: (segments cs).headD []) :: (segments cs).tail := by
  change (if c = '/' then _ else _) = _
  split
  · rfl
  · cases h : segments cs with
    | nil => exact absurd h (segments_ne_nil cs)
    | cons part more =>
      unfold segments at h
      rw [h]
      rfl

theorem segments_append_slash (front back : List Char) :
    segments (front ++ '/' :: back) = segments front ++ segments back := by
  induction front with
  | nil => exact segments_cons '/' back
  | cons c cs ih =>
    rw [List.cons_append, segments_cons, segments_cons, ih]
    cases h : segments cs with
    | nil => exact absurd h (segments_ne_nil cs)
    | cons part more => split <;> rfl

theorem segments_of_not_mem {name : List Char} (h : '/' ∉ name) : segments name = [name] := by
  induction name with
  | nil => rfl
  | cons c cs ih =>
    obtain ⟨hc, hcs⟩ := not_or.mp (mt List.mem_cons.mpr h)
    rw [segments_cons, if_neg (Ne.symm hc), ih hcs]
    rfl

/-- Whether a text names an entry of a directory. -/
def isName (name : String) : Bool :=
  decide ('/' ∉ name.toList) && innerComponent? name.toList == some (.name name)

/-- What the first segment of a path stands for, if it is not the only one or not empty. -/
def lead : List Char → List Component
  | [] => [.root]
  | ['.'] => [.here]
  | cs => (innerComponent? cs).toList

theorem componentsOf_of_segments {path first : List Char} {more : List (List Char)}
    (h : segments path = first :: more) (hne : first = [] → more ≠ []) :
    componentsOf path = lead first ++ more.filterMap innerComponent? := by
  unfold componentsOf
  rw [h]
  dsimp only
  split
  · exact absurd rfl (hne rfl)
  · rfl
  · rfl
  · unfold lead
    split <;> simp_all

theorem ne_nil_of_segments {path first : List Char} {more : List (List Char)}
    (h : segments path = first :: more) (hpath : path ≠ []) : first = [] → more ≠ [] := by
  rintro rfl rfl
  cases path with
  | nil => exact hpath rfl
  | cons c cs =>
    rw [segments_cons] at h
    split at h
    · exact segments_ne_nil cs (List.tail_eq_of_cons_eq h)
    · exact List.cons_ne_nil _ _ (List.head_eq_of_cons_eq h)

theorem componentsOf_append_last (front : List Char) {last : List Char} (hlast : '/' ∉ last) :
    componentsOf (front ++ '/' :: last) =
      componentsOf (front ++ ['/']) ++ (innerComponent? last).toList := by
  obtain ⟨first, more, hfront⟩ := List.exists_cons_of_ne_nil (segments_ne_nil front)
  have hsegments (cs : List Char) (hcs : '/' ∉ cs) :
      segments (front ++ '/' :: cs) = first :: (more ++ [cs]) := by
    rw [segments_append_slash, hfront, segments_of_not_mem hcs]
    rfl
  rw [componentsOf_of_segments (hsegments last hlast) (by simp),
    componentsOf_of_segments (hsegments [] List.not_mem_nil) (by simp), List.append_assoc]
  -- The empty segment behind the last slash is no component.
  have hempty : innerComponent? [] = none := rfl
  cases h : innerComponent? last <;> simp [h, hempty]

theorem componentsOf_append_slash {front : List Char} (hfront : front ≠ []) :
    componentsOf (front ++ ['/']) = componentsOf front := by
  obtain ⟨first, more, hsegments⟩ := List.exists_cons_of_ne_nil (segments_ne_nil front)
  have hslash : segments (front ++ ['/']) = first :: (more ++ [[]]) := by
    rw [segments_append_slash, hsegments]
    rfl
  rw [componentsOf_of_segments hslash (by simp),
    componentsOf_of_segments hsegments (ne_nil_of_segments hsegments hfront)]
  simp [List.filterMap_cons, innerComponent?]

variable {base name : String}

theorem isName_iff : isName name = true ↔
    '/' ∉ name.toList ∧ innerComponent? name.toList = some (.name name) := by
  unfold isName
  rw [Bool.and_eq_true, decide_eq_true_eq, beq_iff_eq]

theorem isRooted_of_isName (h : isName name = true) : isRooted name = false := by
  unfold isRooted
  rw [beq_eq_false_iff_ne]
  intro hhead
  exact (isName_iff.mp h).1 (List.mem_of_mem_head? hhead)

theorem join_eq (hbase : base ≠ "") (hname : isName name = true) : join base name =
    if base.toList.getLast? == some '/' then base ++ name else base ++ "/" ++ name := by
  unfold join
  rw [isRooted_of_isName hname, Bool.false_or, if_neg]
  rwa [String.isEmpty_iff]

theorem components_join (hbase : base ≠ "") (hname : isName name = true) :
    components (join base name) = components base ++ [.name name] := by
  obtain ⟨hslash, hinner⟩ := isName_iff.mp hname
  rw [join_eq hbase hname]
  unfold components
  split
  next hlast =>
    obtain ⟨front, hfront⟩ := List.getLast?_eq_some_iff.mp (beq_iff_eq.mp hlast)
    have hjoined : (base ++ name).toList = front ++ '/' :: name.toList := by
      rw [String.toList_append, hfront, List.append_assoc]
      rfl
    rw [hjoined, hfront, componentsOf_append_last front hslash, hinner]
    rfl
  next =>
    have hjoined : (base ++ "/" ++ name).toList = base.toList ++ '/' :: name.toList := by
      rw [String.toList_append, String.toList_append, List.append_assoc]
      rfl
    have hne : base.toList ≠ [] := by simpa using hbase
    rw [hjoined, componentsOf_append_last base.toList hslash, componentsOf_append_slash hne, hinner]
    rfl

theorem join_ne_empty (hbase : base ≠ "") (hname : isName name = true) : join base name ≠ "" := by
  rw [join_eq hbase hname]
  split <;> simp [String.append_eq_empty_iff, hbase]

theorem components_foldl_join {names : List String} (hbase : base ≠ "")
    (hnames : ∀ name ∈ names, isName name = true) :
    components (names.foldl join base) = components base ++ names.map .name := by
  induction names generalizing base with
  | nil => simp
  | cons name names ih =>
    rw [List.forall_mem_cons] at hnames
    rw [List.foldl_cons, ih (join_ne_empty hbase hnames.1) hnames.2, components_join hbase hnames.1,
      List.append_assoc]
    rfl

end FilePath

end CodeAtlas
