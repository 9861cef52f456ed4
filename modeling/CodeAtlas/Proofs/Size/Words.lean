import CodeAtlas.Proofs.Grammar.Subtrees
import CodeAtlas.Proofs.Size.Kinds
import CodeAtlas.Size.Report
import Mathlib.Algebra.Group.Nat.Defs

/-! Measuring a file in machine words. Each count is raised where it stands, and there is nothing if
it no longer fits or a number is divided by zero. A text that fits in memory has too few lines for
that to happen, and a tree whose nodes can be counted has too few declarations. -/

namespace CodeAtlas

namespace Text

theorem length_lines_le (cs : List Char) : (lines cs).length ≤ cs.length := by
  induction cs with
  | nil => exact Nat.le_refl _
  | cons c cs ih =>
    have hcons (ls : List (List Char)) : (consLine c ls).length ≤ ls.length + 1 := by
      cases ls <;> simp only [consLine] <;> split <;> simp
    exact Nat.le_trans (hcons _) (Nat.succ_le_succ ih)

theorem length_toList_le (text : String) : text.toList.length ≤ text.utf8ByteSize := by
  have hof (cs : List Char) : cs.length ≤ (String.ofList cs).utf8ByteSize := by
    induction cs with
    | nil => exact Nat.zero_le _
    | cons c cs ih =>
      have hcons : String.ofList (c :: cs) = String.singleton c ++ String.ofList cs := by
        rw [String.singleton_eq_ofList, ← String.ofList_append, List.singleton_append]
      have hpos := c.utf8Size_pos
      rw [hcons, String.utf8ByteSize_append, String.utf8ByteSize_singleton, List.length_cons]
      omega
  rw [← @String.ofList_toList text, String.toList_ofList]
  exact hof _

end Text

namespace Size

/-- A count, if it fits in a word. -/
def word? (n : Nat) : Option Nat := if n < 2 ^ 64 then some n else none

/-- Counts one more, where there is one. -/
def raise? (n : Nat) (more : Bool) : Option Nat := if more then word? (n + 1) else some n

/-- The quotient, and one more where something is left. -/
def ceilDiv? (n size : Nat) : Option Nat :=
  if size = 0 then none else raise? (n / size) (n % size != 0)

section Numbers

variable {n size : Nat}

theorem raise?_eq {more : Bool} (h : more = true → n + 1 < 2 ^ 64) :
    raise? n more = some (n + if more then 1 else 0) := by
  unfold raise?
  cases more with
  | false => rfl
  | true => exact if_pos (h rfl)

theorem ceilDiv_eq (hsize : 0 < size) :
    ceilDiv n size = n / size + if n % size != 0 then 1 else 0 := by
  have hsplit : n = size * (n / size) + n % size := (Nat.div_add_mod n size).symm
  have hlt : n % size < size := Nat.mod_lt n hsize
  unfold ceilDiv
  by_cases hrest : n % size = 0
  · have hn : n + size - 1 = size - 1 + size * (n / size) := by omega
    rw [hn, Nat.add_mul_div_left _ _ hsize, Nat.div_eq_of_lt (by omega), hrest]
    simp
  · have hn : n + size - 1 = n % size - 1 + size * (n / size + 1) := by
      rw [Nat.mul_succ]
      omega
    rw [hn, Nat.add_mul_div_left _ _ hsize, Nat.div_eq_of_lt (by omega), if_pos (by simpa)]
    omega

theorem ceilDiv?_eq (hn : n < 2 ^ 64) (hsize : 0 < size) :
    ceilDiv? n size = some (ceilDiv n size) := by
  unfold ceilDiv?
  rw [if_neg hsize.ne', ceilDiv_eq hsize]
  apply raise?_eq
  intro hrest
  have hsplit : n = size * (n / size) + n % size := (Nat.div_add_mod n size).symm
  have hrest : n % size ≠ 0 := bne_iff_ne.mp hrest
  have hle : n / size ≤ size * (n / size) := Nat.le_mul_of_pos_left _ hsize
  omega

end Numbers

namespace Breakdown

def add? (s : Settings) (b : Breakdown) (kind : LineKind) : Option Breakdown := do
  let total ← word? (b.total + 1)
  let blank ← raise? b.blank (kind = .blank)
  let comment ← raise? b.comment (kind = .comment)
  let importing ← raise? b.importing (kind = .importing)
  let code ← raise? b.code (kind = .code)
  let effective ← raise? b.effective (counts s kind)
  some ⟨total, blank, comment, importing, code, effective⟩

def ofLines? (s : Settings) : Breakdown × Bool → List (List Char) → Option (Breakdown × Bool) :=
  List.foldlM fun (b, inBlock) line =>
    let (kind, open_) := Line.classify inBlock line
    (b.add? s kind).map (·, open_)

def ofText? (s : Settings) (text : String) : Option Breakdown :=
  (ofLines? s (empty, false) (Text.lines text.toList)).map Prod.fst

variable (s : Settings)

theorem add?_tally (seen : List LineKind) (kind : LineKind) (h : seen.length + 1 < 2 ^ 64) :
    (tally s seen).add? s kind = some ((tally s seen).add s kind) := by
  have hcount (k : LineKind) : seen.count k ≤ seen.length := List.count_le_length
  have hcounts : seen.countP (counts s) ≤ seen.length := List.countP_le_length
  have hraise {n : Nat} {more : Bool} (hn : n ≤ seen.length) :
      raise? n more = some (n + if more then 1 else 0) := raise?_eq fun _ => by omega
  have htotal : word? (seen.length + 1) = some (seen.length + 1) := if_pos h
  simp only [add?, add, tally, htotal, hraise (hcount _), hraise hcounts, Option.bind_eq_bind,
    Option.bind_some, decide_eq_true_eq]

theorem ofLines?_eq (seen : List LineKind) (inBlock : Bool) (lines : List (List Char))
    (h : seen.length + lines.length < 2 ^ 64) :
    ofLines? s (tally s seen, inBlock) lines = some (ofLines s (tally s seen, inBlock) lines) := by
  induction lines generalizing seen inBlock with
  | nil => rfl
  | cons line more ih =>
    rw [List.length_cons] at h
    have hseen : (seen ++ [(Line.classify inBlock line).1]).length + more.length < 2 ^ 64 := by
      rw [List.length_append, List.length_singleton]
      omega
    have hline := add?_tally s seen (Line.classify inBlock line).1 (by omega)
    have hmore := ih _ (Line.classify inBlock line).2 hseen
    rw [tally_append_singleton] at hmore
    rw [ofLines?, List.foldlM_cons]
    dsimp only
    rw [hline]
    exact hmore

theorem ofText?_eq {text : String} (h : text.utf8ByteSize < 2 ^ 64) :
    ofText? s text = some (ofText s text) := by
  have hlines : (Text.lines text.toList).length < 2 ^ 64 :=
    Nat.lt_of_le_of_lt (Nat.le_trans (Text.length_lines_le _) (Text.length_toList_le text)) h
  have hempty : empty = tally s [] := rfl
  unfold ofText? ofText
  rw [hempty, ofLines?_eq s [] false _ (by simpa using hlines), Option.map_some]

theorem length_kinds (inBlock : Bool) (lines : List (List Char)) :
    (Line.kinds inBlock lines).length = lines.length := by
  induction lines generalizing inBlock with
  | nil => rfl
  | cons line more ih => rw [Line.kinds, List.length_cons, List.length_cons, ih]

/-- No more lines count than the text has bytes. -/
theorem effective_ofText_le (text : String) : (ofText s text).effective ≤ text.utf8ByteSize := by
  have hempty : empty = tally s [] := rfl
  unfold ofText
  rw [hempty, ofLines_eq, List.nil_append]
  calc (tally s (Line.kinds false (Text.lines text.toList))).effective
      ≤ (Line.kinds false (Text.lines text.toList)).length := List.countP_le_length
    _ = (Text.lines text.toList).length := length_kinds _ _
    _ ≤ text.toList.length := Text.length_lines_le _
    _ ≤ text.utf8ByteSize := Text.length_toList_le text

end Breakdown

namespace Declarations

def append? (a b : Declarations) : Option Declarations := do
  let exportedFunctions ← word? (a.exportedFunctions + b.exportedFunctions)
  let types ← word? (a.types + b.types)
  some ⟨a.names ++ b.names, exportedFunctions, types⟩

/-- Adds what a declaration declares, one variable after the other. -/
def record? (exported : Bool) (d : Declarations) (n : Node) : Option Declarations :=
  match n.kind with
  | .lexicalDeclaration | .variableDeclaration =>
    n.children.foldlM (fun d n => d.append? (ofDeclarator exported n)) d
  | _ => d.append? (ofDeclaration exported n)

def recordStatement? (d : Declarations) (n : Node) : Option Declarations :=
  match n.kind with
  | .exportStatement =>
    match n.child? .declaration with
    | some declaration => record? true d declaration
    | none => some d
  | _ => record? false d n

def ofTree? (root : Node) : Option Declarations := root.children.foldlM recordStatement? empty

/-- How many declarations are counted. -/
def total (d : Declarations) : Nat := d.exportedFunctions + d.types

section Sums

variable (a b c : Declarations)

theorem total_append : (a.append b).total = a.total + b.total := Nat.add_add_add_comm _ _ _ _

theorem append_empty : a.append empty = a := by
  obtain ⟨names, exportedFunctions, types⟩ := a
  simp [append, empty]

theorem append_assoc : (a.append b).append c = a.append (b.append c) := by
  simp [append, Nat.add_assoc]

instance : Std.Associative append := ⟨append_assoc⟩

variable {a b}

theorem append?_eq (h : (a.append b).total < 2 ^ 64) : a.append? b = some (a.append b) := by
  have hfunctions : a.exportedFunctions + b.exportedFunctions ≤ (a.append b).total :=
    Nat.le_add_right _ _
  have htypes : a.types + b.types ≤ (a.append b).total := Nat.le_add_left _ _
  simp only [append?, word?, Option.bind_eq_bind]
  rw [if_pos (Nat.lt_of_le_of_lt hfunctions h), if_pos (Nat.lt_of_le_of_lt htypes h)]
  rfl

theorem total_le_total_foldl (a : Declarations) (ds : List Declarations) :
    a.total ≤ (ds.foldl append a).total := by
  induction ds generalizing a with
  | nil => exact Nat.le_refl _
  | cons d ds ih =>
    have hd := ih (a.append d)
    rw [total_append] at hd
    exact Nat.le_trans (Nat.le_add_right _ _) hd

/-- Adding to what is there, node by node, is adding all at once if the sum fits. -/
theorem foldlM_eq {f : Node → Declarations} {f? : Declarations → Node → Option Declarations}
    (hf : ∀ d n, (d.append (f n)).total < 2 ^ 64 → f? d n = some (d.append (f n)))
    (ns : List Node) (h : ((ns.map f).foldl append a).total < 2 ^ 64) :
    ns.foldlM f? a = some ((ns.map f).foldl append a) := by
  induction ns generalizing a with
  | nil => rfl
  | cons n ns ih =>
    rw [List.map_cons, List.foldl_cons] at h ⊢
    have hfirst := Nat.lt_of_le_of_lt (total_le_total_foldl _ _) h
    rw [List.foldlM_cons, hf a n hfirst]
    exact ih h

theorem ofDeclaration_variables (exported : Bool) {n : Node}
    (hkind : n.kind = .lexicalDeclaration ∨ n.kind = .variableDeclaration) :
    ofDeclaration exported n = (n.children.map (ofDeclarator exported)).foldl append empty := by
  unfold ofDeclaration
  rcases hkind with hkind | hkind <;> rw [hkind]

theorem record?_eq {exported : Bool} {n : Node}
    (h : (a.append (ofDeclaration exported n)).total < 2 ^ 64) :
    record? exported a n = some (a.append (ofDeclaration exported n)) := by
  have hvariables (hkind : n.kind = .lexicalDeclaration ∨ n.kind = .variableDeclaration) :
      n.children.foldlM (fun d n => d.append? (ofDeclarator exported n)) a =
        some (a.append (ofDeclaration exported n)) := by
    have hsum : a.append (ofDeclaration exported n) =
        (n.children.map (ofDeclarator exported)).foldl append a := by
      rw [ofDeclaration_variables exported hkind, ← @List.foldl_assoc _ append, append_empty]
    rw [hsum] at h ⊢
    exact foldlM_eq (fun _ _ => append?_eq) _ h
  unfold record?
  split
  next hkind => exact hvariables (.inl hkind)
  next hkind => exact hvariables (.inr hkind)
  next => exact append?_eq h

theorem recordStatement?_eq {n : Node} (h : (a.append (ofStatement n)).total < 2 ^ 64) :
    recordStatement? a n = some (a.append (ofStatement n)) := by
  by_cases hkind : n.kind = .exportStatement
  · simp only [recordStatement?, ofStatement, hkind] at h ⊢
    cases hdeclaration : n.child? .declaration with
    | none => exact congrArg some (append_empty a).symm
    | some declaration =>
      rw [hdeclaration] at h
      exact record?_eq h
  · have hstatement : ofStatement n = ofDeclaration false n := by
      unfold ofStatement
      split
      next hexport => exact absurd hexport hkind
      next => rfl
    rw [hstatement] at h ⊢
    unfold recordStatement?
    split
    next hexport => exact absurd hexport hkind
    next => exact record?_eq h

theorem ofTree?_eq {root : Node} (h : (ofTree root).total < 2 ^ 64) :
    ofTree? root = some (ofTree root) :=
  foldlM_eq (fun _ _ => recordStatement?_eq) _ h

end Sums

section Bounds

open Node

variable {exported : Bool} {n : Node}

theorem total_foldl_le {f : Node → Declarations} (hf : ∀ n, (f n).total ≤ n.subtree.length)
    (a : Declarations) (ns : List Node) :
    ((ns.map f).foldl append a).total ≤ a.total + (subtreeAll ns).length := by
  induction ns generalizing a with
  | nil => exact Nat.le_refl _
  | cons n ns ih =>
    have hn := hf n
    have hns := ih (a.append (f n))
    rw [total_append] at hns
    rw [List.map_cons, List.foldl_cons, subtreeAll, List.length_append]
    omega

/-- Nothing is counted but what is declared at the children of a node. -/
theorem total_foldl_children_le {f : Node → Declarations}
    (hf : ∀ n, (f n).total ≤ n.subtree.length) (n : Node) :
    ((n.children.map f).foldl append empty).total ≤ n.subtree.length := by
  have hsum := total_foldl_le hf empty n.children
  have hempty : empty.total = 0 := rfl
  rw [subtree_eq, List.length_cons]
  omega

theorem one_le_length_subtree (n : Node) : 1 ≤ n.subtree.length := by
  rw [subtree_eq, List.length_cons]
  exact Nat.le_add_left 1 _

theorem total_ofDeclarator_le_one : (ofDeclarator exported n).total ≤ 1 := by
  unfold ofDeclarator
  split
  · split
    · dsimp only [total]
      split <;> decide
    · exact Nat.zero_le _
  · exact Nat.zero_le _

theorem total_ofDeclaration_le : (ofDeclaration exported n).total ≤ n.subtree.length := by
  have hdeclarator (m : Node) : (ofDeclarator exported m).total ≤ m.subtree.length :=
    Nat.le_trans total_ofDeclarator_le_one (one_le_length_subtree m)
  have hsum := total_foldl_children_le hdeclarator n
  have hone (more : Bool) : (if more then 1 else 0) ≤ n.subtree.length := by
    refine Nat.le_trans ?_ (one_le_length_subtree n)
    cases more <;> decide
  unfold ofDeclaration
  dsimp only
  split
  · exact hone exported
  · exact hone exported
  · exact Nat.zero_le _
  · exact Nat.zero_le _
  · exact hsum
  · exact hsum
  · exact hone true
  · exact hone true
  · exact hone true
  · exact Nat.zero_le _

theorem total_ofStatement_le : (ofStatement n).total ≤ n.subtree.length := by
  unfold ofStatement
  split
  · cases hdeclaration : n.child? .declaration with
    | none => exact Nat.zero_le _
    | some declaration =>
      exact Nat.le_trans total_ofDeclaration_le
        (subtree_sublist (List.mem_of_find?_eq_some hdeclaration)).length_le
  · exact total_ofDeclaration_le

/-- No more is counted than the tree has nodes. -/
theorem total_ofTree_le (root : Node) : (ofTree root).total ≤ root.subtree.length :=
  total_foldl_children_le (fun _ => total_ofStatement_le) root

end Bounds

end Declarations

end Size

end CodeAtlas
