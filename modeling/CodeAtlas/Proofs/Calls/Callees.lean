import CodeAtlas.Proofs.Calls.Operands
import CodeAtlas.Proofs.Grammar.Places
import CodeAtlas.Responsibility.Heuristics

/-! Callees in parentheses and callees marked as not null. Where a call starts and what it goes
along is seen through both, but its method is not: a call of a covered member goes by the start of
its chain. -/

namespace CodeAtlas

namespace Node

/-- Whether a node is neither a keyword or sign nor a comment. -/
def isValue (n : Node) : Bool := n.isNamed && !n.isComment

mutual

/-- What is left of a value without the parentheses and the marks of not being null around it. -/
def uncovered : Node → Node
  | ⟨kind, role, text, row, column, children⟩ =>
    let n : Node := ⟨kind, role, text, row, column, children⟩
    match kind with
    | .parenthesizedExpression | .nonNullExpression => uncoveredAmong n children
    | _ => n

def uncoveredAmong (n : Node) : List Node → Node
  | [] => n
  | c :: cs => if c.isValue then c.uncovered else uncoveredAmong n cs

end

theorem uncoveredAmong_eq (n : Node) (cs : List Node) :
    uncoveredAmong n cs = ((cs.find? isValue).map uncovered).getD n := by
  induction cs with
  | nil => rfl
  | cons c cs ih =>
    rw [uncoveredAmong, List.find?_cons, ih]
    cases c.isValue <;> rfl

variable {n property : Node}

theorem uncovered_eq_self (h : ∀ w : Wrapping, n.kind = w.kind → w = .await) :
    n.uncovered = n := by
  obtain ⟨kind, role, text, row, column, children⟩ := n
  unfold uncovered
  split
  · exact absurd (h .parentheses rfl) (by decide)
  · exact absurd (h .nonNull rfl) (by decide)
  · rfl

theorem uncovered_wrapped {w : Wrapping} (hw : w ≠ .await) (hkind : n.kind = w.kind) :
    n.uncovered = ((n.children.find? isValue).map uncovered).getD n := by
  obtain ⟨kind, role, text, row, column, children⟩ := n
  obtain rfl : kind = w.kind := hkind
  rw [← uncoveredAmong_eq]
  cases w with
  | await => exact absurd rfl hw
  | parentheses | nonNull => rfl

/-- Coverings without comments hide nothing of a chain. -/
theorem chain_uncovered (n : Node) (hplain : ∀ m ∈ n.subtree, m.isComment = false) :
    n.uncovered.chain = n.chain := by
  induction n using children_induction with
  | h n ih =>
    by_cases hcovered : ∃ w : Wrapping, w ≠ .await ∧ n.kind = w.kind
    · obtain ⟨w, hw, hkind⟩ := hcovered
      have hchild {c : Node} (hc : c ∈ n.children) : ∀ m ∈ c.subtree, m.isComment = false :=
        fun m hm => hplain m (subtreeAll_subset n (mem_subtreeAll.mpr ⟨c, hc, hm⟩))
      have hnamed : n.namedChildren.head? = n.children.find? isValue := by
        rw [← List.head?_filter]
        refine congrArg List.head? (List.filter_congr fun c hc => ?_)
        rw [isValue, hchild hc c (mem_subtree_self c), Bool.not_false, Bool.and_true]
      have hchain : n.chain = ((n.children.find? isValue).map chain).getD ⟨none, []⟩ :=
        (chain_wrapped w hkind).trans (by rw [hnamed])
      rw [uncovered_wrapped hw hkind]
      cases hvalue : n.children.find? isValue with
      | none => rfl
      | some value =>
        have hmem := List.mem_of_find?_eq_some hvalue
        rw [hchain, hvalue]
        exact ih value hmem (hchild hmem)
    · rw [uncovered_eq_self fun w hkind => by_contra fun hw => hcovered ⟨w, hw, hkind⟩]

theorem uncovered_of_member (h : n.kind = .memberExpression) : n.uncovered = n :=
  uncovered_eq_self fun w hkind => by rw [h] at hkind; cases w <;> cases hkind

section Callee

theorem callee_member (hkind : n.kind = .memberExpression)
    (hproperty : n.child? .property = some property) : n.asCallee.callee = some property.text := by
  unfold asCallee Call.callee textOf?
  rw [if_pos hkind, hproperty]
  rfl

theorem callee_of_not_member (hkind : n.kind ≠ .memberExpression) :
    n.asCallee.method = none ∧ n.asCallee.callee = n.asCallee.root := by
  unfold asCallee Call.callee
  rw [if_neg hkind]
  exact ⟨rfl, rfl⟩

/-- What a name of a call decides is the same with and without coverings if and only if there are
none, or what the call starts from decides it in the same way as the property. -/
theorem any_callee_eq_iff (hmember : n.uncovered.kind = .memberExpression)
    (hproperty : n.uncovered.child? .property = some property) (p : String → Bool) :
    n.asCallee.callee.any p = n.uncovered.asCallee.callee.any p ↔
      n.kind = .memberExpression ∨ n.asCallee.root.any p = p property.text := by
  rw [callee_member hmember hproperty, Option.any_some]
  by_cases hkind : n.kind = .memberExpression
  · rw [uncovered_of_member hkind] at hproperty
    rw [callee_member hkind hproperty, Option.any_some]
    exact iff_of_true rfl (.inl hkind)
  · rw [(callee_of_not_member hkind).2, or_iff_right hkind]

end Callee

end Node

open Node

variable {h : Heuristics} {n property : Node}

theorem Heuristics.isApiCall_eq_iff (hmember : n.uncovered.kind = .memberExpression)
    (hproperty : n.uncovered.child? .property = some property)
    (hroot : n.asCallee.root = n.uncovered.asCallee.root) :
    h.isApiCall n.asCallee = h.isApiCall n.uncovered.asCallee ↔
      n.kind = .memberExpression ∨ n.asCallee.root.any h.apiObjects.contains = true ∨
        (h.rule .apiCommunication).hasKeyword property.text = false := by
  by_cases hkind : n.kind = .memberExpression
  · rw [uncovered_of_member hkind]
    exact iff_of_true rfl (.inl hkind)
  · have hmethod : n.uncovered.asCallee.method = some property.text := by
      unfold asCallee textOf?
      rw [if_pos hmember, hproperty]
      rfl
    rw [or_iff_right hkind, isApiCall, isApiCall, (callee_of_not_member hkind).1, hmethod, ← hroot,
      Option.any_none, Option.any_some]
    cases n.asCallee.root.any h.apiObjects.contains <;>
      cases (h.rule .apiCommunication).hasKeyword property.text <;> decide

/-- A call whose callee is a member behind coverings goes by that member's property if and only if
there are no coverings, or the chain happens to start from the same name. -/
theorem Node.callee_eq_property_iff (h : Heuristics)
    (hmember : n.uncovered.kind = .memberExpression)
    (hproperty : n.uncovered.child? .property = some property) :
    let call := n.asCallee
    let bare := n.uncovered.asCallee
    bare.callee = some property.text ∧
    (call.callee = some property.text ↔
      n.kind = .memberExpression ∨ call.root = some property.text) ∧
    (h.isValidationCall call = h.isValidationCall bare ↔ n.kind = .memberExpression ∨
      call.root.any (h.rule .validation).hasKeyword =
        (h.rule .validation).hasKeyword property.text) ∧
    (h.isStateCall call = h.isStateCall bare ↔ n.kind = .memberExpression ∨
      call.root.any (h.rule .stateManagement).hasKeyword =
        (h.rule .stateManagement).hasKeyword property.text) ∧
    ((∀ m ∈ n.subtree, m.isComment = false) →
      call.root = bare.root ∧ call.chain = bare.chain ∧
      h.isDataAccessCall call = h.isDataAccessCall bare ∧
      (h.isApiCall call = h.isApiCall bare ↔
        n.kind = .memberExpression ∨ call.root.any h.apiObjects.contains = true ∨
          (h.rule .apiCommunication).hasKeyword property.text = false)) := by
  intro call bare
  refine ⟨callee_member hmember hproperty, ?_, any_callee_eq_iff hmember hproperty _,
    any_callee_eq_iff hmember hproperty _, fun hplain => ?_⟩
  · by_cases hkind : n.kind = .memberExpression
    · rw [uncovered_of_member hkind] at hproperty
      exact iff_of_true (callee_member hkind hproperty) (.inl hkind)
    · rw [or_iff_right hkind]
      exact iff_of_eq (congrArg (· = some property.text) (callee_of_not_member hkind).2)
  · have hchain := chain_uncovered n hplain
    have hroot : call.root = bare.root := congrArg Chain.root hchain.symm
    have hnames : call.chain = bare.chain := congrArg Chain.names hchain.symm
    refine ⟨hroot, hnames, ?_, h.isApiCall_eq_iff hmember hproperty hroot⟩
    rw [Heuristics.isDataAccessCall, Heuristics.isDataAccessCall, hroot, hnames]

example : ((Program.read .typeScript "(a.b)(c);").root.subtree.filterMap (·.child? .callee)).map
    (·.asCallee.callee) = [some "a"] := by decide +kernel

theorem Node.callee_eq_property_iff_covered :
    ∃ n ∈ (Program.read .typeScript "((schema.parse)!)(x);").root.subtree,
      n.uncovered.kind = .memberExpression ∧ (∀ m ∈ n.subtree, m.isComment = false) ∧
      ∃ property, n.uncovered.child? .property = some property ∧
        n.uncovered.asCallee.callee = some property.text ∧
        n.asCallee.callee ≠ some property.text ∧
        n.asCallee.chain = n.uncovered.asCallee.chain ∧
        Heuristics.default.isValidationCall n.asCallee ≠
          Heuristics.default.isValidationCall n.uncovered.asCallee := by
  have hread : ∃ n ∈ (Program.read .typeScript "((schema.parse)!)(x);").root.subtree,
      (n.kind = .parenthesizedExpression ∧ n.uncovered.kind = .memberExpression) ∧
      (∀ m ∈ n.subtree, m.isComment = false) ∧
      (n.uncovered.child? .property).map Node.text = some "parse" ∧
      n.asCallee.root = some "schema" := by decide +kernel
  obtain ⟨n, hn, ⟨hkind, hmember⟩, hplain, htext, hroot⟩ := hread
  obtain ⟨property, hproperty, hparse⟩ := Option.map_eq_some_iff.mp htext
  obtain ⟨hbare, hcallee, hvalidation, -, hsame⟩ :=
    Node.callee_eq_property_iff .default hmember hproperty
  have hnot : n.kind ≠ .memberExpression := by
    rw [hkind]
    decide
  refine ⟨n, hn, hmember, hplain, property, hproperty, hbare, ?_, (hsame hplain).2.1, ?_⟩
  · rw [ne_eq, hcallee, or_iff_right hnot, hroot, hparse]
    decide
  · rw [ne_eq, hvalidation, or_iff_right hnot, hroot, hparse]
    decide +kernel

theorem Program.not_forall_callee_eq_property :
    ¬ ∀ (d : Dialect) (text : String), ∀ n ∈ (Program.read d text).root.subtree,
      ∀ callee property, n.kind = .callExpression → n.child? .callee = some callee →
        callee.uncovered.kind = .memberExpression →
        callee.uncovered.child? .property = some property →
        callee.asCallee.callee = some property.text := by
  intro hall
  have hread : ∃ n ∈ (Program.read .typeScript "(schema.parse)(x);").root.subtree,
      n.kind = .callExpression ∧ (n.child? .callee).any fun callee =>
        callee.uncovered.kind == .memberExpression &&
          (callee.uncovered.child? .property).any fun property =>
            callee.asCallee.callee != some property.text := by decide +kernel
  obtain ⟨n, hn, hkind, hread⟩ := hread
  obtain ⟨callee, hcallee, hread⟩ := (Option.any_eq_true _ _).mp hread
  rw [Bool.and_eq_true, beq_iff_eq, Option.any_eq_true] at hread
  obtain ⟨hmember, property, hproperty, hne⟩ := hread
  exact bne_iff_ne.mp hne (hall _ _ n hn callee property hkind hcallee hmember hproperty)

end CodeAtlas
