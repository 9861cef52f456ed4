import CodeAtlas.Proofs.Grammar.FunctionKeywords
import CodeAtlas.Proofs.Responsibility.Evidence

/-! Functions in a tree and what they are evidence of. The keyword of a function has the shape of
one itself, without a name or branches, so it counts beside the function it belongs to, also as
business logic where functions without branches do. All that is asked of a tree is that functions
are written with their keywords. -/

namespace CodeAtlas

/-- The kinds of functions and methods. -/
def Kind.isFunction : Kind → Bool
  | .functionDeclaration | .generatorDeclaration | .functionExpression | .generatorExpression
  | .arrowFunction | .methodDefinition => true
  | _ => false

def Shape.isFunction : Shape → Bool
  | .function _ _ => true
  | _ => false

namespace Node

variable {n : Node}

/-- Whether the shape of a node is that of a function. -/
def isFunction (n : Node) : Bool := (Shape.of? n).any Shape.isFunction

/-- The branches in the body of a function. -/
def bodyBranches (n : Node) : Nat := ((n.child? .body).map branches).getD 0

theorem isKeyword_iff : n.isKeyword = true ↔ n.kind = .token ∧ n.text = "function" := by
  rw [isKeyword, Bool.and_eq_true, beq_iff_eq, beq_iff_eq]

theorem not_isKeyword_of_isFunction (h : n.kind.isFunction = true) : n.isKeyword = false := by
  apply isKeyword_of_ne
  intro hkind
  rw [hkind] at h
  cases h

theorem not_isFunction_of_isKeyword (h : n.isKeyword = true) : n.kind.isFunction = false := by
  rw [(isKeyword_iff.mp h).1]
  rfl

theorem shape_of_isFunction (h : n.kind.isFunction = true) :
    Shape.of? n = some (.function (n.textOf? .name) n.bodyBranches) := by
  unfold Kind.isFunction at h
  unfold Shape.of?
  split at h
  case h_7 => cases h
  all_goals
    rename_i hkind
    rw [hkind]
    rfl

theorem shape_of_isKeyword (h : n.isKeyword = true) :
    Shape.of? n = some (.function (n.textOf? .name) n.bodyBranches) := by
  obtain ⟨hkind, htext⟩ := isKeyword_iff.mp h
  unfold Shape.of?
  rw [hkind, htext]
  rfl

theorem isFunction_plainProperty (name : Option Node) :
    (Shape.plainProperty name).any Shape.isFunction = false := by
  cases name with
  | none => rfl
  | some name =>
    unfold Shape.plainProperty
    rw [Option.bind_some]
    split <;> rfl

theorem isFunction_eq (n : Node) : n.isFunction = (n.kind.isFunction || n.isKeyword) := by
  by_cases hkeyword : n.isKeyword = true
  · rw [hkeyword, Bool.or_true, isFunction, shape_of_isKeyword hkeyword]
    rfl
  by_cases hfunction : n.kind.isFunction = true
  · rw [hfunction, Bool.true_or, isFunction, shape_of_isFunction hfunction]
    rfl
  rw [Bool.not_eq_true] at hkeyword hfunction
  rw [hkeyword, hfunction, isFunction]
  unfold Shape.of?
  split
  case h_2 => cases n.child? .callee <;> rfl
  case h_3 hkind | h_4 hkind | h_5 hkind | h_6 hkind | h_7 hkind | h_8 hkind =>
    rw [hkind] at hfunction
    cases hfunction
  case h_9 hkind =>
    split
    next htext => exact absurd (isKeyword_iff.mpr ⟨hkind, htext⟩) (Bool.eq_false_iff.mp hkeyword)
    · rfl
  case h_10 | h_11 => exact isFunction_plainProperty _
  case h_12 => cases n.textOf? .name <;> rfl
  case h_13 =>
    cases n.child? .name with
    | none => rfl
    | some name =>
      rw [Option.bind_some]
      split <;> rfl
  case h_14 => cases n.textOf? .source <;> rfl
  all_goals rfl

theorem toNat_isFunction (n : Node) :
    n.isFunction.toNat = n.kind.isFunction.toNat + n.isKeyword.toNat := by
  rw [isFunction_eq]
  cases hkeyword : n.isKeyword with
  | false => rw [Bool.or_false, Bool.toNat_false, Nat.add_zero]
  | true =>
    rw [not_isFunction_of_isKeyword hkeyword]
    rfl

theorem countP_isFunction (ns : List Node) :
    ns.countP isFunction = ns.countP (·.kind.isFunction) + keywords ns := by
  induction ns with
  | nil => rfl
  | cons n ns ih =>
    rw [countP_cons_toNat, countP_cons_toNat, keywords_cons, toNat_isFunction, ih]
    omega

/-- A token has no body. -/
theorem bodyBranches_of_isKeyword (h : n.isKeyword = true)
    (hparts : n.KeywordParts) : n.bodyBranches = 0 := by
  rw [bodyBranches, child?, hparts.eq_nil_of_token (isKeyword_iff.mp h).1]
  rfl

end Node

namespace Evidence

theorem countP_optionally (p : Evidence → Bool) (b : Bool) (e : Evidence) :
    (optionally b e).countP p = (b && p e).toNat := by
  cases b with
  | false => rfl
  | true =>
    rw [optionally, if_pos rfl, List.countP_singleton]
    cases p e <;> rfl

def isBusinessLogic (e : Evidence) : Bool := e.category = .businessLogic

end Evidence

namespace Heuristics

open Evidence

variable (h : Heuristics) (byName : Bool)

theorem countP_evidence_function (name : Option String) (count : Nat) :
    (h.evidence byName (.function name count)).countP Evidence.isBusinessLogic =
      (h.isBusinessLogic count).toNat := by
  cases name with
  | none =>
    rw [evidence, functionEvidence_none, countP_optionally]
    exact congrArg Bool.toNat (Bool.and_true _)
  | some name =>
    rw [evidence, functionEvidence_some, List.countP_append, List.countP_append, countP_optionally,
      countP_optionally, countP_optionally]
    simp [Evidence.isBusinessLogic, category]

/-- Nothing but the branches of functions is evidence of business logic. -/
theorem countP_evidence_of_not_isFunction {shape : Shape} (hshape : shape.isFunction = false) :
    (h.evidence byName shape).countP Evidence.isBusinessLogic = 0 := by
  cases shape with
  | function name count => cases hshape
  | markup tag => rfl
  | call c =>
    simp [evidence, callEvidence, countP_optionally, Evidence.isBusinessLogic, category]
  | property name => simp [evidence, countP_optionally, Evidence.isBusinessLogic, category]
  | binding name =>
    simp [evidence, bindingEvidence, countP_optionally, Evidence.isBusinessLogic, category]
  | importing source => simp [evidence, countP_optionally, Evidence.isBusinessLogic, category]

end Heuristics

namespace Indicator

variable (h : Heuristics) (byName : Bool)

/-- How many of some indicators are for business logic. -/
def businessLogic (found : List Indicator) : Nat :=
  found.countP fun i => i.category = .businessLogic

theorem businessLogic_ofNode (n : Node) : businessLogic (ofNode h byName n) =
    (n.isFunction && h.isBusinessLogic n.bodyBranches).toNat := by
  have hcount : businessLogic (ofNode h byName n) =
      ((Shape.of? n).toList.flatMap (h.evidence byName)).countP Evidence.isBusinessLogic := by
    rw [businessLogic, ofNode, List.countP_map]
    rfl
  rw [hcount]
  cases hfunction : n.isFunction with
  | true =>
    have hshape : Shape.of? n = some (.function (n.textOf? .name) n.bodyBranches) := by
      rw [Node.isFunction_eq, Bool.or_eq_true] at hfunction
      exact hfunction.elim Node.shape_of_isFunction Node.shape_of_isKeyword
    rw [hshape, Option.toList_some, List.flatMap_singleton, h.countP_evidence_function]
    rfl
  | false =>
    unfold Node.isFunction at hfunction
    cases hshape : Shape.of? n with
    | none => rfl
    | some shape =>
      rw [hshape, Option.any_some] at hfunction
      rw [Option.toList_some, List.flatMap_singleton]
      exact h.countP_evidence_of_not_isFunction byName hfunction

/-- A node shows a function with enough branches, or a keyword where functions without branches
count. -/
theorem businessLogic_of_parts {n : Node} (hparts : n.KeywordParts) :
    businessLogic (ofNode h byName n) =
      (n.kind.isFunction && h.isBusinessLogic n.bodyBranches).toNat +
        if h.minBranches = 0 then n.isKeyword.toNat else 0 := by
  rw [businessLogic_ofNode, Node.isFunction_eq]
  cases hkeyword : n.isKeyword with
  | false => simp
  | true =>
    rw [Node.not_isFunction_of_isKeyword hkeyword, Node.bodyBranches_of_isKeyword hkeyword hparts,
      Heuristics.isBusinessLogic]
    by_cases hmin : h.minBranches = 0 <;> simp [hmin]

theorem businessLogic_append (found more : List Indicator) :
    businessLogic (found ++ more) = businessLogic found + businessLogic more := List.countP_append

theorem businessLogic_flatMap {ns : List Node}
    (hparts : ∀ n ∈ ns, n.KeywordParts) :
    businessLogic (ns.flatMap (ofNode h byName)) =
      ns.countP (fun n => n.kind.isFunction && h.isBusinessLogic n.bodyBranches) +
        if h.minBranches = 0 then Node.keywords ns else 0 := by
  induction ns with
  | nil =>
    change 0 = 0 + if h.minBranches = 0 then 0 else 0
    rw [ite_self]
  | cons n ns ih =>
    rw [List.forall_mem_cons] at hparts
    rw [List.flatMap_cons, businessLogic_append, businessLogic_of_parts h byName hparts.1,
      ih hparts.2, countP_cons_toNat, Node.keywords_cons]
    split <;> omega

/-- A function shows itself, and its keyword where functions without branches count. -/
theorem businessLogic_own {n : Node} (hfunction : n.kind.isFunction = true)
    (hself : n.KeywordParts)
    (hchildren : ∀ m ∈ n.children, m.KeywordParts) :
    businessLogic ((n :: n.children.filter Node.isKeyword).flatMap (ofNode h byName)) =
      (h.isBusinessLogic n.bodyBranches).toNat +
        if h.minBranches = 0 then n.kind.hasKeyword.toNat else 0 := by
  have hparts : ∀ m ∈ n :: n.children.filter Node.isKeyword,
      m.KeywordParts :=
    List.forall_mem_cons.mpr ⟨hself, fun m hm => hchildren m (List.mem_filter.mp hm).1⟩
  have hread : n.kind ≠ .error := by
    intro hkind
    rw [hkind] at hfunction
    cases hfunction
  have hkeywords : Node.keywords (n :: n.children.filter Node.isKeyword) =
      n.kind.hasKeyword.toNat := by
    rw [Node.keywords, List.countP_cons, Node.not_isKeyword_of_isFunction hfunction,
      List.countP_filter, ← hself.count_eq hread, Node.keywords]
    simp only [Bool.and_self, Bool.false_eq_true, if_false, Nat.add_zero]
  have hfunctions : (n.children.filter Node.isKeyword).countP
      (fun m => m.kind.isFunction && h.isBusinessLogic m.bodyBranches) = 0 := by
    refine List.countP_eq_zero.mpr fun m hm => ?_
    have hkeyword := (List.mem_filter.mp hm).2
    rw [Node.not_isFunction_of_isKeyword hkeyword, Bool.false_and]
    exact Bool.false_ne_true
  rw [businessLogic_flatMap h byName hparts, hkeywords, List.countP_cons, hfunctions, hfunction,
    Bool.true_and, Nat.zero_add]
  cases h.isBusinessLogic n.bodyBranches <;> rfl

end Indicator

namespace Node

open Indicator

/-- Every node that is written with the keyword of functions adds a function shape, and so does
every keyword that was left over. So there are as many shapes as functions if and only if there are
no such nodes and keywords. The keyword of a function counts as business logic beside the function
if and only if functions without branches count. -/
theorem function_shapes_eq_add_keywords (root : Node) (hroot : root.kind ≠ .token)
    (hparts : ∀ n ∈ root.subtree, n.KeywordParts) :
    let nodes := root.subtree
    let keyworded := nodes.countP (·.kind.hasKeyword)
    nodes.countP isFunction =
      nodes.countP (·.kind.isFunction) + (keyworded + strayKeywords nodes) ∧
    (nodes.countP isFunction = nodes.countP (·.kind.isFunction) ↔
      ∀ n ∈ nodes, n.kind.hasKeyword = false ∧ (n.kind = .error → keywords n.children = 0)) ∧
    (∀ h byName, businessLogic (ofTree h byName root) =
      nodes.countP (fun n => n.kind.isFunction && h.isBusinessLogic n.bodyBranches) +
        if h.minBranches = 0 then keyworded + strayKeywords nodes else 0) ∧
    ∀ h byName, ∀ n ∈ nodes, n.kind.isFunction = true →
      (businessLogic ((n :: n.children.filter isKeyword).flatMap (ofNode h byName)) ≤ 1 ↔
        n.kind.hasKeyword = false ∨ h.minBranches ≠ 0) := by
  intro nodes keyworded
  have hkeywords : keywords nodes = keyworded + strayKeywords nodes := keywords_subtree hroot hparts
  have hfunctions : nodes.countP isFunction =
      nodes.countP (·.kind.isFunction) + (keyworded + strayKeywords nodes) := by
    rw [countP_isFunction, hkeywords]
  refine ⟨hfunctions, ?_, fun h byName => ?_, fun h byName n hn hfunction => ?_⟩
  · rw [hfunctions, Nat.add_eq_left, Nat.add_eq_zero_iff, List.countP_eq_zero,
      strayKeywords_eq_zero_iff, ← forall₂_and]
    simp only [Bool.not_eq_true]
  · rw [ofTree_eq, businessLogic_flatMap h byName hparts, hkeywords]
  · have hchildren : ∀ m ∈ n.children, m.KeywordParts :=
      fun m hm => hparts m (children_subset_subtree hn hm)
    rw [businessLogic_own h byName hfunction (hparts n hn) hchildren]
    by_cases hmin : h.minBranches = 0
    · have henough : h.isBusinessLogic n.bodyBranches = true := by
        rw [Heuristics.isBusinessLogic, hmin]
        exact decide_eq_true (Nat.zero_le _)
      rw [if_pos hmin, henough]
      cases n.kind.hasKeyword <;> simp [hmin]
    · rw [if_neg hmin, Nat.add_zero]
      exact iff_of_true (Bool.toNat_le _) (.inr hmin)

/-- One of two functions has a keyword, which counts where functions without branches do. -/
theorem function_shapes_eq_add_keywords_mixed :
    let nodes := (Program.read .typeScript "function f() \x7b\x7d\nconst g = () => 0;").root.subtree
    let found (h : Heuristics) (n : Node) :=
      businessLogic ((n :: n.children.filter isKeyword).flatMap (ofNode h true))
    nodes.countP isFunction = 3 ∧ nodes.countP (·.kind.isFunction) = 2 ∧
      (∃ n ∈ nodes, n.kind.isFunction = true ∧
        ¬found { Heuristics.default with minBranches := 0 } n ≤ 1) ∧
      ∀ n ∈ nodes, n.kind.isFunction = true → found .default n ≤ 1 := by
  intro nodes found
  obtain ⟨hshapes, -, -, hown⟩ := function_shapes_eq_add_keywords
    (Program.read .typeScript "function f() \x7b\x7d\nconst g = () => 0;").root
    (fun hkind => Kind.noConfusion hkind) (Program.keywordParts _ _)
  have hfunctions : nodes.countP (·.kind.isFunction) = 2 := by decide +kernel
  have hkeyworded : nodes.countP (·.kind.hasKeyword) + strayKeywords nodes = 1 := by
    decide +kernel
  have hread : ∃ n ∈ nodes, n.kind = .functionDeclaration := by decide +kernel
  obtain ⟨n, hn, hkind⟩ := hread
  have hfunction : n.kind.isFunction = true := by rw [hkind]; rfl
  have hkeyword : n.kind.hasKeyword = true := by rw [hkind]; rfl
  refine ⟨?_, hfunctions, ⟨n, hn, hfunction, ?_⟩, fun m hm hm' => ?_⟩
  · exact hshapes.trans (congrArg₂ (· + ·) hfunctions hkeyworded)
  · rw [hown _ true n hn hfunction, hkeyword]
    decide
  · exact (hown .default true m hm hm').mpr (.inr (by decide))

/-- A function that is written with the keyword has two shapes, and both count as business logic
where functions without branches do. -/
theorem not_forall_one_shape :
    (¬∀ root : Node, root.kind ≠ .token → (∀ n ∈ root.subtree, n.KeywordParts) →
      root.subtree.countP isFunction = root.subtree.countP (·.kind.isFunction)) ∧
    ¬∀ (h : Heuristics) (root : Node), root.kind ≠ .token →
      (∀ n ∈ root.subtree, n.KeywordParts) →
        businessLogic (ofTree h true root) ≤ root.subtree.countP (·.kind.isFunction) := by
  constructor
  · intro hall
    have hread := hall (Program.read .typeScript "function f() \x7b\x7d").root
      (fun hkind => Kind.noConfusion hkind) (Program.keywordParts _ _)
    revert hread
    decide +kernel
  · intro hall
    let h := { Heuristics.default with minBranches := 0 }
    have hread := hall h (Program.read .typeScript "function f() \x7b\x7d").root
      (fun hkind => Kind.noConfusion hkind) (Program.keywordParts _ _)
    revert hread
    decide +kernel

end Node

end CodeAtlas
