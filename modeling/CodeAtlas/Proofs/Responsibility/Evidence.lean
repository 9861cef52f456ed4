import CodeAtlas.Program
import CodeAtlas.Proofs.Grammar.Walks
import CodeAtlas.Responsibility.Evidence

/-! Evidence node by node. A tree shows what its nodes show, in source order. A node shows at most
one piece of evidence for a category, and these in the order of the categories. -/

namespace CodeAtlas

namespace Evidence

variable {b : Bool} {e e' : Evidence}

@[grind =] theorem mem_optionally : e ∈ optionally b e' ↔ b = true ∧ e = e' := by
  cases b <;> simp [optionally]

theorem optionally_sublist (b : Bool) (e : Evidence) : (optionally b e).Sublist [e] := by
  cases b with
  | false => exact List.nil_sublist _
  | true => exact List.Sublist.refl _

theorem filter_optionally (p : Evidence → Bool) :
    (optionally b e).filter p = optionally (p e && b) e := by
  cases b with
  | false => simp [optionally]
  | true => cases hp : p e <;> simp [optionally, hp]

end Evidence

namespace Heuristics

open Evidence

variable {h : Heuristics} {byName : Bool}

theorem functionEvidence_none (count : Nat) : h.functionEvidence byName none count =
    optionally (h.isBusinessLogic count) (.branches none count) := by
  simp [functionEvidence]

theorem functionEvidence_some (name : String) (count : Nat) :
    h.functionEvidence byName (some name) count =
      optionally (byName && h.isHandlerName name) (.handler name) ++
        optionally (h.isBusinessLogic count) (.branches (some name) count) ++
        optionally (byName && h.isUtilityName name) (.helperFunction name) := by
  simp [functionEvidence]

/-- What a shape is evidence of has each category once at the most, in their order. -/
theorem categories_evidence (h : Heuristics) (byName : Bool) (shape : Shape) :
    ((h.evidence byName shape).map Evidence.category).Sublist Category.all := by
  have hfew {found all : List Evidence} (hsub : found.Sublist all)
      (hall : (all.map Evidence.category).Sublist Category.all) :
      (found.map Evidence.category).Sublist Category.all :=
    (hsub.map Evidence.category).trans hall
  cases shape with
  | markup tag =>
    change [Category.uiRendering].Sublist Category.all
    decide
  | call c =>
    apply hfew ((((optionally_sublist _ _).append (optionally_sublist _ _)).append
      (optionally_sublist _ _)).append (optionally_sublist _ _))
    change [Category.dataAccess, .validation, .stateManagement, .apiCommunication].Sublist _
    decide
  | function name count =>
    cases name with
    | none =>
      rw [evidence, functionEvidence_none]
      apply hfew (optionally_sublist _ _)
      change [Category.businessLogic].Sublist _
      decide
    | some name =>
      rw [evidence, functionEvidence_some]
      apply hfew (((optionally_sublist _ _).append (optionally_sublist _ _)).append
        (optionally_sublist _ _))
      change [Category.uiInteraction, .businessLogic, .utility].Sublist _
      decide
  | property name =>
    apply hfew (optionally_sublist _ _)
    change [Category.uiInteraction].Sublist _
    decide
  | binding name =>
    apply hfew (((optionally_sublist _ _).append (optionally_sublist _ _)).append
      (optionally_sublist _ _))
    change [Category.uiInteraction, .utility, .configuration].Sublist _
    decide
  | importing source =>
    apply hfew (optionally_sublist _ _)
    change [Category.dataAccess].Sublist _
    decide

end Heuristics

namespace Indicator

variable {h : Heuristics} {byName : Bool} {n : Node} {i : Indicator}

theorem ofTree_eq (h : Heuristics) (byName : Bool) (root : Node) :
    ofTree h byName root = root.subtree.flatMap (ofNode h byName) := by
  unfold ofTree
  rw [Node.walk_enter, List.flatMap_eq_foldl]

theorem mem_ofNode : i ∈ ofNode h byName n ↔
    ∃ shape, Shape.of? n = some shape ∧ ∃ evidence ∈ h.evidence byName shape,
      i = ⟨evidence, n.row + 1, n.column + 1, h.confidence evidence.category⟩ := by
  unfold ofNode
  cases Shape.of? n <;> simp [eq_comm]

/-- The evidence in a node is placed where the node starts. -/
theorem start_of_mem_ofNode (hi : i ∈ ofNode h byName n) :
    i.line = n.line ∧ i.column = n.column + 1 := by
  obtain ⟨shape, -, evidence, -, rfl⟩ := mem_ofNode.mp hi
  exact ⟨rfl, rfl⟩

theorem categories_ofNode (h : Heuristics) (byName : Bool) (n : Node) :
    ((ofNode h byName n).map category).Sublist Category.all := by
  unfold ofNode
  cases Shape.of? n with
  | none => exact List.nil_sublist _
  | some shape =>
    rw [Option.toList_some, List.flatMap_singleton, List.map_map]
    exact h.categories_evidence byName shape

theorem pairwise_ofTree {R : Indicator → Indicator → Prop} {root : Node}
    (hsame : ∀ n ∈ root.subtree, (ofNode h byName n).Pairwise R)
    (hlater : root.subtree.Pairwise fun m n =>
      ∀ i ∈ ofNode h byName m, ∀ j ∈ ofNode h byName n, R i j) :
    (ofTree h byName root).Pairwise R := by
  rw [ofTree_eq]
  exact List.pairwise_flatMap.mpr ⟨hsame, hlater⟩

/-- If no node starts before an earlier one, the evidence in a tree is sorted by line and column.
It is what the nodes show one after the other, each of them with its categories in their order and
none of them twice. -/
theorem ofTree_in_order (h : Heuristics) (byName : Bool) (root : Node) (horder : root.InOrder) :
    (ofTree h byName root).Pairwise
      (fun i j => i.line < j.line ∨ i.line = j.line ∧ i.column ≤ j.column) ∧
    ofTree h byName root = root.subtree.flatMap (ofNode h byName) ∧
    ∀ n ∈ root.subtree,
      (∀ i ∈ ofNode h byName n, i.line = n.line ∧ i.column = n.column + 1) ∧
      ((ofNode h byName n).map category).Sublist Category.all ∧
      ((ofNode h byName n).map category).Nodup := by
  refine ⟨pairwise_ofTree (fun n _ => ?_) ?_, ofTree_eq h byName root, fun n _ => ?_⟩
  · refine List.pairwise_of_forall_mem_list fun i hi j hj => ?_
    have hi := start_of_mem_ofNode hi
    have hj := start_of_mem_ofNode hj
    exact .inr ⟨hi.1.trans hj.1.symm, Nat.le_of_eq (hi.2.trans hj.2.symm)⟩
  · refine List.Pairwise.imp (fun {m n} hmn i hi j hj => ?_) horder
    obtain ⟨hline, hcolumn⟩ := start_of_mem_ofNode hi
    obtain ⟨hline', hcolumn'⟩ := start_of_mem_ofNode hj
    unfold Node.line at hline hline'
    omega
  · have hcategories := categories_ofNode h byName n
    have hall : Category.all.Nodup := by decide
    exact ⟨fun i hi => start_of_mem_ofNode hi, hcategories, hall.sublist hcategories⟩

example : (ofTree .default true (Program.read .typeScript "f();\nfetch();").root).map
    (fun i => (i.category, i.line, i.column)) = [(.apiCommunication, 2, 1)] := by decide +kernel

/-- The first three pieces of evidence come from one node, and the last two from nodes that start at
one place. -/
theorem ofTree_in_order_shared :
    let root := (Program.read .typeScript "const handleParseConfig = db.from('a').select();").root
    root.InOrder ∧
    (ofTree .default true root).map (fun i => (i.category, i.line, i.column)) =
      [(.uiInteraction, 1, 7), (.utility, 1, 7), (.configuration, 1, 7), (.dataAccess, 1, 27),
        (.dataAccess, 1, 27)] ∧
    (ofTree .default true root).Pairwise
      (fun i j => i.line < j.line ∨ i.line = j.line ∧ i.column ≤ j.column) := by
  intro root
  have horder : root.InOrder := by decide +kernel
  have hshown : (ofTree .default true root).map (fun i => (i.category, i.line, i.column)) =
      [(.uiInteraction, 1, 7), (.utility, 1, 7), (.configuration, 1, 7), (.dataAccess, 1, 27),
        (.dataAccess, 1, 27)] := by decide +kernel
  exact ⟨horder, hshown, (ofTree_in_order .default true root horder).1⟩

end Indicator

end CodeAtlas
