import CodeAtlas.Proofs.Responsibility.Verdicts

/-! Evidence by names alone. Without it a file shows what it showed before but for the categories
that rest on names, and every other category is present as it was. -/

namespace CodeAtlas

/-- The categories that show in names alone. -/
def Category.byName : List Category := [.uiInteraction, .utility, .configuration]

/-- Without names, each shape loses what its name is evidence of. -/
theorem Heuristics.evidence_false (h : Heuristics) (shape : Shape) : h.evidence false shape =
    (h.evidence true shape).filter fun e => e.category ∉ Category.byName := by
  cases shape with
  | markup tag => rfl
  | call c =>
    simp only [evidence, callEvidence, List.filter_append, Evidence.filter_optionally]
    rfl
  | function name count =>
    cases name with
    | none =>
      simp only [evidence, functionEvidence_none, Evidence.filter_optionally]
      rfl
    | some name =>
      simp only [evidence, functionEvidence_some, List.filter_append, Evidence.filter_optionally]
      rfl
  | property name =>
    simp only [evidence, Evidence.filter_optionally]
    rfl
  | binding name =>
    simp only [evidence, bindingEvidence, List.filter_append, Evidence.filter_optionally]
    rfl
  | importing source =>
    simp only [evidence, Evidence.filter_optionally]
    rfl

namespace Indicator

variable (h : Heuristics)

theorem ofNode_false (n : Node) : ofNode h false n =
    (ofNode h true n).filter fun i => i.category ∉ Category.byName := by
  unfold ofNode
  cases Shape.of? n with
  | none => rfl
  | some shape =>
    simp only [Option.toList_some, List.flatMap_singleton, List.filter_map, h.evidence_false]
    rfl

theorem ofTree_false (root : Node) : ofTree h false root =
    (ofTree h true root).filter fun i => i.category ∉ Category.byName := by
  rw [ofTree_eq, ofTree_eq, List.filter_flatMap]
  have hnodes : ofNode h false = fun n =>
      (ofNode h true n).filter fun i => i.category ∉ Category.byName := by
    funext n
    exact ofNode_false h n
  rw [hnodes]

end Indicator

namespace Responsibility

variable {threshold : Float} {indicators : List Indicator} {c : Category}

theorem isPresent_filter (hidden : List Category) :
    isPresent threshold (indicators.filter fun i => i.category ∉ hidden) c =
      (isPresent threshold indicators c && decide (c ∉ hidden)) := by
  by_cases hc : c ∈ hidden
  · have hnone : ∀ i ∈ indicators.filter fun i => i.category ∉ hidden, i.category ≠ c := by
      intro i hi heq
      have hkept := of_decide_eq_true (List.mem_filter.mp hi).2
      exact hkept (heq ▸ hc)
    rw [isPresent_of_none hnone]
    simp [hc]
  · have hsame : (indicators.filter fun i => i.category ∉ hidden).filter (·.category == c) =
        indicators.filter (·.category == c) := by
      rw [List.filter_filter]
      apply List.filter_congr
      intro i _
      by_cases hi : i.category = c <;> simp [hi, hc]
    rw [isPresent_congr hsame]
    simp [hc]

/-- Without evidence by names alone, the indicators of the categories that rest on it are missing
and no others, and the other categories are present as before. -/
theorem classify_without_names (h : Heuristics) (s : Settings) (file : String) (root : Node) :
    let named := classify h { s with enableHeuristics := true } file root
    let plain := classify h { s with enableHeuristics := false } file root
    plain.indicators = named.indicators.filter (fun i => i.category ∉ Category.byName) ∧
    plain.responsibilities = named.responsibilities.filter (· ∉ Category.byName) ∧
    ∀ c, c ∉ Category.byName → (c ∈ plain.responsibilities ↔ c ∈ named.responsibilities) := by
  intro named plain
  have hindicators : plain.indicators =
      named.indicators.filter (fun i => i.category ∉ Category.byName) :=
    Indicator.ofTree_false h root
  have hpresent : plain.responsibilities =
      named.responsibilities.filter (· ∉ Category.byName) := by
    change Category.all.filter (isPresent _ plain.indicators) =
      (Category.all.filter (isPresent _ named.indicators)).filter _
    rw [hindicators, List.filter_filter]
    apply List.filter_congr
    intro c _
    rw [isPresent_filter, Bool.and_comm]
  refine ⟨hindicators, hpresent, fun c hc => ?_⟩
  rw [hpresent, List.mem_filter]
  simp [hc]

/-- One binding shows three categories by its name, and what it is bound to shows another one. -/
theorem classify_without_names_binding :
    let root := (Program.read .typeScript "const handleParseConfig = db.from('a').select();").root
    let named := classify .default ⟨2, true, false⟩ "a.ts" root
    let plain := classify .default ⟨2, false, false⟩ "a.ts" root
    named.responsibilities = [.uiInteraction, .dataAccess, .utility, .configuration] ∧
    plain.responsibilities = [.dataAccess] ∧
    plain.indicators = named.indicators.filter (fun i => i.category ∉ Category.byName) ∧
    .dataAccess ∉ Category.byName ∧
    (.dataAccess ∈ plain.responsibilities ↔ .dataAccess ∈ named.responsibilities) := by
  intro root named plain
  have hnamed : named.responsibilities =
      [.uiInteraction, .dataAccess, .utility, .configuration] := by decide +kernel
  have hplain : plain.responsibilities = [.dataAccess] := by decide +kernel
  have hother : .dataAccess ∉ Category.byName := by decide
  have hwithout := classify_without_names .default ⟨2, true, false⟩ "a.ts" root
  exact ⟨hnamed, hplain, hwithout.1, hother, hwithout.2.2 .dataAccess hother⟩

end Responsibility

end CodeAtlas
